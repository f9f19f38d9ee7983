import WptFyi.Search.IndexedCounts

/-!
# Structured and unstructured search

A structured search for a test name alone is answered from summary files instead of the
index. The summaries have the stripped names of tests, count all subtests, and have the
abbreviation of any status; the index has the names as they are, counts every row but those
that are `OK`, and has the status `O` for these.

Both answers are first brought to the same terms, the results of the runs for a test, each as a
function of the reports. Then the two are compared test by test (`sameRows_iff`): a test that both
find must be counted alike, and a test that one of them finds under a name that the other does not
have must not show up there. That the answer of the index is such a function, after any ingestions
and evictions, is what the invariant of the index provides.

- `CountedAlike`: the tests that both count alike;
- `mem_searchedRows_iff`: the rows that the index finds;
- `Alike`, `sameRows_iff`: when the two answers are the same, row by row;
- `searchesAgree_iff`: so it is after every history of the index.
-/

namespace WptFyi.Search

open Lib Shared Query Cache Processor

/-- What a response shows for each run. -/
def counts (r : SearchResult) : List (Nat × Nat × String) := (r.legacyStatus.getD []).map shown

/-- The same tests, and for each of them the same passes, total and status in every run. -/
structure SameResults (response : List SearchResult) (results : Multiset SearchResult) : Prop where
  tests : ∀ test, (∃ r ∈ response, r.test = test) ↔ ∃ r ∈ results, r.test = test
  counts : ∀ r ∈ response, ∀ r' ∈ results, r.test = r'.test → counts r = counts r'

/-- The tests that the index and the summary count alike. -/
structure CountedAlike (res : TestResults) : Prop where
  stripped : strip res.test = res.test
  harness : res.status = "OK"
  nodup : (res.subtests.map SubTest.name).Nodup
  named : ∀ sub ∈ res.subtests, sub.name ≠ ""
  counted : ∀ sub ∈ res.subtests, sub.status ≠ "OK"

theorem plain_of_named {res : TestResults} (h : ∀ sub ∈ res.subtests, sub.name ≠ "") :
    res.plain = res := by
  have hfilter : (res.subtests.filter fun sub => sub.name ≠ "") = res.subtests :=
    List.filter_eq_self.mpr fun sub hsub => by simpa using h sub hsub
  have hnone : (res.subtests.find? fun sub => sub.name = "") = none := by
    rw [List.find?_eq_none]
    intro sub hsub
    simpa using h sub hsub
  rw [TestResults.plain, hnone, hfilter]

/-- What the summary has of a test, as the response shows it. -/
def summarized (res : TestResults) : Nat × Nat × String :=
  ((res.subtests.map fun sub => sub.status == "PASS").count true, res.subtests.length,
    abbreviation res.status)

theorem count_passed (subtests : List SubTest) :
    (subtests.map fun sub => sub.status == "PASS").count true =
      subtests.countP fun sub =>
        TestStatus.isPass (TestStatus.testStatusValueFromString sub.status) := by
  rw [List.count_eq_countP, List.countP_map]
  refine List.countP_congr fun sub _ => ?_
  rw [isPass_iff]
  simp

/-- **Both count** such a test alike. -/
theorem CountedAlike.indexed_eq {res : TestResults} (h : CountedAlike res)
    (hknown : ∀ sub ∈ res.subtests, Known sub.status) : indexed res.plain = summarized res := by
  have hharness : TestStatus.testStatusValueFromString "OK" = TestStatus.ok := by decide
  have habbreviation : abbreviation "OK" = "O" := by decide
  have hcounted : res.subtests.countP (fun sub =>
      Search.counted (TestStatus.testStatusValueFromString sub.status)) = res.subtests.length := by
    rw [List.countP_eq_length]
    intro sub hsub
    have hnot : TestStatus.isHarnessStatus
        (TestStatus.testStatusValueFromString sub.status) = false := by
      rw [← Bool.not_eq_true, isHarnessStatus_iff]
      exact h.counted sub hsub
    have hne : TestStatus.testStatusValueFromString sub.status ≠ TestStatus.unknown :=
      hknown sub hsub
    simp [Search.counted, hnot, hne]
  have hok : res.subtests.countP (fun sub =>
      TestStatus.isHarnessStatus (TestStatus.testStatusValueFromString sub.status)) = 0 := by
    rw [List.countP_eq_zero]
    intro sub hsub
    rw [isHarnessStatus_iff]
    exact h.counted sub hsub
  rw [plain_of_named h.named, indexed, summarized, countRows_of_nodup h.nodup,
    countRows_of_nodup h.nodup, countRows_of_nodup h.nodup, h.harness, hharness, hcounted, hok,
    count_passed, habbreviation]
  -- the row of the test itself is noted and not counted
  simp [TestStatus.isPass, Search.counted, TestStatus.isHarnessStatus, TestStatus.ok,
    TestStatus.pass]

/-- And no other, if a row of it is noted. -/
theorem countedAlike_of_indexed_eq {res : TestResults} (hstripped : strip res.test = res.test)
    (hknown : Known res.status) (heq : indexed res.plain = summarized res) : CountedAlike res := by
  rw [indexed, summarized, Prod.mk.injEq, Prod.mk.injEq] at heq
  obtain ⟨-, htotal, hstatus⟩ := heq
  have hpos : 0 < countRows res.plain TestStatus.isHarnessStatus := by
    by_contra hzero
    rw [if_neg hzero] at hstatus
    exact abbreviation_ne_empty hknown hstatus.symm
  rw [if_pos hpos] at hstatus
  have hharness := (abbreviation_eq_iff hknown).mp hstatus.symm
  obtain ⟨hnodup, hnamed, hone⟩ := nodup_of_countRows hpos htotal
  refine ⟨hstripped, hharness, hnodup, hnamed, fun sub hsub hok => ?_⟩
  -- the row of the test is the one that is noted
  rw [plain_of_named hnamed, countRows_of_nodup hnodup,
    if_pos (isHarnessStatus_iff.mpr hharness)] at hone
  have hzero : res.subtests.countP (fun sub =>
      TestStatus.isHarnessStatus (TestStatus.testStatusValueFromString sub.status)) = 0 := by omega
  exact List.countP_eq_zero.mp hzero sub hsub (isHarnessStatus_iff.mpr hok)

/-! ## Rows by test name

The index answers with rows and the summaries with counts. Both are brought to the same form, the
counts of one test for one run. -/

theorem reportOf_plain (reports : GoMap RunID Cache.Report) (id : RunID) :
    reportOf (reports.mapValues Report.plain) id = (reportOf reports id).plain := by
  unfold reportOf
  rw [GoMap.lookup_mapValues]
  cases reports.lookup id <;> rfl

theorem find?_plain (report : Cache.Report) (test : String) :
    (report.plain.results.find? fun res => res.test = test) =
      (report.results.find? fun res => res.test = test).map TestResults.plain := by
  show (report.results.map TestResults.plain).find? _ = _
  rw [List.find?_map]
  rfl

/-- The statuses of a report are known. -/
def StatusesKnown (report : Cache.Report) : Prop :=
  ∀ res ∈ report.results, Search.Known res.status ∧ ∀ sub ∈ res.subtests, Search.Known sub.status

/-- Then so are those of its rows. -/
theorem StatusesKnown.ne_unknown {report : Cache.Report} (h : StatusesKnown report) {n : TestName}
    {re : ResultID} (hre : report.plain.find n = some re) : re ≠ TestStatus.unknown := by
  obtain ⟨res, hres, hfind⟩ := Option.bind_eq_some_iff.mp hre
  rw [find?_plain, Option.map_eq_some_iff] at hres
  obtain ⟨raw, hraw, rfl⟩ := hres
  obtain ⟨hstatus, hsubs⟩ := h raw (List.mem_of_find?_eq_some hraw)
  cases hsub : n.subName with
  | none =>
    rw [hsub] at hfind
    cases hfind
    cases hfirst : raw.subtests.find? fun sub => sub.name = "" with
    | none =>
      rw [TestResults.status_plain_of_none hfirst]
      exact hstatus
    | some first =>
      rw [TestResults.status_plain_of_some hfirst]
      exact hsubs first (List.mem_of_find?_eq_some hfirst)
  | some sub =>
    rw [hsub] at hfind
    obtain ⟨-, first, hfirst, rfl⟩ := TestResults.find_plain_eq_some_iff.mp hfind
    exact hsubs first (List.mem_of_find?_eq_some hfirst)

section Rows

variable {cases : CaseMapping} {reports : GoMap RunID Cache.Report} {ids : List RunID}
  {pattern : String} {opts : AggregationOpts}

/-- The rows that the index finds. -/
def searchedRows (cases : CaseMapping) (reports : GoMap RunID Cache.Report) (ids : List RunID)
    (pattern : String) (opts : AggregationOpts) : Finset TestName :=
  selectedRows cases (reports.mapValues Report.plain) ids (.testNamePattern pattern) opts

/-- A run's part of what they add up to for a test. -/
def searchedResult (cases : CaseMapping) (reports : GoMap RunID Cache.Report) (ids : List RunID)
    (pattern : String) (opts : AggregationOpts) (test : String) (id : RunID) :
    LegacySearchRunResult :=
  runResult (((searchedRows cases reports ids pattern opts).filter fun n => n.name = test).val.map
    (naiveRow (reports.mapValues Report.plain) ids)) id

/-- A row is in the report of some run. -/
def InSome (reports : GoMap RunID Cache.Report) (ids : List RunID) (n : TestName) : Prop :=
  ∃ id ∈ ids, ∃ re, (reportOf reports id).plain.find n = some re

/-- A row is `OK` in some run. -/
def OkInSome (reports : GoMap RunID Cache.Report) (ids : List RunID) (n : TestName) : Prop :=
  ∃ id ∈ ids, (reportOf reports id).plain.find n = some TestStatus.ok

theorem result_naiveRow {id : RunID} (hid : id ∈ ids) (n : TestName) :
    (naiveRow (reports.mapValues Report.plain) ids n).result id =
      ((reportOf reports id).plain.find n).getD TestStatus.unknown := by
  rw [← reportOf_plain]
  exact if_pos hid

theorem isHarnessStatus_result_iff {id : RunID} (hid : id ∈ ids) (n : TestName) :
    TestStatus.isHarnessStatus ((naiveRow (reports.mapValues Report.plain) ids n).result id) =
      true ↔ (reportOf reports id).plain.find n = some TestStatus.ok := by
  rw [result_naiveRow hid]
  cases (reportOf reports id).plain.find n with
  | none => simp [TestStatus.isHarnessStatus, TestStatus.unknown, TestStatus.ok]
  | some re => simp [TestStatus.isHarnessStatus]

/-- **The rows found** are those of tests with the pattern in their names, but for `OK` rows
where these are ignored. -/
theorem mem_searchedRows_iff (hknown : ∀ id ∈ ids, StatusesKnown (reportOf reports id))
    {n : TestName} :
    n ∈ searchedRows cases reports ids pattern opts ↔ InSome reports ids n ∧
      nameMatches cases.toLower pattern n.name = true ∧
        ¬(opts.ignoreTestHarnessResult = true ∧ OkInSome reports ids n) := by
  have hsome : (∃ id ∈ ids, (naiveRow (reports.mapValues Report.plain) ids n).result id ≠
      TestStatus.unknown) ↔ InSome reports ids n := by
    refine exists_congr fun id => and_congr_right fun hid => ?_
    rw [result_naiveRow hid]
    cases hre : (reportOf reports id).plain.find n with
    | none => simp
    | some re => simpa using (hknown id hid).ne_unknown hre
  have hok : leftOut ids opts (naiveRow (reports.mapValues Report.plain) ids n) = true ↔
      opts.ignoreTestHarnessResult = true ∧ OkInSome reports ids n := by
    rw [leftOut, Bool.and_eq_true, List.any_eq_true]
    exact and_congr_right fun _ => exists_congr fun id => and_congr_right fun hid =>
      isHarnessStatus_result_iff hid n
  rw [searchedRows, mem_selectedRows_iff, selected, Bool.and_eq_true, Bool.and_eq_true, ← hsome,
    ← hok, Bool.not_eq_true', Bool.not_eq_true, List.any_eq_true, and_assoc]
  simp only [bne_iff_ne]
  rfl

/-- The test itself is a row of each report that has it. -/
theorem inSome_of_mem {id : RunID} (hid : id ∈ ids) {res : TestResults}
    (hres : res ∈ (reportOf reports id).results) : InSome reports ids ⟨res.test, none⟩ := by
  refine ⟨id, hid, ?_⟩
  rw [Report.find, find?_plain]
  cases hfind : (reportOf reports id).results.find? fun res' => res'.test = res.test with
  | none => exact (List.find?_eq_none.mp hfind res hres (decide_eq_true rfl)).elim
  | some res' => exact ⟨_, rfl⟩

theorem exists_of_inSome {n : TestName} (h : InSome reports ids n) :
    ∃ id ∈ ids, ∃ res ∈ (reportOf reports id).results, res.test = n.name := by
  obtain ⟨id, hid, re, hre⟩ := h
  obtain ⟨res, hres, -⟩ := Option.bind_eq_some_iff.mp hre
  rw [find?_plain, Option.map_eq_some_iff] at hres
  obtain ⟨raw, hraw, -⟩ := hres
  exact ⟨id, hid, raw, List.mem_of_find?_eq_some hraw, by simpa using List.find?_some hraw⟩

/-- **When both searches show the same** of every test: those found by their stripped names
are counted alike, and those found by their own names alone are left out by the index. -/
def Alike (toLower : String → String) (reports : GoMap RunID Cache.Report) (ids : List RunID)
    (pattern : String) (opts : AggregationOpts) : Prop :=
  ∀ id ∈ ids, ∀ res ∈ (reportOf reports id).results,
    (nameMatches toLower pattern (strip res.test) = true →
      opts.ignoreTestHarnessResult = false ∧ CountedAlike res) ∧
    (nameMatches toLower pattern res.test = true →
      nameMatches toLower pattern (strip res.test) = false →
        opts.ignoreTestHarnessResult = true ∧
          ∀ sub, InSome reports ids ⟨res.test, sub⟩ → OkInSome reports ids ⟨res.test, sub⟩)

/-- The same tests, and the same of each in every run. -/
structure SameRows (cases : CaseMapping) (reports : GoMap RunID Cache.Report) (ids : List RunID)
    (files : RunID → SummaryFile) (pattern : String) (opts : AggregationOpts) : Prop where
  tests : ∀ test, (nameMatches cases.toLower pattern test = true ∧ ∃ id ∈ ids, test ∈ files id) ↔
    test ∈ (searchedRows cases reports ids pattern opts).image TestName.name
  counts : ∀ test, nameMatches cases.toLower pattern test = true →
    (∃ id ∈ ids, test ∈ files id) → ∀ id ∈ ids,
      shown (column test (files id)) = shown (searchedResult cases reports ids pattern opts test id)

section Alike

variable {files : RunID → SummaryFile}

/-- A status that the index shows is that of an `OK` row. -/
theorem exists_of_status_ne {test : String} {id : RunID} (hid : id ∈ ids)
    (h : (searchedResult cases reports ids pattern opts test id).status ≠ "") :
    ∃ n ∈ searchedRows cases reports ids pattern opts, n.name = test ∧
      (reportOf reports id).plain.find n = some TestStatus.ok := by
  have hpos : 0 < (((searchedRows cases reports ids pattern opts).filter fun n =>
      n.name = test).val.map (naiveRow (reports.mapValues Report.plain) ids)).countP
        fun row => TestStatus.isHarnessStatus (row.result id) = true := by
    by_contra hzero
    exact h (if_neg hzero)
  obtain ⟨row, hrow, hharness⟩ := Multiset.countP_pos.mp hpos
  obtain ⟨n, hn, rfl⟩ := Multiset.mem_map.mp hrow
  obtain ⟨hsearched, hname⟩ := Finset.mem_filter.mp hn
  exact ⟨n, hsearched, hname, (isHarnessStatus_result_iff hid n).mp hharness⟩

theorem shown_searchedResult (hopts : opts.ignoreTestHarnessResult = false) {id : RunID}
    (hid : id ∈ ids) {test : String} (hmatch : nameMatches cases.toLower pattern test = true) :
    shown (searchedResult cases reports ids pattern opts test id) =
      ((reportOf reports id).results.find? fun res => res.test = test).elim (0, 0, "")
        fun res => indexed res.plain := by
  rw [searchedResult, searchedRows, shown_runResult hopts hid hmatch, reportOf_plain, find?_plain]
  cases (reportOf reports id).results.find? fun res => res.test = test <;> rfl

/-- A test found by its stripped name, where the same is shown. -/
theorem SameRows.countedAlike (hknown : ∀ id ∈ ids, StatusesKnown (reportOf reports id))
    (hfiles : ∀ id ∈ ids, SummaryOf (reportOf reports id) (files id))
    (h : SameRows cases reports ids files pattern opts) {id : RunID} (hid : id ∈ ids)
    {res : TestResults} (hres : res ∈ (reportOf reports id).results)
    (hmatch : nameMatches cases.toLower pattern (strip res.test) = true) :
    opts.ignoreTestHarnessResult = false ∧ CountedAlike res := by
  have hmem : ∃ id ∈ ids, strip res.test ∈ files id :=
    ⟨id, hid, (hfiles id hid).mem_iff.mpr ⟨res, hres, rfl⟩⟩
  have hcounts := h.counts _ hmatch hmem id hid
  have hstatus := (hknown id hid res hres).1
  have hcolumn := (hfiles id hid).column_strip hres
  -- the summary has a status, so the index has a row that is `OK`
  have hne : (searchedResult cases reports ids pattern opts (strip res.test) id).status ≠ "" := by
    have heq : (column (strip res.test) (files id)).status =
        (searchedResult cases reports ids pattern opts (strip res.test) id).status :=
      congrArg (fun c : Nat × Nat × String => c.2.2) hcounts
    rw [← heq, hcolumn]
    exact abbreviation_ne_empty hstatus
  obtain ⟨n, hn, hname, hok⟩ := exists_of_status_ne hid hne
  have hopts : opts.ignoreTestHarnessResult = false := by
    rw [← Bool.not_eq_true]
    exact fun hignore => ((mem_searchedRows_iff hknown).mp hn).2.2 ⟨hignore, id, hid, hok⟩
  refine ⟨hopts, ?_⟩
  rw [shown_searchedResult hopts hid hmatch, hcolumn] at hcounts
  -- that row is of a test with the stripped name, which is this one
  obtain ⟨raw, hraw, -⟩ := Option.bind_eq_some_iff.mp hok
  rw [find?_plain, Option.map_eq_some_iff] at hraw
  obtain ⟨res', hres', -⟩ := hraw
  rw [hname] at hres'
  have hname' : res'.test = strip res.test := by simpa using List.find?_some hres'
  obtain rfl : res' = res := (hfiles id hid).eq_of_strip_eq (List.mem_of_find?_eq_some hres') hres
    (by rw [hname', strip_strip])
  rw [hres'] at hcounts
  exact countedAlike_of_indexed_eq hname'.symm hstatus hcounts.symm

/-- A test found by its own name alone is left out by the index, where the same is shown. -/
theorem SameRows.leftOut (hknown : ∀ id ∈ ids, StatusesKnown (reportOf reports id))
    (hfiles : ∀ id ∈ ids, SummaryOf (reportOf reports id) (files id))
    (h : SameRows cases reports ids files pattern opts) {test : String}
    (hmatch : nameMatches cases.toLower pattern test = true)
    (hnot : nameMatches cases.toLower pattern (strip test) = false) {sub : Option String}
    (hsome : InSome reports ids ⟨test, sub⟩) :
    opts.ignoreTestHarnessResult = true ∧ OkInSome reports ids ⟨test, sub⟩ := by
  -- no summary has the name as it is
  have hnotMem : test ∉ (searchedRows cases reports ids pattern opts).image TestName.name := by
    rw [← h.tests]
    rintro ⟨-, id, hid, hmem⟩
    obtain ⟨res, -, hname⟩ := (hfiles id hid).mem_iff.mp hmem
    rw [← hname, strip_strip, hname, hmatch] at hnot
    cases hnot
  by_contra hrow
  exact hnotMem (Finset.mem_image.mpr
    ⟨⟨test, sub⟩, (mem_searchedRows_iff hknown).mpr ⟨hsome, hmatch, hrow⟩, rfl⟩)

/-- Where all are alike, the same tests are found. -/
theorem Alike.tests (hknown : ∀ id ∈ ids, StatusesKnown (reportOf reports id))
    (hfiles : ∀ id ∈ ids, SummaryOf (reportOf reports id) (files id))
    (h : Alike cases.toLower reports ids pattern opts) (test : String) :
    (nameMatches cases.toLower pattern test = true ∧ ∃ id ∈ ids, test ∈ files id) ↔
      test ∈ (searchedRows cases reports ids pattern opts).image TestName.name := by
  constructor
  · rintro ⟨hmatch, id, hid, hmem⟩
    obtain ⟨res, hres, rfl⟩ := (hfiles id hid).mem_iff.mp hmem
    obtain ⟨hopts, halike⟩ := (h id hid res hres).1 hmatch
    rw [halike.stripped] at hmatch ⊢
    refine Finset.mem_image.mpr ⟨⟨res.test, none⟩, (mem_searchedRows_iff hknown).mpr
      ⟨inSome_of_mem hid hres, hmatch, fun hrow => ?_⟩, rfl⟩
    rw [hopts] at hrow
    exact absurd hrow.1 Bool.false_ne_true
  · intro hmem
    obtain ⟨n, hn, rfl⟩ := Finset.mem_image.mp hmem
    obtain ⟨hsome, hmatch, hrow⟩ := (mem_searchedRows_iff hknown).mp hn
    obtain ⟨id, hid, res, hres, hname⟩ := exists_of_inSome hsome
    rw [← hname] at hmatch
    -- a name may match by the blanks that the summary leaves out
    cases hstrip : nameMatches cases.toLower pattern (strip res.test) with
    | true =>
      obtain ⟨-, halike⟩ := (h id hid res hres).1 hstrip
      rw [← hname]
      exact ⟨hmatch, id, hid, (hfiles id hid).mem_iff.mpr ⟨res, hres, halike.stripped⟩⟩
    | false =>
      obtain ⟨hignore, hok⟩ := (h id hid res hres).2 hmatch hstrip
      rw [hname] at hok
      exact absurd ⟨hignore, hok n.subName hsome⟩ hrow

/-- And the same is shown of them. -/
theorem Alike.counts (hknown : ∀ id ∈ ids, StatusesKnown (reportOf reports id))
    (hfiles : ∀ id ∈ ids, SummaryOf (reportOf reports id) (files id))
    (h : Alike cases.toLower reports ids pattern opts) {test : String}
    (hmatch : nameMatches cases.toLower pattern test = true)
    (hmem : ∃ id ∈ ids, test ∈ files id) {id : RunID} (hid : id ∈ ids) :
    shown (column test (files id)) =
      shown (searchedResult cases reports ids pattern opts test id) := by
  obtain ⟨id₀, hid₀, hmem⟩ := hmem
  obtain ⟨res₀, hres₀, rfl⟩ := (hfiles id₀ hid₀).mem_iff.mp hmem
  obtain ⟨hopts, halike₀⟩ := (h id₀ hid₀ res₀ hres₀).1 hmatch
  rw [halike₀.stripped] at hmatch ⊢
  rw [shown_searchedResult hopts hid hmatch]
  cases hfind : (reportOf reports id).results.find? fun res => res.test = res₀.test with
  | none =>
    rw [(hfiles id hid).column_of_forall_ne fun res hres hname => ?_]
    · rfl
    -- a test with that stripped name would be found by it
    · have halike := ((h id hid res hres).1 (hname ▸ hmatch)).2
      rw [halike.stripped] at hname
      exact List.find?_eq_none.mp hfind res hres (decide_eq_true hname)
  | some res =>
    have hres := List.mem_of_find?_eq_some hfind
    have hname : res.test = res₀.test := by simpa using List.find?_some hfind
    have hstrip : strip res.test = res₀.test := by rw [hname, halike₀.stripped]
    have halike := ((h id hid res hres).1 (hstrip ▸ hmatch)).2
    rw [Option.elim_some, halike.indexed_eq (hknown id hid res hres).2, ← hstrip,
      (hfiles id hid).column_strip hres]
    rfl

/-- **The same is shown of every test** exactly when all are alike. -/
theorem sameRows_iff (hknown : ∀ id ∈ ids, StatusesKnown (reportOf reports id))
    (hfiles : ∀ id ∈ ids, SummaryOf (reportOf reports id) (files id)) :
    SameRows cases reports ids files pattern opts ↔
      Alike cases.toLower reports ids pattern opts := by
  constructor
  · intro h id hid res hres
    refine ⟨h.countedAlike hknown hfiles hid hres, fun hmatch hnot => ?_⟩
    have hleft : ∀ sub, InSome reports ids ⟨res.test, sub⟩ → _ := fun sub hsome =>
      h.leftOut hknown hfiles hmatch hnot hsome
    exact ⟨(hleft none (inSome_of_mem hid hres)).1, fun sub hsome => (hleft sub hsome).2⟩
  · intro h
    exact ⟨h.tests hknown hfiles, fun test hmatch hmem id hid =>
      h.counts hknown hfiles hmatch hmem hid⟩

end Alike

end Rows

/-! ## The two searches

They differ in the names of tests, in what they count of a test and in its status. The condition
says of each test that none of this shows. -/

/-- The response from the summary files and the results from the index are the same. -/
def SearchesAgree (cases : CaseMapping) (i : ShardedWPTIndex) (runs : List TestRun)
    (summaries : List SummaryFile) (pattern : String) (opts : AggregationOpts)
    (now : RunID → Int) (orders : Nat → RangeOrder String) (order : RangeOrder String)
    (testOrder : RangeOrder TestID) : Prop :=
  ∃ response plan results,
    prepareSearchResponse cases.toLower pattern orders order runs summaries = some response ∧
    (i.bind cases runs
      (some (prepareUserQuery (runs.map TestRun.id) (.testNamePattern pattern))) now).2 = .ok plan ∧
    execute testOrder plan runs opts = some results ∧ SameResults response results

/-- The files of some runs, as a function of the run. -/
theorem exists_files {reports : GoMap RunID Cache.Report} {runs : List TestRun}
    {summaries : List SummaryFile}
    (h : List.Forall₂ (fun run file => summaryFile (reportOf reports run.id) = .ok file) runs
      summaries) :
    ∃ files : RunID → SummaryFile, summaries = (runs.map TestRun.id).map files ∧
      ∀ id ∈ runs.map TestRun.id, SummaryOf (reportOf reports id) (files id) := by
  have hwritten : ∀ run ∈ runs, ∃ file, summaryFile (reportOf reports run.id) = .ok file := by
    induction h with
    | nil => exact fun run hrun => absurd hrun List.not_mem_nil
    | cons hfile _ ih => exact List.forall_mem_cons.mpr ⟨⟨_, hfile⟩, ih⟩
  refine ⟨fun id => ((summaryFile (reportOf reports id)).toOption).getD ∅, ?_, ?_⟩
  · clear hwritten
    induction h with
    | nil => rfl
    | cons hfile _ ih =>
      rw [List.map_cons, List.map_cons, ← ih, hfile]
      rfl
  · intro id hid
    obtain ⟨run, hrun, rfl⟩ := List.mem_map.mp hid
    obtain ⟨file, hfile⟩ := hwritten run hrun
    show SummaryOf _ ((summaryFile (reportOf reports run.id)).toOption.getD ∅)
    rw [hfile]
    exact summaryOf_summaryFile hfile

section Results

variable {cases : CaseMapping} {reports : GoMap RunID Cache.Report} {ids : List RunID}
  {pattern : String} {opts : AggregationOpts} {results : Multiset SearchResult}

/-- A result sums up the rows of a test that was found. -/
theorem test_counts_of_mem (hresults : results.map unordered = naiveSearch cases
      (reports.mapValues Report.plain) ids (.testNamePattern pattern) opts)
    {r : SearchResult} (hr : r ∈ results) :
    r.test ∈ (searchedRows cases reports ids pattern opts).image TestName.name ∧
      counts r = ids.map fun id =>
        shown (searchedResult cases reports ids pattern opts r.test id) := by
  have hmem := Multiset.mem_map_of_mem unordered hr
  rw [hresults] at hmem
  obtain ⟨test, htest, heq⟩ := Multiset.mem_map.mp hmem
  obtain rfl : test = r.test := congrArg UnorderedResult.test heq
  have hlegacy : some (ids.map (searchedResult cases reports ids pattern opts r.test)) =
      r.legacyStatus := congrArg UnorderedResult.legacyStatus heq
  refine ⟨htest, ?_⟩
  rw [counts, ← hlegacy, Option.getD_some, List.map_map]
  rfl

/-- The tests with a result are those of the rows that are found. -/
theorem exists_result_iff (hresults : results.map unordered = naiveSearch cases
      (reports.mapValues Report.plain) ids (.testNamePattern pattern) opts) {test : String} :
    (∃ r ∈ results, r.test = test) ↔
      test ∈ (searchedRows cases reports ids pattern opts).image TestName.name := by
  constructor
  · rintro ⟨r, hr, rfl⟩
    exact (test_counts_of_mem hresults hr).1
  · intro htest
    have hmem := Multiset.mem_map_of_mem (fun test => summary opts ids test
      (((searchedRows cases reports ids pattern opts).filter fun n => n.name = test).val.map
        (naiveRow (reports.mapValues Report.plain) ids))) htest
    change _ ∈ naiveSearch cases (reports.mapValues Report.plain) ids _ opts at hmem
    rw [← hresults] at hmem
    obtain ⟨r, hr, heq⟩ := Multiset.mem_map.mp hmem
    exact ⟨r, hr, congrArg UnorderedResult.test heq⟩

/-- The response and the results, row by row. -/
theorem sameResults_iff {files : RunID → SummaryFile} {response : List SearchResult}
    (hresponse : ResponseOf cases.toLower pattern (ids.map files) response)
    (hresults : results.map unordered = naiveSearch cases (reports.mapValues Report.plain) ids
      (.testNamePattern pattern) opts) :
    SameResults response results ↔ SameRows cases reports ids files pattern opts := by
  have hfiles : ∀ test, (∃ r ∈ response, r.test = test) ↔
      nameMatches cases.toLower pattern test = true ∧ ∃ id ∈ ids, test ∈ files id := by
    intro test
    rw [hresponse.exists_iff]
    simp only [List.mem_map, exists_exists_and_eq_and]
  have hshown : ∀ r ∈ response, counts r = ids.map fun id => shown (column r.test (files id)) := by
    intro r hr
    rw [counts, hresponse.legacyStatus r hr, Option.getD_some, List.map_map, List.map_map]
    rfl
  constructor
  · intro h
    refine ⟨fun test => by rw [← hfiles, h.tests, exists_result_iff hresults],
      fun test hmatch hmem id hid => ?_⟩
    obtain ⟨r, hr, rfl⟩ := (hfiles test).mpr ⟨hmatch, hmem⟩
    obtain ⟨r', hr', htest⟩ := (h.tests r.test).mp ⟨r, hr, rfl⟩
    have heq := h.counts r hr r' hr' htest.symm
    rw [hshown r hr, (test_counts_of_mem hresults hr').2, htest] at heq
    exact List.map_inj_left.mp heq id hid
  · intro h
    refine ⟨fun test => by rw [hfiles, h.tests, exists_result_iff hresults],
      fun r hr r' hr' htest => ?_⟩
    obtain ⟨hmatch, hmem⟩ := (hfiles r.test).mp ⟨r, hr, rfl⟩
    rw [hshown r hr, (test_counts_of_mem hresults hr').2, ← htest]
    exact List.map_inj_left.mpr fun id hid => h.counts r.test hmatch hmem id hid

end Results

section Agreement

variable {numShards : Nat} {fingerprint64 : String → UInt64} {cases : CaseMapping}
  {labels : List Label} {s : System} {runs : List TestRun} {summaries : List SummaryFile}
  {pattern : String} {opts : AggregationOpts}

/-- Over some runs the two agree when all tests are alike. -/
theorem searchesAgree_iff_alike (hpos : 1 ≤ numShards)
    (hrun : run (System.step fingerprint64 cases) (System.start numShards) labels = some s)
    (hnodup : ∀ c report order, Label.load c (.ok report) order ∈ labels →
      (report.results.map TestResults.test).Nodup)
    (hsep : Separates fingerprint64 (loadedNames (labels.map Label.plain))) (hruns : runs ≠ [])
    (hresident : ∀ run ∈ runs, run.id ∈ s.index.runs)
    (hknown : ∀ run ∈ runs, StatusesKnown (reportOf s.reports run.id))
    (hsummaries : List.Forall₂ (fun run file => summaryFile (reportOf s.reports run.id) = .ok file)
      runs summaries)
    (hopts : opts.includeSubtests = false) (now : RunID → Int)
    (orders : Nat → RangeOrder String) (order : RangeOrder String) (testOrder : RangeOrder TestID) :
    SearchesAgree cases s.index runs summaries pattern opts now orders order testOrder ↔
      Alike cases.toLower s.reports (runs.map TestRun.id) pattern opts := by
  obtain ⟨plan, results, hplan, hresults, hanswer⟩ := search_testNamePattern hpos fingerprint64
    cases hrun hnodup hsep hruns hresident pattern hopts now testOrder
  obtain ⟨files, rfl, hfiles⟩ := exists_files hsummaries
  have hlen : ((runs.map TestRun.id).map files).length = runs.length := by simp
  have hcounts : ∀ file ∈ (runs.map TestRun.id).map files, HasCounts file := by
    intro file hfile
    obtain ⟨id, hid, rfl⟩ := List.mem_map.mp hfile
    exact (hfiles id hid).hasCounts
  obtain ⟨response, hresponse, hspec⟩ := prepareSearchResponse_spec cases.toLower pattern orders
    order hlen hcounts
  have hknown' : ∀ id ∈ runs.map TestRun.id, StatusesKnown (reportOf s.reports id) := by
    intro id hid
    obtain ⟨run, hrun, rfl⟩ := List.mem_map.mp hid
    exact hknown run hrun
  rw [← sameRows_iff hknown' hfiles, ← sameResults_iff hspec hanswer]
  constructor
  · rintro ⟨response', plan', results', hresponse', hplan', hresults', h⟩
    cases hplan.symm.trans hplan'
    cases hresults.symm.trans hresults'
    cases hresponse.symm.trans hresponse'
    exact h
  · intro h
    exact ⟨response, plan, results, hresponse, hplan, hresults, h⟩

/-- **Structured and unstructured search agree** exactly when there is a run, and all tests
are alike for both. -/
theorem searchesAgree_iff (hpos : 1 ≤ numShards)
    (hrun : run (System.step fingerprint64 cases) (System.start numShards) labels = some s)
    (hnodup : ∀ c report order, Label.load c (.ok report) order ∈ labels →
      (report.results.map TestResults.test).Nodup)
    (hsep : Separates fingerprint64 (loadedNames (labels.map Label.plain)))
    (hresident : ∀ run ∈ runs, run.id ∈ s.index.runs)
    (hknown : ∀ run ∈ runs, StatusesKnown (reportOf s.reports run.id))
    (hsummaries : List.Forall₂ (fun run file => summaryFile (reportOf s.reports run.id) = .ok file)
      runs summaries)
    (pattern : String) (hopts : opts.includeSubtests = false) (now : RunID → Int)
    (orders : Nat → RangeOrder String) (order : RangeOrder String) (testOrder : RangeOrder TestID) :
    SearchesAgree cases s.index runs summaries pattern opts now orders order testOrder ↔
      runs ≠ [] ∧ Alike cases.toLower s.reports (runs.map TestRun.id) pattern opts := by
  by_cases hruns : runs = []
  · -- the index refuses a search over no runs
    subst hruns
    refine iff_of_false ?_ fun h => h.1 rfl
    rintro ⟨_, plan, _, -, hplan, -⟩
    rw [ShardedWPTIndex.bind, if_pos rfl] at hplan
    cases hplan
  · rw [and_iff_right hruns]
    exact searchesAgree_iff_alike hpos hrun hnodup hsep hruns hresident hknown hsummaries hopts now
      orders order testOrder

end Agreement

def chromeRun : TestRun := { id := 1, browserName := "chrome" }

def firefoxRun : TestRun := { id := 2, browserName := "firefox" }

/-- A test with subtests in one run, and in the other a test without. -/
def twoKinds : List Label :=
  let sorted : String → RangeOrder String := fun _ => sortedOrder id Function.injective_id
  [.mark 1 chromeRun, .mark 2 firefoxRun,
    .load 1 (.ok ⟨[⟨"/a.html", "OK", [⟨"x", "PASS"⟩, ⟨"yy", "FAIL"⟩]⟩]⟩) sorted, .store 1 20,
    .load 2 (.ok ⟨[⟨"/ref.html", "PASS", []⟩]⟩) sorted, .store 2 30, .clear 2, .clear 1]

/-- The lengths of the names tell them apart. -/
theorem separates_twoKinds :
    Separates (fun s => UInt64.ofNat s.toList.length) (loadedNames (twoKinds.map Label.plain)) := by
  let list : List TestName :=
    [⟨"/a.html", none⟩, ⟨"/a.html", some "x"⟩, ⟨"/a.html", some "yy"⟩, ⟨"/ref.html", none⟩]
  refine @Separates.of_list _ list (by decide) (by decide) (by decide) _ ?_
  rintro n ⟨c, report, order, re, hlabel, hre⟩
  have hrow := Report.mem_rowNames hre
  clear hre
  simp only [twoKinds, List.map_cons, List.map_nil, Label.plain, Except.map, List.mem_cons,
    Label.load.injEq, Except.ok.injEq, reduceCtorEq, List.not_mem_nil, false_or, or_false]
    at hlabel
  rcases hlabel with ⟨_, rfl, _⟩ | ⟨_, rfl, _⟩
  all_goals
    revert n
    decide

/-- What holds after these two ingestions. -/
structure TwoKinds (s : System) (summaries : List SummaryFile) : Prop where
  run : run (System.step (fun s => UInt64.ofNat s.toList.length) ⟨id, (· == ·)⟩) (System.start 2)
    twoKinds = some s
  resident : ∀ run ∈ [chromeRun, firefoxRun], run.id ∈ s.index.runs
  reports : s.reports = [⟨1, ⟨[⟨"/a.html", "OK", [⟨"x", "PASS"⟩, ⟨"yy", "FAIL"⟩]⟩]⟩⟩,
    ⟨2, ⟨[⟨"/ref.html", "PASS", []⟩]⟩⟩].toFinmap
  summaries : List.Forall₂ (fun run file => summaryFile (reportOf s.reports run.id) = .ok file)
    [chromeRun, firefoxRun] summaries

/-- Both ingestions succeed, and both summaries are written. -/
theorem exists_twoKinds : ∃ s summaries, TwoKinds s summaries := by
  obtain ⟨s, hs, hresident, hreports⟩ : ∃ s, run (System.step
      (fun s => UInt64.ofNat s.toList.length) ⟨id, (· == ·)⟩) (System.start 2) twoKinds = some s ∧
        (∀ run ∈ [chromeRun, firefoxRun], run.id ∈ s.index.runs) ∧
        s.reports = [⟨1, ⟨[⟨"/a.html", "OK", [⟨"x", "PASS"⟩, ⟨"yy", "FAIL"⟩]⟩]⟩⟩,
          ⟨2, ⟨[⟨"/ref.html", "PASS", []⟩]⟩⟩].toFinmap := ⟨_, rfl, by decide, by decide⟩
  have hwritten : ∀ run ∈ [chromeRun, firefoxRun],
      ∃ file, summaryFile (reportOf s.reports run.id) = .ok file := by
    rw [hreports]
    intro run hrun
    refine exists_summaryFile ?_
    revert run
    decide
  obtain ⟨file, hfile⟩ := hwritten chromeRun (by simp)
  obtain ⟨file', hfile'⟩ := hwritten firefoxRun (by simp)
  exact ⟨s, [file, file'], hs, hresident, hreports, .cons hfile (.cons hfile' .nil)⟩

theorem nodup_twoKinds (c : Nat) (report : Cache.Report) (order : String → RangeOrder String)
    (h : Label.load c (.ok report) order ∈ twoKinds) :
    (report.results.map TestResults.test).Nodup := by
  simp only [twoKinds, List.mem_cons, Label.load.injEq, Except.ok.injEq, reduceCtorEq,
    List.not_mem_nil, false_or, or_false] at h
  rcases h with ⟨_, rfl, _⟩ | ⟨_, rfl, _⟩
  all_goals decide

theorem TwoKinds.known {s : System} {summaries : List SummaryFile} (h : TwoKinds s summaries) :
    ∀ run ∈ [chromeRun, firefoxRun], StatusesKnown (reportOf s.reports run.id) := by
  rw [h.reports]
  unfold StatusesKnown Known
  decide

/-- The test with subtests. -/
theorem searchesAgree_twoKinds : ∃ s summaries, TwoKinds s summaries ∧
    SearchesAgree ⟨id, (· == ·)⟩ s.index [chromeRun, firefoxRun] summaries "a.html" {}
      (fun _ => 40) (fun _ => sortedOrder id Function.injective_id)
      (sortedOrder id Function.injective_id)
      fun s => ⟨s.toList, s.nodup_toList, s.toList_toFinset⟩ := by
  obtain ⟨s, summaries, h⟩ := exists_twoKinds
  refine ⟨s, summaries, h, (searchesAgree_iff (by decide) h.run nodup_twoKinds separates_twoKinds
    h.resident h.known h.summaries "a.html" rfl _ _ _ _).mpr ⟨by simp, ?_⟩⟩
  rw [h.reports]
  intro id hid res hres
  have hid' : id = 1 ∨ id = 2 := by simpa [chromeRun, firefoxRun] using hid
  rcases hid' with rfl | rfl
  · obtain rfl : res = ⟨"/a.html", "OK", [⟨"x", "PASS"⟩, ⟨"yy", "FAIL"⟩]⟩ :=
      List.mem_singleton.mp hres
    exact ⟨fun _ => ⟨rfl, by decide, rfl, by decide, by decide, by decide⟩,
      fun _ hnot => absurd hnot (by decide)⟩
  · obtain rfl : res = ⟨"/ref.html", "PASS", []⟩ := List.mem_singleton.mp hres
    exact ⟨fun hmatch => absurd hmatch (by decide), fun hmatch => absurd hmatch (by decide)⟩

/-- The test without subtests: the index counts its own row, and shows no status. -/
theorem not_searchesAgree_twoKinds : ∃ s summaries, TwoKinds s summaries ∧
    ¬ SearchesAgree ⟨id, (· == ·)⟩ s.index [chromeRun, firefoxRun] summaries "ref" {}
      (fun _ => 40) (fun _ => sortedOrder id Function.injective_id)
      (sortedOrder id Function.injective_id)
      fun s => ⟨s.toList, s.nodup_toList, s.toList_toFinset⟩ := by
  obtain ⟨s, summaries, h⟩ := exists_twoKinds
  refine ⟨s, summaries, h, fun hagree => ?_⟩
  have halike := (searchesAgree_iff_alike (by decide) h.run nodup_twoKinds separates_twoKinds
    (by simp) h.resident h.known h.summaries rfl _ _ _ _).mp hagree
  rw [h.reports] at halike
  have hmatch := (halike 2 (by decide) ⟨"/ref.html", "PASS", []⟩ (by decide)).1 (by decide)
  exact absurd hmatch.2.harness (by decide)

end WptFyi.Search
