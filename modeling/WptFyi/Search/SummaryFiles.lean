import WptFyi.Cache.Search
import WptFyi.Processor.SummaryCache
import WptFyi.Search.SearchResponse

/-!
# The summary files of reports

The results processor summarizes the report that the index ingests, and writes the summary
to the file that an unstructured search reads.

This joins two parts of the repository that never call each other: the processor is a Python
service, whose output the Go services read from a bucket. Names are stripped of white space on the
way, so a test may have one name in the index and another one in the summary, and a report in which
two tests have the same stripped name has no summary file at all, as `summarize` raises.

- `summaryFile`: the file that is written for a report;
- `SummaryOf`: one entry for each test, under its stripped name, with the counts of its
  subtests and the abbreviation of its status;
- `summaryOf_summaryFile`: the file is that, where it is written.
-/

namespace WptFyi.Search

open Lib Shared Cache Processor

/-- A test of a report, as `wptreport.py` has it. -/
def toTestResult (res : TestResults) : TestResult where
  test := some res.test
  status := some res.status
  subtests := some (res.subtests.map fun sub => ⟨some sub.status⟩)

/-- The file that is written for a report, unless `summarize` raises. -/
def summaryFile (report : Cache.Report) : Except SummarizeError SummaryFile :=
  (summarize { results := report.results.map toTestResult }).2.map fun summary =>
    summary.mapValues fun entry => { status := entry.s, counts := [entry.c.1, entry.c.2] }

/-! ## Names -/

theorem dropWhile_eq_self_of_isPrefix {α : Type} {p : α → Bool} {as bs : List α}
    (h : as <+: bs.dropWhile p) : as.dropWhile p = as := by
  obtain ⟨rest, hrest⟩ := h
  cases as with
  | nil => rfl
  | cons a as =>
    refine List.dropWhile_cons_of_neg ?_
    have hhead : (bs.dropWhile p).head? = some a := by rw [← hrest]; rfl
    have hnot := List.head?_dropWhile_not p bs
    rw [hhead] at hnot
    simpa using hnot

/-- A stripped name has nothing left to strip. -/
theorem strip_strip (s : String) : strip (strip s) = strip s := by
  unfold strip
  rw [String.toList_ofList]
  congr 1
  have hprefix : (List.dropWhile History.isWhitespace
      (List.dropWhile History.isWhitespace s.toList).reverse).reverse <+:
        List.dropWhile History.isWhitespace s.toList := by
    rw [← List.reverse_suffix, List.reverse_reverse]
    exact List.dropWhile_suffix _
  rw [dropWhile_eq_self_of_isPrefix hprefix, List.reverse_reverse, List.dropWhile_idempotent]

/-! ## Statuses -/

/-- The status of a test in a summary. -/
def abbreviation (status : String) : String := (statusAbbreviations.lookup status).getD status

/-- A status string that is known. -/
def Known (status : String) : Prop :=
  TestStatus.testStatusValueFromString status ≠ TestStatus.unknown

/-- A status that is known is one of the table. -/
theorem mem_testStatusValues {status : String} (h : Known status) :
    (status, TestStatus.testStatusValueFromString status) ∈ TestStatus.testStatusValues := by
  unfold Known at h
  unfold TestStatus.testStatusValueFromString at h ⊢
  cases hlookup : TestStatus.testStatusValues.lookup status with
  | none =>
    rw [hlookup] at h
    exact absurd rfl h
  | some value =>
    obtain ⟨before, after, heq, -⟩ := List.lookup_eq_some_iff.mp hlookup
    rw [heq]
    exact List.mem_append_right _ List.mem_cons_self

theorem abbreviation_ne_empty {status : String} (h : Known status) : abbreviation status ≠ "" := by
  have hall : ∀ p ∈ TestStatus.testStatusValues, abbreviation p.1 ≠ "" := by decide
  exact hall _ (mem_testStatusValues h)

theorem abbreviation_eq_iff {status : String} (h : Known status) :
    abbreviation status = "O" ↔ status = "OK" := by
  have hall : ∀ p ∈ TestStatus.testStatusValues, abbreviation p.1 = "O" ↔ p.1 = "OK" := by decide
  exact hall _ (mem_testStatusValues h)

/-- The index has `OK` for that string alone. -/
theorem isHarnessStatus_iff {status : String} :
    TestStatus.isHarnessStatus (TestStatus.testStatusValueFromString status) = true ↔
      status = "OK" := by
  constructor
  · intro h
    have hall : ∀ p ∈ TestStatus.testStatusValues, TestStatus.isHarnessStatus p.2 = true →
        p.1 = "OK" := by decide
    exact hall _ (mem_testStatusValues (TestStatus.ne_unknown_of_isHarnessStatus h)) h
  · rintro rfl
    rfl

theorem isPass_iff {status : String} :
    TestStatus.isPass (TestStatus.testStatusValueFromString status) = true ↔ status = "PASS" := by
  constructor
  · intro h
    have hall : ∀ p ∈ TestStatus.testStatusValues, TestStatus.isPass p.2 = true →
        p.1 = "PASS" := by decide
    refine hall _ (mem_testStatusValues fun hunknown => ?_) h
    rw [hunknown] at h
    exact absurd h (by decide)
  · rintro rfl
    rfl

/-! ## The entries of a file

A summary file has an entry for each test of a report, under the name without blanks around it. -/

/-- The entry of a test. -/
def entryOf (res : TestResults) : SummaryResult where
  status := abbreviation res.status
  counts := [(res.subtests.map fun sub => sub.status == "PASS").count true, res.subtests.length]

/-- One entry for each test of a report, whose stripped names are distinct. -/
structure SummaryOf (report : Cache.Report) (file : SummaryFile) : Prop where
  nodup : (report.results.map fun res => strip res.test).Nodup
  lookup_iff : ∀ name info, file.lookup name = some info ↔
    ∃ res ∈ report.results, strip res.test = name ∧ info = entryOf res

theorem summaryEntry_toTestResult (res : TestResults) :
    summaryEntry (toTestResult res) = some (strip res.test,
      { s := abbreviation res.status
        c := ((res.subtests.map fun sub => sub.status == "PASS").count true,
          res.subtests.length) }) := by
  have hpassed : (res.subtests.map fun sub => (⟨some sub.status⟩ : SubtestResult)).mapM
      subtestPassed = some (res.subtests.map fun sub => sub.status == "PASS") := by
    rw [List.mapM_map]
    exact mapM_eq_some fun sub _ => rfl
  simp [summaryEntry, toTestResult, hpassed, abbreviation]

/-- **What is written** for a report. -/
theorem summaryOf_summaryFile {report : Cache.Report} {file : SummaryFile}
    (h : summaryFile report = .ok file) : SummaryOf report file := by
  have hsummarize := @summarize_of_empty { results := report.results.map toTestResult } rfl
  unfold summaryFile at h
  cases hfold : (report.results.map toTestResult).foldlM summaryStep ∅ with
  | none =>
    rw [hfold] at hsummarize
    obtain ⟨e, he⟩ := hsummarize
    rw [he] at h
    cases h
  | some summary =>
    rw [hfold] at hsummarize
    rw [hsummarize] at h
    cases h
    have hsummary := isSummary_of_foldlM hfold
    refine ⟨?_, fun name info => ?_⟩
    · have hnodup := hsummary.nodup
      rw [testNames, List.filterMap_map] at hnodup
      simpa [Function.comp_def, toTestResult, List.filterMap_eq_map'] using hnodup
    · rw [GoMap.lookup_mapValues, Option.map_eq_some_iff]
      simp only [hsummary.lookup_iff, List.mem_map]
      constructor
      · rintro ⟨entry, ⟨_, ⟨res, hres, rfl⟩, hentry⟩, rfl⟩
        rw [summaryEntry_toTestResult] at hentry
        cases hentry
        exact ⟨res, hres, rfl, rfl⟩
      · rintro ⟨res, hres, rfl, rfl⟩
        exact ⟨_, ⟨_, ⟨res, hres, rfl⟩, summaryEntry_toTestResult res⟩, rfl⟩

/-- A summary is written where the stripped names are distinct. -/
theorem exists_summaryFile {report : Cache.Report}
    (h : (report.results.map fun res => strip res.test).Nodup) :
    ∃ file, summaryFile report = .ok file := by
  have hkeys : ∀ result ∈ report.results.map toTestResult, HasKeys result := by
    intro result hresult
    obtain ⟨res, -, rfl⟩ := List.mem_map.mp hresult
    rw [HasKeys, summaryEntry_toTestResult]
    rfl
  have hnodup : (testNames (report.results.map toTestResult)).Nodup := by
    rw [testNames, List.filterMap_map]
    simpa [Function.comp_def, toTestResult, List.filterMap_eq_map'] using h
  obtain ⟨summary, hfold⟩ := exists_foldlM hkeys hnodup
  have hsummarize := @summarize_of_empty { results := report.results.map toTestResult } rfl
  rw [hfold] at hsummarize
  exact ⟨_, by rw [summaryFile, hsummarize]; rfl⟩

namespace SummaryOf

variable {report : Cache.Report} {file : SummaryFile}

theorem hasCounts (h : SummaryOf report file) : HasCounts file := by
  intro name info hinfo
  obtain ⟨res, -, -, rfl⟩ := (h.lookup_iff name info).mp hinfo
  exact ⟨_, rfl⟩

theorem mem_iff (h : SummaryOf report file) {name : String} :
    name ∈ file ↔ ∃ res ∈ report.results, strip res.test = name := by
  rw [Finmap.mem_iff]
  constructor
  · rintro ⟨info, hinfo⟩
    obtain ⟨res, hres, hname, -⟩ := (h.lookup_iff name info).mp hinfo
    exact ⟨res, hres, hname⟩
  · rintro ⟨res, hres, hname⟩
    exact ⟨_, (h.lookup_iff name _).mpr ⟨res, hres, hname, rfl⟩⟩

/-- What the response says of a test. -/
theorem column_strip (h : SummaryOf report file) {res : TestResults} (hres : res ∈ report.results) :
    column (strip res.test) file =
      { passes := (res.subtests.map fun sub => sub.status == "PASS").count true
        total := res.subtests.length
        status := abbreviation res.status
        newAggProcess := true } := by
  rw [column, (h.lookup_iff _ _).mpr ⟨res, hres, rfl, rfl⟩]
  rfl

theorem column_of_forall_ne (h : SummaryOf report file) {name : String}
    (hname : ∀ res ∈ report.results, strip res.test ≠ name) : column name file = {} := by
  have hnone : file.lookup name = none := by
    rw [Finmap.lookup_eq_none, h.mem_iff]
    rintro ⟨res, hres, heq⟩
    exact hname res hres heq
  rw [column, hnone]
  rfl

/-- Of two tests with one stripped name there is no summary. -/
theorem eq_of_strip_eq (h : SummaryOf report file) {res res' : TestResults}
    (hres : res ∈ report.results) (hres' : res' ∈ report.results)
    (heq : strip res.test = strip res'.test) : res = res' :=
  List.inj_on_of_nodup_map h.nodup hres hres' heq

end SummaryOf

end WptFyi.Search
