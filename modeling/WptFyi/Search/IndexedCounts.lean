import WptFyi.Cache.PlainSearch
import WptFyi.Search.SummaryFiles

/-!
# What the index counts of a test

The aggregator adds up the rows of a test, its own among them: an `OK` row is noted and the
others are counted, whatever their number in the other runs.

A summary file counts subtests instead. The two counts differ in more than one way: the row of the
test itself is counted unless it is `OK`, a subtest that is `OK` is not, and subtests of one name
are one row. They are equal when the ways in which they differ cancel each other, which
`nodup_of_countRows` excludes for tests with an `OK` row of their own.

- `rows`, `countRows`: the rows of a test in a report;
- `countP_selectedRows`: a run's counts in the answer to a search by test name are those of
  the test's rows in the report of the run;
- `nodup_of_countRows`: when the rows that count are as many as the subtests.
-/

namespace WptFyi.Search

open Lib Shared Query Cache Processor

/-! ## The rows of a test

A test has a row for itself and one for each name of a subtest. The rows that count are as many as
the subtests only if no name is there twice. -/

/-- The row of the test itself, and one for each name of a subtest. -/
def rows (res : TestResults) : Finset (Option String) :=
  insert none (res.subtests.map fun sub => some sub.name).toFinset

/-- How many rows have such a status. -/
def countRows (res : TestResults) (p : ResultID → Bool) : Nat :=
  ((rows res).filter fun sub => (res.find sub).any p = true).card

theorem mem_rows {res : TestResults} {sub : Option String} {re : ResultID}
    (h : res.find sub = some re) : sub ∈ rows res := by
  cases sub with
  | none => exact Finset.mem_insert_self _ _
  | some name =>
    obtain ⟨first, hfirst, -⟩ := Option.map_eq_some_iff.mp h
    have hname : first.name = name := by simpa using List.find?_some hfirst
    refine Finset.mem_insert_of_mem (List.mem_toFinset.mpr (List.mem_map.mpr ⟨first, ?_, ?_⟩))
    · exact List.mem_of_find?_eq_some hfirst
    · rw [hname]

/-- Of subtests with distinct names every one has its own row. -/
theorem find_some_of_nodup {res : TestResults} (h : (res.subtests.map SubTest.name).Nodup)
    {sub : SubTest} (hsub : sub ∈ res.subtests) :
    res.find (some sub.name) = some (TestStatus.testStatusValueFromString sub.status) := by
  have hfind : (res.subtests.find? fun s => s.name = sub.name) = some sub := by
    exact find?_of_nodup_map h hsub
  show (res.subtests.find? fun s => s.name = sub.name).map _ = _
  rw [hfind]
  rfl

/-- Where each subtest has a name of its own, the rows are that of the test and one for each
subtest. -/
theorem countRows_of_nodup {res : TestResults} (h : (res.subtests.map SubTest.name).Nodup)
    (p : ResultID → Bool) :
    countRows res p = (if p (TestStatus.testStatusValueFromString res.status) then 1 else 0) +
      res.subtests.countP fun sub => p (TestStatus.testStatusValueFromString sub.status) := by
  have hnone : none ∉ (res.subtests.map fun sub => some sub.name).toFinset := by simp
  have hsubs : ((res.subtests.map fun sub => some sub.name).toFinset.filter fun sub =>
      (res.find sub).any p = true).card =
        res.subtests.countP fun sub => p (TestStatus.testStatusValueFromString sub.status) := by
    rw [← List.toFinset_filter, List.toFinset_card_of_nodup, List.filter_map, List.length_map,
      List.countP_eq_length_filter]
    · congr 1
      refine List.filter_congr fun sub hsub => ?_
      simp [find_some_of_nodup h hsub]
    · refine List.Nodup.filter _ ?_
      have hmap := h.map (Option.some_injective String)
      rwa [List.map_map] at hmap
  rw [countRows, rows, Finset.filter_insert]
  have hown : (res.find none).any p = p (TestStatus.testStatusValueFromString res.status) := rfl
  rw [hown]
  split_ifs with hp
  · rw [Finset.card_insert_of_notMem fun hmem => hnone (Finset.mem_filter.mp hmem).1, hsubs,
      add_comm]
  · rw [hsubs, zero_add]

/-- Statuses that count towards the total. -/
def counted (re : ResultID) : Bool := re != TestStatus.unknown && !TestStatus.isHarnessStatus re

theorem countRows_add_le (res : TestResults) :
    countRows res counted + countRows res TestStatus.isHarnessStatus ≤ (rows res).card := by
  rw [countRows, countRows, ← Finset.card_union_of_disjoint]
  · exact Finset.card_le_card (Finset.union_subset (Finset.filter_subset _ _)
      (Finset.filter_subset _ _))
  · rw [Finset.disjoint_filter]
    intro sub _ hcounted hharness
    obtain ⟨re, hre, hcounted⟩ := (Option.any_eq_true _ _).mp hcounted
    rw [hre] at hharness
    simp only [Option.any_some] at hharness
    simp [counted, hharness] at hcounted

theorem card_rows_le (res : TestResults) :
    (rows res).card ≤ (res.subtests.map SubTest.name).toFinset.card + 1 := by
  have himage : (res.subtests.map fun sub => some sub.name).toFinset =
      (res.subtests.map SubTest.name).toFinset.image some := by
    ext sub
    simp
  rw [rows, himage]
  exact (Finset.card_insert_le _ _).trans (Nat.add_le_add_right Finset.card_image_le 1)

/-- **With an `OK` row, as many rows count as there are subtests** only where each subtest
has a name of its own. -/
theorem nodup_of_countRows {res : TestResults}
    (hharness : 0 < countRows res.plain TestStatus.isHarnessStatus)
    (htotal : countRows res.plain counted = res.subtests.length) :
    (res.subtests.map SubTest.name).Nodup ∧ (∀ sub ∈ res.subtests, sub.name ≠ "") ∧
      countRows res.plain TestStatus.isHarnessStatus = 1 := by
  have hadd := countRows_add_le res.plain
  have hrows := card_rows_le res.plain
  have hnames := List.toFinset_card_le (res.plain.subtests.map SubTest.name)
  have hfilter : res.plain.subtests.length ≤ res.subtests.length := List.length_filter_le _ _
  rw [List.length_map] at hnames
  have hnamed : ∀ sub ∈ res.subtests, sub.name ≠ "" := by
    have hlen : res.plain.subtests.length = res.subtests.length := by omega
    intro sub hsub
    simpa using List.length_filter_eq_length_iff.mp hlen sub hsub
  have hplain : res.plain.subtests = res.subtests :=
    List.filter_eq_self.mpr fun sub hsub => by simpa using hnamed sub hsub
  refine ⟨?_, hnamed, by omega⟩
  rw [hplain] at hnames hrows
  have hcard : (res.subtests.map SubTest.name).toFinset.card =
      (res.subtests.map SubTest.name).length := by
    rw [List.length_map]
    omega
  exact Multiset.coe_nodup.mp (Multiset.toFinset_card_eq_card_iff_nodup.mp hcard)

/-! ## The rows of a search

What the answer to a search by test name shows of a test, and that the counts of a run there are
those of its own report. -/

section Selected

variable {cases : CaseMapping} {reports : GoMap RunID Cache.Report} {ids : List RunID}
  {pattern : String} {opts : AggregationOpts}

/-- A row that is known in some run is selected by its test's name. -/
theorem mem_selectedRows_testNamePattern (hopts : opts.ignoreTestHarnessResult = false)
    {n : TestName} :
    n ∈ selectedRows cases reports ids (.testNamePattern pattern) opts ↔
      (∃ id ∈ ids, (naiveRow reports ids n).result id ≠ TestStatus.unknown) ∧
        nameMatches cases.toLower pattern n.name = true := by
  rw [mem_selectedRows_iff, selected, leftOut, hopts]
  simp only [Bool.and_eq_true, List.any_eq_true, bne_iff_ne, Bool.false_and, Bool.not_false,
    and_true]
  rfl

/-- **What a run has** of the selected rows of a test. -/
theorem countP_selectedRows (hopts : opts.ignoreTestHarnessResult = false) {id : RunID}
    (hid : id ∈ ids) {test : String} (hmatch : nameMatches cases.toLower pattern test = true)
    {p : ResultID → Bool} (hp : p TestStatus.unknown = false) :
    (((selectedRows cases reports ids (.testNamePattern pattern) opts).filter fun n =>
        n.name = test).val.map (naiveRow reports ids)).countP
          (fun row => p (row.result id) = true) =
      ((reportOf reports id).results.find? fun res => res.test = test).elim 0
        fun res => countRows res p := by
  have hresult : ∀ n, (naiveRow reports ids n).result id =
      ((reportOf reports id).find n).getD TestStatus.unknown := fun n => if_pos hid
  rw [Multiset.countP_map, ← Finset.filter_val, Finset.filter_filter]
  show Finset.card _ = _
  have hrows : ∀ n, n ∈ (selectedRows cases reports ids (.testNamePattern pattern) opts).filter
      (fun n => n.name = test ∧ p ((naiveRow reports ids n).result id) = true) ↔
        n.name = test ∧ ((reportOf reports id).find n).any p = true := by
    intro n
    rw [Finset.mem_filter, mem_selectedRows_testNamePattern hopts, hresult]
    cases hre : (reportOf reports id).find n with
    | none => simp [hp]
    | some re =>
      refine ⟨fun h => h.2, fun h => ⟨⟨⟨id, hid, fun hunknown => ?_⟩, ?_⟩, h⟩⟩
      · rw [hresult, hre] at hunknown
        obtain rfl : re = TestStatus.unknown := hunknown
        exact absurd h.2 (by simp [hp])
      · rw [h.1]
        exact hmatch
  cases hfind : (reportOf reports id).results.find? fun res => res.test = test with
  | none =>
    rw [Option.elim_none, Finset.card_eq_zero, Finset.eq_empty_iff_forall_notMem]
    intro n hn
    obtain ⟨rfl, hany⟩ := (hrows n).mp hn
    rw [Report.find, hfind] at hany
    cases hany
  | some res =>
    -- a row of the test is the name of a subtest, or none
    rw [Option.elim_some, countRows, ← Finset.card_image_of_injective _
      (fun sub sub' h => congrArg TestName.subName h : Function.Injective (TestName.mk test))]
    congr 1
    ext n
    rw [hrows, Finset.mem_image]
    have hfindRow : ∀ sub, (reportOf reports id).find ⟨test, sub⟩ = res.find sub := by
      intro sub
      rw [Report.find, hfind]
      rfl
    constructor
    · rintro ⟨rfl, hany⟩
      obtain ⟨name, sub⟩ := n
      rw [hfindRow] at hany
      obtain ⟨re, hre, -⟩ := (Option.any_eq_true _ _).mp hany
      exact ⟨sub, Finset.mem_filter.mpr ⟨mem_rows hre, hany⟩, rfl⟩
    · rintro ⟨sub, hsub, rfl⟩
      rw [hfindRow]
      exact ⟨rfl, (Finset.mem_filter.mp hsub).2⟩

/-- The counts of a run and its status, as a page shows them. -/
def shown (r : LegacySearchRunResult) : Nat × Nat × String := (r.passes, r.total, r.status)

/-- What the index shows of a test. -/
def indexed (res : TestResults) : Nat × Nat × String :=
  (countRows res TestStatus.isPass, countRows res counted,
    if 0 < countRows res TestStatus.isHarnessStatus then "O" else "")

/-- What the index shows of a test is a function of its report. -/
theorem shown_runResult (hopts : opts.ignoreTestHarnessResult = false) {id : RunID}
    (hid : id ∈ ids) {test : String} (hmatch : nameMatches cases.toLower pattern test = true) :
    shown (runResult (((selectedRows cases reports ids (.testNamePattern pattern) opts).filter
        fun n => n.name = test).val.map (naiveRow reports ids)) id) =
      ((reportOf reports id).results.find? fun res => res.test = test).elim (0, 0, "") indexed := by
  have hcount := fun {p : ResultID → Bool} (hp : p TestStatus.unknown = false) =>
    @countP_selectedRows cases reports ids pattern opts hopts id hid test hmatch p hp
  have htotal : ∀ row : Row, (row.result id ≠ TestStatus.unknown ∧
      TestStatus.isHarnessStatus (row.result id) = false) ↔ counted (row.result id) = true := by
    intro row
    simp [counted]
  unfold shown runResult
  simp only [htotal, hcount (p := TestStatus.isPass) rfl, hcount (p := counted) rfl,
    hcount (p := TestStatus.isHarnessStatus) rfl]
  cases (reportOf reports id).results.find? fun res => res.test = test <;> rfl

end Selected

end WptFyi.Search
