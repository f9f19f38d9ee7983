import WptFyi.Cache.Aggregator
import WptFyi.Cache.Reports

/-!
# A search without an index

What a search over some runs should answer, straight from their reports: take
every row of the reports, keep those that are selected, and sum up the rows of
each test. There are no shards, no identifiers and no other runs here.

This is the abstract side of the refinement in `Search`. It is still executable, so that it can be
evaluated on the reports of a test. The answer is a multiset of summaries, as the order of results
and of the subtest names in them is up to the maps of the index. A row is selected when some run
knows it, the query holds of it, and it has no harness status in any run if the request leaves these
out; so a test whose rows are all left out has no result at all, rather than an empty one.

- `naiveRow`: a row over the runs of a request, from their reports;
- `selected`: which rows count;
- `naiveSearch`: one summary for each test that has such a row.
-/

namespace WptFyi.Cache

open Lib Query Shared

/-- The rows of a report. -/
def Report.rowNames (r : Report) : Finset TestName :=
  (r.results.flatMap fun res =>
    ⟨res.test, none⟩ :: res.subtests.map fun sub => ⟨res.test, some sub.name⟩).toFinset

/-- A name with a result is among the names of the report. -/
theorem Report.mem_rowNames {r : Report} {n : TestName} {re : ResultID} (h : r.find n = some re) :
    n ∈ r.rowNames := by
  obtain ⟨res, hres, hre⟩ := Option.bind_eq_some_iff.mp h
  have hname : res.test = n.name := by simpa using List.find?_some hres
  rw [Report.rowNames, List.mem_toFinset, List.mem_flatMap]
  refine ⟨res, List.mem_of_find?_eq_some hres, ?_⟩
  obtain ⟨name, subName⟩ := n
  simp only at hname hre
  subst hname
  cases subName with
  | none => exact List.mem_cons_self
  | some subtest =>
    obtain ⟨sub, hsub, _⟩ := Option.map_eq_some_iff.mp hre
    have hsubname : sub.name = subtest := by simpa using List.find?_some hsub
    refine List.mem_cons_of_mem _ (List.mem_map.mpr ⟨sub, List.mem_of_find?_eq_some hsub, ?_⟩)
    rw [hsubname]

section Naive

variable (cases : CaseMapping) (reports : GoMap RunID Report) (ids : List RunID)
  (q : ConcreteQuery) (opts : AggregationOpts)

/-- The report of a run, empty when there is none. -/
def reportOf (id : RunID) : Report := (reports.lookup id).getD ⟨[]⟩

/-- A row over the runs of a request: unknown where a report does not have it. -/
def naiveRow (n : TestName) : Row where
  name := some n
  result id := if id ∈ ids then ((reportOf reports id).find n).getD TestStatus.unknown
    else TestStatus.unknown
  runs := ids.toFinset

/-- Rows with a harness status are left out if the request says so. -/
def leftOut (row : Row) : Bool :=
  opts.ignoreTestHarnessResult && ids.any fun id => TestStatus.isHarnessStatus (row.result id)

/-- Known in some run, not left out, and the query holds. -/
def selected (row : Row) : Bool :=
  (ids.any fun id => row.result id != TestStatus.unknown) && holds cases row q &&
    !leftOut ids opts row

/-- The rows a search selects. -/
def selectedRows : Finset TestName :=
  (ids.toFinset.biUnion fun id => (reportOf reports id).rowNames).filter fun n =>
    selected cases ids q opts (naiveRow reports ids n) = true

/-- **The answer**: one summary for each test with a selected row. -/
def naiveSearch : Multiset UnorderedResult :=
  ((selectedRows cases reports ids q opts).image TestName.name).val.map fun test =>
    summary opts ids test
      (((selectedRows cases reports ids q opts).filter fun n => n.name = test).val.map
        (naiveRow reports ids))

variable {cases reports ids q opts}

/-- A row that is selected is in a report of the request. -/
theorem mem_selectedRows_iff {n : TestName} :
    n ∈ selectedRows cases reports ids q opts ↔
      selected cases ids q opts (naiveRow reports ids n) = true := by
  rw [selectedRows, Finset.mem_filter, and_iff_right_iff_imp]
  intro hsel
  simp only [selected, Bool.and_eq_true, List.any_eq_true, bne_iff_ne] at hsel
  obtain ⟨⟨⟨id, hid, hknown⟩, _⟩, _⟩ := hsel
  have hfind : ((reportOf reports id).find n).getD TestStatus.unknown ≠ TestStatus.unknown := by
    simpa only [naiveRow, if_pos hid] using hknown
  refine Finset.mem_biUnion.mpr ⟨id, List.mem_toFinset.mpr hid, ?_⟩
  cases hre : (reportOf reports id).find n with
  | none => exact absurd (by rw [hre]; rfl) hfind
  | some re => exact Report.mem_rowNames hre

/-- The answer is about the reports of the requested runs and of no others. -/
theorem naiveSearch_congr {reports' : GoMap RunID Report}
    (h : ∀ id ∈ ids, reports.lookup id = reports'.lookup id) :
    naiveSearch cases reports ids q opts = naiveSearch cases reports' ids q opts := by
  have hrow : naiveRow reports ids = naiveRow reports' ids := by
    funext n
    unfold naiveRow reportOf
    congr 1
    funext id
    split_ifs with hid
    · rw [h id hid]
    · rfl
  have hrows : selectedRows cases reports ids q opts = selectedRows cases reports' ids q opts := by
    ext n
    rw [mem_selectedRows_iff, mem_selectedRows_iff, hrow]
  rw [naiveSearch, naiveSearch, hrows, hrow]

end Naive

end WptFyi.Cache
