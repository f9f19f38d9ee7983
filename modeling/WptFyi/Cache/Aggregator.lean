import WptFyi.Cache.Semantics
import WptFyi.Shared.RunDiff

/-!
# Aggregation of rows into search results (`cache/index/aggregator.go`)

The aggregator of a shard gathers the rows a filter accepts by test, the rows
of a test being those whose `TestID` has the fingerprint of its name. `add` is
one row; it panics (`none`) when it asks a run the index has no results for.

A result is built up row by row, in an order that is that of a map: its counts and its histogram
only ever grow by what a row adds, so the order can only show in the list of subtest names. To say
so, `UnorderedResult` is a result whose names are a multiset, and `summary` gives it for a multiset
of rows at once. The invariant of the fold is `Sums`: the result so far is the summary of the rows
so far. It has to allow slices that are still nil, since the counts, the histogram and the diff are
made when the first row comes.

- `add`, `addRow`: the method, and what it does once the row is known;
- `summary`: what a multiset of rows adds up to;
- `Sums.addRow`: one more row;
- `unordered_foldl_addRow`: folding rows one by one gives their summary, so the
  order of the rows shows in the order of the subtest names and nowhere else.
-/

namespace WptFyi.Cache

open Lib Query Shared

/-- The results of one test so far, with one row's status for a run. -/
def addStatus (result : LegacySearchRunResult) (res : ResultID) : LegacySearchRunResult :=
  if res = TestStatus.unknown then result
  else if TestStatus.isHarnessStatus res then
    -- a harness `OK` is noted, not counted
    { result with newAggProcess := true, status := "O" }
  else if TestStatus.isPass res then
    { result with newAggProcess := true, total := result.total + 1, passes := result.passes + 1 }
  else { result with newAggProcess := true, total := result.total + 1 }

/-- The updates of `indexAggregator.Add` on the result of a test, given the
row's subtest name and its statuses in the runs of the request. -/
def addRow (opts : AggregationOpts) (r : SearchResult) (subName : Option String)
    (statuses : List ResultID) : SearchResult where
  test := r.test
  interop :=
    if opts.interopFormat then
      some ((r.interop.getD (List.replicate (statuses.length + 1) 0)).modify
        (statuses.countP TestStatus.isPassOrOK) (· + 1))
    else r.interop
  legacyStatus :=
    some (List.zipWith addStatus (r.legacyStatus.getD (List.replicate statuses.length {})) statuses)
  subtests := if opts.includeSubtests then r.subtests ++ subName.toList else r.subtests
  diff :=
    match statuses with
    | [before, after] =>
      if opts.includeDiff then some ((r.diff.getD 0).append before after opts.diffFilter)
      else r.diff
    | _ => r.diff

section Fields

variable (opts : AggregationOpts) (r : SearchResult) (subName : Option String)
  (statuses : List ResultID)

@[simp] theorem legacyStatus_addRow : (addRow opts r subName statuses).legacyStatus =
    some (List.zipWith addStatus (r.legacyStatus.getD (List.replicate statuses.length {}))
      statuses) := rfl

@[simp] theorem interop_addRow : (addRow opts r subName statuses).interop =
    if opts.interopFormat then
      some ((r.interop.getD (List.replicate (statuses.length + 1) 0)).modify
        (statuses.countP TestStatus.isPassOrOK) (· + 1))
    else r.interop := rfl

@[simp] theorem subtests_addRow : (addRow opts r subName statuses).subtests =
    if opts.includeSubtests then r.subtests ++ subName.toList else r.subtests := rfl

end Fields

/-- Whether the row is left out for a harness status in some run. -/
def ignored (idx : Index) (runIDs : List RunID) (opts : AggregationOpts) (t : TestID) :
    Option Bool :=
  if opts.ignoreTestHarnessResult then
    orFilter (runIDs.map fun id => resultFilter idx id TestStatus.isHarnessStatus) t
  else some false

/-- `indexAggregator.Add`. A `TestID` without a name is an error there, and
nothing is added. -/
def add (idx : Index) (runIDs : List RunID) (opts : AggregationOpts)
    (agg : GoMap UInt64 SearchResult) (t : TestID) : Option (GoMap UInt64 SearchResult) :=
  match idx.tests.lookup t with
  | none => some agg
  | some n => do
    let r := (agg.lookup t.testID).getD { test := n.name }
    if ← ignored idx runIDs opts t then return agg
    else
      let statuses ← runIDs.mapM fun id => (idx.runResults.lookup id).map (·.getResult t)
      return agg.insert t.testID (addRow opts r n.subName statuses)

/-! ## What rows add up to

What a shard gives for a test is a sum over the rows of the test, taken as a multiset. Only the
list of subtest names keeps the order in which the rows came. -/

/-- A search result whose subtest names are in no order. -/
structure UnorderedResult where
  test : String
  legacyStatus : Option (List LegacySearchRunResult)
  interop : Option (List Nat)
  subtests : Multiset String
  diff : Option TestDiff
deriving DecidableEq

/-- Forget the order of the subtest names. -/
def unordered (r : SearchResult) : UnorderedResult where
  test := r.test
  legacyStatus := r.legacyStatus
  interop := r.interop
  subtests := r.subtests
  diff := r.diff

/-- The counts of one run over the rows of a test. -/
def runResult (rows : Multiset Row) (id : RunID) : LegacySearchRunResult where
  passes := rows.countP fun row => TestStatus.isPass (row.result id) = true
  total := rows.countP fun row => row.result id ≠ TestStatus.unknown ∧
    TestStatus.isHarnessStatus (row.result id) = false
  status := if 0 < rows.countP (fun row => TestStatus.isHarnessStatus (row.result id) = true)
    then "O" else ""
  newAggProcess := decide (0 < rows.countP fun row => row.result id ≠ TestStatus.unknown)

/-- How many rows pass in how many of the runs. -/
def interopHistogram (ids : List RunID) (rows : Multiset Row) : List Nat :=
  (List.range (ids.length + 1)).map fun k =>
    rows.countP fun row => ids.countP (fun id => TestStatus.isPassOrOK (row.result id)) = k

/-- The names of the subtests among the rows. -/
def subtestNames (rows : Multiset Row) : Multiset String :=
  rows.filterMap fun row => row.name.bind TestName.subName

/-- The difference between two runs over the rows. -/
def diffOf (before after : RunID) (filter : DiffFilterParam) (rows : Multiset Row) : TestDiff :=
  (rows.map fun row => TestDiff.delta (row.result before) (row.result after) filter).sum

/-- A difference is asked for, and there are two runs to compare. -/
def diffSummary (opts : AggregationOpts) (ids : List RunID) (rows : Multiset Row) :
    Option TestDiff :=
  match ids with
  | [before, after] =>
    if opts.includeDiff then some (diffOf before after opts.diffFilter rows) else none
  | _ => none

/-- **What the rows of a test add up to.** -/
def summary (opts : AggregationOpts) (ids : List RunID) (test : String) (rows : Multiset Row) :
    UnorderedResult where
  test := test
  legacyStatus := some (ids.map (runResult rows))
  interop := if opts.interopFormat then some (interopHistogram ids rows) else none
  subtests := if opts.includeSubtests then subtestNames rows else 0
  diff := diffSummary opts ids rows

/-- A result that stands for some rows; its slices may still be nil when there
are none. -/
structure Sums (opts : AggregationOpts) (ids : List RunID) (test : String) (rows : Multiset Row)
    (r : SearchResult) : Prop where
  test_eq : r.test = test
  legacyStatus : r.legacyStatus.getD (List.replicate ids.length {}) = ids.map (runResult rows)
  interop : opts.interopFormat = true →
    r.interop.getD (List.replicate (ids.length + 1) 0) = interopHistogram ids rows
  interop_none : opts.interopFormat = false → r.interop = none
  subtests : (r.subtests : Multiset String) = (summary opts ids test rows).subtests
  diff : r.diff.getD 0 = (diffSummary opts ids rows).getD 0
  diff_none : diffSummary opts ids rows = none → r.diff = none

/-- One more row adds its status to the result of a run. -/
theorem runResult_cons (row : Row) (rows : Multiset Row) (id : RunID) :
    runResult (row ::ₘ rows) id = addStatus (runResult rows id) (row.result id) := by
  unfold runResult addStatus
  by_cases hunknown : row.result id = TestStatus.unknown
  · have hpass : TestStatus.isPass TestStatus.unknown = false := rfl
    have hharness : TestStatus.isHarnessStatus TestStatus.unknown = false := rfl
    simp [hunknown, hpass, hharness]
  by_cases hharness : TestStatus.isHarnessStatus (row.result id) = true
  · -- a harness `OK` is no pass
    have hpass : TestStatus.isPass (row.result id) = false := by
      rw [show row.result id = TestStatus.ok by simpa [TestStatus.isHarnessStatus] using hharness]
      rfl
    simp [hunknown, hharness, hpass]
  · rw [Bool.not_eq_true] at hharness
    by_cases hpass : TestStatus.isPass (row.result id) = true
    · simp [hunknown, hharness, hpass]
    · simp [hunknown, hharness, hpass]

theorem subtestNames_cons (row : Row) (rows : Multiset Row) :
    subtestNames (row ::ₘ rows) =
      ((row.name.bind TestName.subName).toList : Multiset String) + subtestNames rows := by
  unfold subtestNames
  cases hsub : row.name.bind TestName.subName with
  | none =>
    rw [Multiset.filterMap_cons_none row rows hsub]
    exact (zero_add _).symm
  | some sub => rw [Multiset.filterMap_cons_some _ row rows hsub]; rfl

theorem map_range_modify (n k : Nat) (f : Nat → Nat) :
    ((List.range n).map f).modify k (· + 1) =
      (List.range n).map fun j => f j + if j = k then 1 else 0 := by
  refine List.ext_getElem (by simp) fun j hj _ => ?_
  rw [List.getElem_modify, List.getElem_map, List.getElem_map, List.getElem_range]
  by_cases h : k = j
  · rw [if_pos h, if_pos h.symm]
  · rw [if_neg h, if_neg (Ne.symm h), Nat.add_zero]

theorem interopHistogram_cons (ids : List RunID) (row : Row) (rows : Multiset Row) :
    interopHistogram ids (row ::ₘ rows) = (interopHistogram ids rows).modify
      (ids.countP fun id => TestStatus.isPassOrOK (row.result id)) (· + 1) := by
  rw [interopHistogram, interopHistogram, map_range_modify]
  refine List.map_congr_left fun k _ => ?_
  rw [Multiset.countP_cons]
  congr 1
  simp only [eq_comm]

namespace Sums

variable {opts : AggregationOpts} {ids : List RunID} {test : String} {rows : Multiset Row}
  {r : SearchResult}

/-- Before the first row. -/
theorem start (opts : AggregationOpts) (ids : List RunID) (test : String) :
    Sums opts ids test 0 { test } where
  test_eq := rfl
  legacyStatus := by
    have hzero : runResult 0 = fun _ => {} := by
      funext id
      simp [runResult]
    rw [hzero, List.map_const']
    rfl
  interop _ := by
    have hzero : interopHistogram ids 0 = List.replicate (ids.length + 1) 0 := by
      simp [interopHistogram, List.map_const']
    rw [hzero]
    rfl
  interop_none _ := rfl
  subtests := by
    simp [summary, subtestNames]
  diff := by
    unfold diffSummary
    split
    · split_ifs <;> simp [diffOf]
    · rfl
  diff_none _ := rfl

/-- After some rows. -/
theorem of_eq (h : unordered r = summary opts ids test rows) : Sums opts ids test rows r where
  test_eq := congrArg UnorderedResult.test h
  legacyStatus := by
    rw [show r.legacyStatus = some (ids.map (runResult rows)) from
      congrArg UnorderedResult.legacyStatus h, Option.getD_some]
  interop hopt := by
    rw [show r.interop = (summary opts ids test rows).interop from
      congrArg UnorderedResult.interop h, summary, if_pos hopt, Option.getD_some]
  interop_none hopt := by
    rw [show r.interop = (summary opts ids test rows).interop from
      congrArg UnorderedResult.interop h, summary, hopt]
    rfl
  subtests := congrArg UnorderedResult.subtests h
  diff := by
    rw [show r.diff = diffSummary opts ids rows from congrArg UnorderedResult.diff h]
  diff_none hnone := (congrArg UnorderedResult.diff h).trans hnone

/-- The diff after one more row: the loop over the rows computes what `diffSummary` says of them,
because the first two statuses of the row are those of the two runs that are compared. -/
theorem diff_addRow (h : Sums opts ids test rows r) (row : Row) (subName : Option String) :
    (Cache.addRow opts r subName (ids.map row.result)).diff =
      diffSummary opts ids (row ::ₘ rows) := by
  have hdiff := h.diff
  have hnone := h.diff_none
  unfold diffSummary at hdiff hnone ⊢
  unfold Cache.addRow
  -- only a request for two runs has a difference
  match ids with
  | [] => exact hnone rfl
  | [_] => exact hnone rfl
  | [before, after] =>
    by_cases hopt : opts.includeDiff = true
    · simp only [hopt, if_true, Option.getD_some, List.map_cons, List.map_nil] at hdiff ⊢
      rw [hdiff, TestDiff.append_eq_add, diffOf, diffOf, Multiset.map_cons, Multiset.sum_cons,
        add_comm]
    · simp only [if_neg hopt, List.map_cons, List.map_nil] at hnone ⊢
      exact hnone trivial
  | _ :: _ :: _ :: _ => exact hnone rfl

/-- **One more row** is added to everything the result stands for. -/
theorem addRow (h : Sums opts ids test rows r) (row : Row) :
    unordered (addRow opts r (row.name.bind TestName.subName) (ids.map row.result)) =
      summary opts ids test (row ::ₘ rows) := by
  -- the results of the row are added run by run
  have hlegacyStatus : List.zipWith addStatus (ids.map (runResult rows)) (ids.map row.result) =
      ids.map (runResult (row ::ₘ rows)) := by
    rw [List.zipWith_map, List.zipWith_self]
    exact List.map_congr_left fun id _ => (runResult_cons row rows id).symm
  have hinterop : (Cache.addRow opts r (row.name.bind TestName.subName)
      (ids.map row.result)).interop = (summary opts ids test (row ::ₘ rows)).interop := by
    rw [interop_addRow, summary]
    cases hopt : opts.interopFormat with
    | false => exact h.interop_none hopt
    | true =>
      simp only [if_true]
      rw [List.length_map, h.interop hopt, interopHistogram_cons, List.countP_map]
      rfl
  -- names are appended, so the list is right up to its order
  have hsubtests : ((Cache.addRow opts r (row.name.bind TestName.subName)
      (ids.map row.result)).subtests : Multiset String) =
        (summary opts ids test (row ::ₘ rows)).subtests := by
    have hbefore := h.subtests
    simp only [summary, subtests_addRow] at hbefore ⊢
    cases hopt : opts.includeSubtests with
    | false =>
      rw [hopt] at hbefore
      exact hbefore
    | true =>
      simp only [hopt, if_true] at hbefore ⊢
      rw [← Multiset.coe_add, hbefore, subtestNames_cons, add_comm]
  have hstatus : (Cache.addRow opts r (row.name.bind TestName.subName)
      (ids.map row.result)).legacyStatus = some (ids.map (runResult (row ::ₘ rows))) := by
    rw [legacyStatus_addRow, List.length_map, h.legacyStatus, hlegacyStatus]
  unfold unordered
  rw [hstatus, hinterop, hsubtests, h.diff_addRow row]
  rw [show (Cache.addRow opts r _ _).test = test from h.test_eq]
  rfl

end Sums

/-- **All rows of a test**, in whatever order, starting from its name. -/
theorem unordered_foldl_addRow (opts : AggregationOpts) (ids : List RunID) (test : String)
    (row : Row) (rows : List Row) :
    unordered ((row :: rows).foldl
      (fun r row => addRow opts r (row.name.bind TestName.subName) (ids.map row.result))
        { test }) = summary opts ids test (row :: rows : List Row) := by
  induction rows using List.reverseRecOn with
  | nil => exact (Sums.start opts ids test).addRow row
  | append_singleton rows last ih =>
    rw [← List.cons_append, List.foldl_append]
    have hperm : ((row :: rows ++ [last] : List Row) : Multiset Row) =
        last ::ₘ ((row :: rows : List Row) : Multiset Row) := by
      rw [← Multiset.coe_add, add_comm]
      rfl
    rw [hperm]
    exact (Sums.of_eq ih).addRow last

end WptFyi.Cache
