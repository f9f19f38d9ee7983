import WptFyi.Lib.Fallible
import WptFyi.Lib.GoStrings
import WptFyi.Lib.JsObject
import WptFyi.Shared.RunDiff

/-!
# The rows of the results page (`webapp/views/wpt-results.js`)

The page of a path has one row for each file and directory right below it. The rows are
gathered in an object under their names, and so are the totals, under the name `totals`.
Fractions of passing tests are in a type `ν` of numbers of which nothing is assumed.

One turn of the loop finds or makes the row of a test, adds the test to the cells of the row and to
the totals, and may add the counts of the test that it was renamed from. `Summarizes` says what the
object has after some turns: for each child of the path the row of its tests, in the order in which
they came, with nothing counted twice, and the totals of all. It holds as long as no turn fails; a
turn fails when a name of a child has taken the place of something that the script needs.

What a test adds to a cell is one value, `tallyOf`, and a row is the sum of these. Sums are folds
from the left, in the order of the tests, because adding fractions is not associative.

- `refreshDisplayedNodes`: the rows and totals of a path;
- `Summarizes`, `refreshDisplayedNodes_spec`: what they hold, test by test.
-/

namespace WptFyi.Webapp.ResultsPage

open Lib Lib.GoStrings Shared

/-! ## Results -/

/-- A script calls or indexes what is not there. -/
inductive TypeError
  | typeError
deriving DecidableEq

/-- `PASSING_STATUSES`. -/
def passingStatuses : List String := ["O", "P"]

/-- `isTestMissing`. -/
def isTestMissing (total : Nat) (status : String) : Bool := status = "" && total = 0

/-- `isViewTestPass`; the server writes a status with every result. -/
def isViewTestPass (total passes : Nat) (status : String) : Bool :=
  passes = total && !isTestMissing total status && (status = "" || status ∈ passingStatuses)

/-- `aggregateTotalsBySubtest`: passes and total. -/
def aggregateTotalsBySubtest (rs : LegacySearchRunResult) (diffRun : Bool) : Nat × Nat :=
  if rs.status = "" then (rs.passes, rs.total)
  else if diffRun then (if rs.status = "O" then rs.passes + 1 else rs.passes, rs.total + 1)
  else if rs.total = 0 then (if rs.status = "P" then rs.passes + 1 else rs.passes, rs.total + 1)
  else (rs.passes, rs.total)

/-- The counts of a cell that are whole numbers. -/
structure Tally where
  total : Nat := 0
  subtestPasses : Nat := 0
  subtestTotal : Nat := 0
  testViewPasses : Nat := 0
  testViewTotal : Nat := 0
deriving DecidableEq

namespace Tally

instance : Zero Tally := ⟨{}⟩

instance : Add Tally where
  add s t := ⟨s.total + t.total, s.subtestPasses + t.subtestPasses,
    s.subtestTotal + t.subtestTotal, s.testViewPasses + t.testViewPasses,
    s.testViewTotal + t.testViewTotal⟩

theorem add_def (s t : Tally) : s + t = ⟨s.total + t.total, s.subtestPasses + t.subtestPasses,
    s.subtestTotal + t.subtestTotal, s.testViewPasses + t.testViewPasses,
    s.testViewTotal + t.testViewTotal⟩ := rfl

theorem zero_def : (0 : Tally) = {} := rfl

instance : AddCommMonoid Tally where
  add_assoc s t u := by simp only [add_def, Nat.add_assoc]
  zero_add t := by simp only [add_def, zero_def, Nat.zero_add]
  add_zero t := by simp only [add_def, zero_def, Nat.add_zero]
  add_comm s t := by simp only [add_def, Nat.add_comm]
  nsmul := nsmulRec

end Tally

/-- A result of `diffURL`: the diffs of the tests and the renames, old names first. -/
structure DiffResults where
  diff : String → Option TestDiff
  renames : List (String × String)

/-- What the component knows when it refreshes its rows. -/
structure ResultsView where
  path : String
  /-- How many runs there are. -/
  testRuns : Nat
  searchResults : List SearchResult
  diff : Bool := false
  diffRun : Bool := false
  diffResults : Option DiffResults := none
  diffFilter : DiffFilterParam := ⟨true, true, true, false⟩
  onlyShowDifferences : Bool := false

namespace ResultsView

variable (v : ResultsView)

/-- The path with a slash behind it. -/
def pathPrefix : String := if v.path = "/" then "/" else v.path ++ "/"

/-- The renames, if any are known. -/
def renames : List (String × String) := (v.diffResults.map DiffResults.renames).getD []

/-- The test is the old name of another. -/
def renamedAway (test : String) : Bool := (v.renames.map Prod.fst).contains test

/-- The name of the child a test is in, and whether the child is a directory. -/
def child (testPath : String) : String × Bool :=
  let suffix := testPath.toList.drop v.pathPrefix.toList.length
  let isDir := (suffix.takeWhile (· ≠ '?')).contains '/'
  (String.ofList (if isDir then suffix.takeWhile (· ≠ '/') else suffix), isDir)

end ResultsView

/-- The results of a test, one for each run. An empty list is left out of a response, as nil is. -/
def legacyStatuses (r : SearchResult) : List LegacySearchRunResult := r.legacyStatus.getD []

/-- The counts of a test with its status counted, as `computeDifferences` takes them. -/
def countStatus (rs : LegacySearchRunResult) : Int × Int :=
  if rs.status = "" then (rs.passes, rs.total)
  else (if rs.status ∈ passingStatuses then rs.passes + 1 else rs.passes, rs.total + 1)

/-- `computeDifferences`. -/
def computeDifferences (filter : DiffFilterParam) (before after : LegacySearchRunResult) :
    Option TestDiff :=
  let (beforePasses, beforeTotal) := countStatus before
  let (afterPasses, afterTotal) := countStatus after
  let deleted := decide (0 < beforeTotal ∧ afterTotal = 0)
  let added := decide (0 < afterTotal ∧ beforeTotal = 0)
  if deleted && !filter.deleted || added && !filter.added then none
  else
    let failingBefore := beforeTotal - beforePasses
    let failingAfter := afterTotal - afterPasses
    let diff : TestDiff := ⟨max (afterPasses - beforePasses) 0,
      max (failingAfter - failingBefore) 0, afterTotal - beforeTotal⟩
    let hasChanges := decide (diff ≠ 0)
    if filter.added && added || filter.deleted && deleted || filter.changed && hasChanges ||
        filter.unchanged && !hasChanges then some diff
    else none

/-! ## The rows -/

section Rows

variable (ν : Type*) [Zero ν] [One ν] [Add ν] [Div ν] [NatCast ν]

/-- `aggregateTotalsByTest`: the passing fraction of the test, and whether it counts. -/
def aggregateTotalsByTest (rs : LegacySearchRunResult) : ν × Nat :=
  if !rs.newAggProcess then
    -- an old summary has no status to count
    if rs.total = 0 then (0, 0) else ((rs.passes : ν) / (rs.total : ν), 1)
  else if rs.status ∈ passingStatuses ∧ rs.total = 0 then (1, 1)
  else if 0 < rs.total then ((rs.passes : ν) / (rs.total : ν), 1)
  else (0, 1)

/-- What a test adds to the counts of a run. -/
def tallyOf (diffRun : Bool) (rs : LegacySearchRunResult) : Tally :=
  let (passes, total) := aggregateTotalsBySubtest rs diffRun
  { total := (aggregateTotalsByTest ν rs).2
    subtestPasses := passes
    subtestTotal := total
    testViewPasses := if isViewTestPass total passes rs.status then 1 else 0
    testViewTotal := 1 }

variable {ν}

/-- The counts of a run: the passing tests, with fractions, and the others. -/
structure Counts (ν : Type*) where
  passes : ν
  tally : Tally

/-- No counts. -/
def Counts.none : Counts ν := ⟨0, 0⟩

/-- The counts with those of another test. -/
def Counts.add (diffRun : Bool) (c : Counts ν) (rs : LegacySearchRunResult) : Counts ν :=
  ⟨c.passes + (aggregateTotalsByTest ν rs).1, c.tally + tallyOf ν diffRun rs⟩

/-- A cell of a row, `results[i]`. -/
structure Cell (ν : Type*) extends Counts ν where
  /-- Whether the counts of subtests are there. -/
  started : Bool := false
  status : Option String := .none
  singleSubtest : Bool := false

/-- A row of the page. -/
structure Row (ν : Type*) where
  path : String
  isDir : Bool
  results : List (Cell ν)
  diff : Option TestDiff := .none

/-- The object that gathers the rows. Its property `totals` is the list of totals, unless a row
took the name first; `__proto__` is no property of its own. -/
structure Nodes (ν : Type*) where
  rows : JsObject (Row ν)
  totals : Option (List (Counts ν))
  proto : Option (Row ν)

namespace Nodes

variable (nodes : Nodes ν) (name : String)

/-- `{}`. -/
def empty : Nodes ν := ⟨.empty, .none, .none⟩

/-- `nodes.hasOwnProperty(name)`; the name `hasOwnProperty` hides the method. -/
def hasOwnProperty : Except TypeError Bool :=
  if "hasOwnProperty" ∈ nodes.rows.keys then .error .typeError
  else .ok (name ∈ nodes.rows.keys || name = "totals" && nodes.totals.isSome)

/-- `nodes[name] = row`. -/
def setRow (row : Row ν) : Nodes ν :=
  if name = "__proto__" then { nodes with proto := some row }
  else { nodes with rows := nodes.rows.set name row }

/-- `nodes[name]`, as a row; the list of totals is none. -/
def row : Except TypeError (Row ν) :=
  ((if name = "__proto__" then nodes.proto else nodes.rows.get? name).map .ok).getD
    (.error .typeError)

/-- `nodes.totals`, made when there is no such property; a row has no totals in it. -/
def totalsFor (testRuns : Nat) : Except TypeError (List (Counts ν)) :=
  if "totals" ∈ nodes.rows.keys then .error .typeError
  else .ok (nodes.totals.getD (List.replicate testRuns Counts.none))

/-- The totals after a test was added to them. -/
def setTotals (totals : List (Counts ν)) : Nodes ν := { nodes with totals := some totals }

end Nodes

/-- The row of a child that no test was in before. -/
def newRow (v : ResultsView) (testPath : String) : Row ν where
  path := v.pathPrefix ++ (v.child testPath).1
  isDir := (v.child testPath).2
  results := List.replicate v.testRuns { Counts.none with }

/-- `collapsePathOnto`: the row that the test is in is there afterwards. -/
def collapsePathOnto (v : ResultsView) (testPath : String) (nodes : Nodes ν) :
    Except TypeError (Nodes ν) :=
  (nodes.hasOwnProperty (v.child testPath).1).bind fun isThere =>
    if isThere then .ok nodes
    else .ok (nodes.setRow (v.child testPath).1 (newRow v testPath))

/-- `aggregateTestTotals`: the cells of the row and the totals, run by run. -/
def aggregateTestTotals (diffRun : Bool) : List LegacySearchRunResult → List (Cell ν) →
    List (Counts ν) → Except TypeError (List (Cell ν) × List (Counts ν))
  | [], cells, totals => .ok (cells, totals)
  | rs :: rest, cell :: cells, count :: totals =>
    (aggregateTestTotals diffRun rest cells totals).bind fun (cells, totals) =>
      let isMissing := isTestMissing rs.total rs.status
      .ok ({ cell.toCounts.add diffRun rs with
          started := true
          status := some rs.status
          singleSubtest := rs.total = 0 && rs.status ≠ "" && rs.status ≠ "O" || isMissing } ::
            cells,
        count.add diffRun rs :: totals)
  | _ :: _, _, _ => .error .typeError

/-- The result under the old name of a renamed test. -/
def previousResult (v : ResultsView) (test : String) : Option SearchResult :=
  match v.renames.find? fun e => e.2 = test with
  | some (previousTestPath, _) =>
    if previousTestPath = "" then none
    else v.searchResults.find? fun r => r.test = previousTestPath
  | none => none

/-- The counts of subtests of the old test, added to those of the first run. -/
def addPrevious (v : ResultsView) (test : String) (cells : List (Cell ν)) :
    Except TypeError (List (Cell ν)) :=
  match previousResult v test with
  | none => .ok cells
  | some previous =>
    match legacyStatuses previous, cells with
    | rs :: _, cell :: cells =>
      .ok ({ cell with tally := cell.tally +
        { subtestPasses := rs.passes, subtestTotal := rs.total } } :: cells)
    | _, _ => .error .typeError

/-- The diff of a test, when the page shows one. -/
def testDiff (v : ResultsView) (r : SearchResult) : Option TestDiff :=
  match v.diff, legacyStatuses r with
  | true, [before, after] =>
    match v.diffResults with
    | some diffResults => diffResults.diff r.test
    | none => r.diff.orElse fun _ => computeDifferences v.diffFilter before after
  | _, _ => none

/-- A turn of the `reduce` over the search results. -/
def addResult (v : ResultsView) (nodes : Nodes ν) (r : SearchResult) :
    Except TypeError (Nodes ν) :=
  if v.renamedAway r.test then .ok nodes
  else
    (collapsePathOnto v r.test nodes).bind fun nodes =>
      let name := (v.child r.test).1
      if legacyStatuses r = [] then .ok nodes
      else
        (nodes.totalsFor v.testRuns).bind fun totals =>
        (nodes.row name).bind fun row =>
        (aggregateTestTotals v.diffRun (legacyStatuses r) row.results totals).bind
          fun (cells, totals) =>
        (addPrevious v r.test cells).bind fun cells =>
          let diff := (testDiff v r).elim row.diff fun d => some (row.diff.getD 0 + d)
          .ok ((nodes.setRow name { row with results := cells, diff }).setTotals totals)

/-- What the page shows; totals that are no list are not shown. -/
structure Displayed (ν : Type*) where
  displayedNodes : List (Row ν)
  displayedTotals : Option (List (Counts ν))

/-- `refreshDisplayedNodes`. -/
def refreshDisplayedNodes (v : ResultsView) (shown : Displayed ν) :
    Except TypeError (Displayed ν) :=
  if v.searchResults = [] then .ok { shown with displayedNodes := [] }
  else
    (foldTry (addResult v) .empty
        (v.searchResults.filter fun r => hasPrefix r.test v.pathPrefix)).bind fun resultsByPath =>
      .ok
        { displayedTotals := resultsByPath.totals
          displayedNodes := (resultsByPath.rows.erase "totals").values.filter fun row =>
            !v.onlyShowDifferences || row.diff.isSome }

end Rows

/-! ## What the counts are of

The tests that are at or below a child, and what each of them adds for one run. A column of counts
is the sum of these, from the left. -/

section Specification

variable (v : ResultsView)

/-- Tests, but for the old names of renamed ones. -/
def counted (tests : List SearchResult) : List SearchResult :=
  tests.filter fun r => !v.renamedAway r.test

/-- The tests that are in a child of the path. -/
def members (name : String) (tests : List SearchResult) : List SearchResult :=
  (counted v tests).filter fun r => (v.child r.test).1 = name

/-- The tests of the page. -/
def ResultsView.tests : List SearchResult :=
  counted v (v.searchResults.filter fun r => hasPrefix r.test v.pathPrefix)

/-- The results of a run. -/
def column (i : Nat) (tests : List SearchResult) : List LegacySearchRunResult :=
  tests.filterMap fun r => (legacyStatuses r)[i]?

/-- What the old name of a test adds. -/
def previousTally (r : SearchResult) : Tally :=
  match (previousResult v r.test).map legacyStatuses with
  | some (rs :: _) => { subtestPasses := rs.passes, subtestTotal := rs.total }
  | _ => 0

/-- What the old names add to the counts of a run. -/
def previousTallies (i : Nat) (tests : List SearchResult) : Tally :=
  if i = 0 then ((tests.filter fun r => legacyStatuses r ≠ []).map (previousTally v)).sum else 0

/-- The diff of a list of tests. -/
def diffOf (tests : List SearchResult) : Option TestDiff :=
  if tests.filterMap (testDiff v) = [] then none else some (tests.filterMap (testDiff v)).sum

variable (ν : Type*) [Zero ν] [One ν] [Add ν] [Div ν] [NatCast ν]

/-- The counts of a run over tests. -/
def countsOf (i : Nat) (tests : List SearchResult) : Counts ν :=
  (column i tests).foldl (Counts.add v.diffRun) Counts.none

/-- The totals of tests, when one of them has results. -/
def totalsOf (tests : List SearchResult) : Option (List (Counts ν)) :=
  if ∀ r ∈ tests, legacyStatuses r = [] then none
  else some ((List.range v.testRuns).map fun i => countsOf v ν i tests)

variable {ν}

/-- Counts with more of those that are whole numbers. -/
def Counts.plus (c : Counts ν) (t : Tally) : Counts ν := ⟨c.passes, c.tally + t⟩

/-- A row holds the tests of a child of the path, `first` being the first of them. -/
structure IsRow (first : SearchResult) (name : String) (tests : List SearchResult) (row : Row ν) :
    Prop where
  path : row.path = v.pathPrefix ++ name
  isDir : row.isDir = (v.child first.test).2
  counts : row.results.map Cell.toCounts =
    (List.range v.testRuns).map fun i => (countsOf v ν i tests).plus (previousTallies v i tests)
  diff : row.diff = diffOf v tests

/-- The rows of the tests seen, with the counts of those that are done. -/
structure Summarizes (seen done : List SearchResult) (nodes : Nodes ν) : Prop where
  proto : "__proto__" ∉ nodes.rows.keys
  rows : ∀ name, name ≠ "__proto__" → name ≠ "totals" →
    (nodes.rows.get? name = none ∧ members v name seen = []) ∨
      ∃ row first, nodes.rows.get? name = some row ∧ (members v name seen).head? = some first ∧
        IsRow v first name (members v name done) row
  totals : nodes.totals = totalsOf v ν (counted v done)

end Specification

section Plus

variable {v : ResultsView} {r : SearchResult} {ν : Type*} {nodes : Nodes ν}

theorem Counts.plus_plus (c : Counts ν) (t t' : Tally) : (c.plus t).plus t' = c.plus (t + t') := by
  rw [Counts.plus, Counts.plus, Counts.plus, add_assoc]

theorem Counts.plus_zero (c : Counts ν) : c.plus 0 = c := by
  rw [Counts.plus, add_zero]

/-- The counts of the old name go to the first run. -/
theorem addPrevious_getElem? {cells cells' : List (Cell ν)}
    (h : addPrevious v r.test cells = .ok cells') (i : Nat) :
    cells'[i]?.map Cell.toCounts =
      cells[i]?.map fun c => c.toCounts.plus (if i = 0 then previousTally v r else 0) := by
  have hplus : ∀ c : Cell ν, c.toCounts.plus 0 = c.toCounts := fun c => c.toCounts.plus_zero
  rw [addPrevious] at h
  rw [previousTally]
  cases hprevious : previousResult v r.test with
  | none =>
    rw [hprevious] at h
    cases h
    simp [hplus]
  | some previous =>
    rw [hprevious] at h
    simp only at h
    cases hs : legacyStatuses previous with
    | nil =>
      rw [hs] at h
      cases h
    | cons rs rest =>
      cases cells with
      | nil =>
        rw [hs] at h
        cases h
      | cons cell cells =>
        rw [hs] at h
        cases h
        rw [Option.map_some, hs]
        -- the previous run is added to the first cell only
        cases i with
        | zero => rfl
        | succ i => simp [hplus]

@[simp] theorem rows_setTotals (totals : List (Counts ν)) :
    (nodes.setTotals totals).rows = nodes.rows := rfl

@[simp] theorem totals_setTotals (totals : List (Counts ν)) :
    (nodes.setTotals totals).totals = some totals := rfl

@[simp] theorem totals_setRow (name : String) (row : Row ν) :
    (nodes.setRow name row).totals = nodes.totals := by
  rw [Nodes.setRow]
  split_ifs <;> rfl

theorem proto_notMem_keys_setRow (h : "__proto__" ∉ nodes.rows.keys) (name : String)
    (row : Row ν) : "__proto__" ∉ (nodes.setRow name row).rows.keys := by
  rw [Nodes.setRow]
  split_ifs with hname
  · exact h
  · rw [JsObject.mem_keys_iff] at h ⊢
    rwa [JsObject.get?_set_of_ne fun heq => hname heq.symm]

theorem get?_setRow {name : String} (h : name ≠ "__proto__") (name' : String) (row : Row ν) :
    (nodes.setRow name' row).rows.get? name =
      if name = name' then some row else nodes.rows.get? name := by
  rw [Nodes.setRow]
  split_ifs with hname' heq heq
  · exact absurd (heq.trans hname') h
  · rfl
  · rw [heq, JsObject.get?_set_self]
  · exact JsObject.get?_set_of_ne heq

theorem getElem?_range_map {α : Type*} (f : Nat → α) (n i : Nat) :
    ((List.range n).map f)[i]? = if i < n then some (f i) else none := by
  rw [List.getElem?_map]
  by_cases hi : i < n
  · rw [List.getElem?_range hi, if_pos hi, Option.map_some]
  · rw [List.getElem?_eq_none (by simpa using hi), if_neg hi, Option.map_none]

variable [Zero ν] {nodes' : Nodes ν}

/-- What `collapsePathOnto` does: nothing, or a new row. -/
theorem collapsePathOnto_cases (h : collapsePathOnto v r.test nodes = .ok nodes') :
    (((v.child r.test).1 ∈ nodes.rows.keys ∨ (v.child r.test).1 = "totals") ∧ nodes' = nodes) ∨
      ((v.child r.test).1 ∉ nodes.rows.keys ∧
        nodes' = nodes.setRow (v.child r.test).1 (newRow v r.test)) := by
  obtain ⟨isThere, hthere, hok⟩ := bind_eq_ok_iff.mp h
  rw [Nodes.hasOwnProperty] at hthere
  split_ifs at hthere with hhidden
  cases isThere with
  | true =>
    have hsame : nodes = nodes' := Except.ok.inj hok
    subst hsame
    have htrue := Except.ok.inj hthere
    rw [Bool.or_eq_true, Bool.and_eq_true, decide_eq_true_iff, decide_eq_true_iff] at htrue
    exact .inl ⟨htrue.imp_right And.left, rfl⟩
  | false =>
    have hset : nodes.setRow (v.child r.test).1 (newRow v r.test) = nodes' := Except.ok.inj hok
    have hfalse := Except.ok.inj hthere
    rw [Bool.or_eq_false_iff, decide_eq_false_iff_not] at hfalse
    exact .inr ⟨hfalse.1, hset.symm⟩

end Plus

section OneTest

variable {v : ResultsView} {r : SearchResult} {tests : List SearchResult}
  {ν : Type*} [Zero ν] [One ν] [Add ν] [Div ν] [NatCast ν]

@[simp] theorem countsOf_nil (i : Nat) : countsOf v ν i [] = Counts.none := rfl

theorem countsOf_snoc (i : Nat) : countsOf v ν i (tests ++ [r]) =
    (legacyStatuses r)[i]?.elim (countsOf v ν i tests) ((countsOf v ν i tests).add v.diffRun) := by
  rw [countsOf, column, List.filterMap_append, List.foldl_append, List.filterMap_cons]
  cases (legacyStatuses r)[i]? <;> rfl

theorem previousTallies_snoc (i : Nat) : previousTallies v i (tests ++ [r]) =
    previousTallies v i tests + if i = 0 ∧ legacyStatuses r ≠ [] then previousTally v r else 0 := by
  rw [previousTallies, previousTallies]
  by_cases hi : i = 0
  · rw [if_pos hi, if_pos hi, List.filter_append, List.map_append, List.sum_append]
    congr 1
    by_cases hr : legacyStatuses r = [] <;> simp [hi, hr]
  · rw [if_neg hi, if_neg hi, if_neg fun h => hi h.1, add_zero]

/-- One more test, whose diff is added if it has one. -/
theorem diffOf_snoc : diffOf v (tests ++ [r]) =
    (testDiff v r).elim (diffOf v tests) fun d => some ((diffOf v tests).getD 0 + d) := by
  rw [diffOf, List.filterMap_append, List.filterMap_cons, List.filterMap_nil]
  cases hd : testDiff v r with
  | none => rw [List.append_nil]; rfl
  | some d =>
    rw [if_neg (List.append_ne_nil_of_right_ne_nil _ (List.cons_ne_nil _ _)), List.sum_append,
      List.sum_singleton, diffOf, Option.elim_some]
    split_ifs with hnil
    · rw [hnil]
      rfl
    · rfl

theorem testDiff_of_statuses (h : legacyStatuses r = []) : testDiff v r = none := by
  rw [testDiff, h]
  cases v.diff <;> rfl

/-- A test without results adds nothing. -/
theorem countsOf_snoc_empty (h : legacyStatuses r = []) (i : Nat) :
    countsOf v ν i (tests ++ [r]) = countsOf v ν i tests := by
  rw [countsOf_snoc, h, List.getElem?_nil, Option.elim_none]

theorem IsRow.snoc_empty {first : SearchResult} {name : String} {row : Row ν}
    (h : IsRow v first name tests row) (hr : legacyStatuses r = []) :
    IsRow v first name (tests ++ [r]) row where
  path := h.path
  isDir := h.isDir
  counts := by
    rw [h.counts]
    refine List.map_congr_left fun i _ => ?_
    rw [countsOf_snoc_empty hr, previousTallies_snoc, if_neg fun h => h.2 hr, add_zero]
  diff := by rw [h.diff, diffOf_snoc, testDiff_of_statuses hr, Option.elim_none]

theorem Counts.plus_add (c : Counts ν) (t : Tally) (diffRun : Bool) (rs : LegacySearchRunResult) :
    (c.plus t).add diffRun rs = (c.add diffRun rs).plus t := by
  rw [Counts.plus, Counts.add, Counts.plus, Counts.add, add_right_comm]

/-- What a test with results does to the cells and the totals. -/
theorem aggregateTestTotals_getElem? {diffRun : Bool} {rs : List LegacySearchRunResult}
    {cells cells' : List (Cell ν)} {totals totals' : List (Counts ν)}
    (h : aggregateTestTotals diffRun rs cells totals = .ok (cells', totals')) (i : Nat) :
    cells'[i]?.map Cell.toCounts =
        cells[i]?.map (fun c => rs[i]?.elim c.toCounts (c.toCounts.add diffRun)) ∧
      totals'[i]? = totals[i]?.map fun c => rs[i]?.elim c (c.add diffRun) := by
  induction rs generalizing cells cells' totals totals' i with
  | nil =>
    cases h
    simp
  | cons s rs ih =>
    cases cells with
    | nil => cases totals <;> cases h
    | cons cell cells =>
      cases totals with
      | nil => cases h
      | cons count totals =>
        obtain ⟨⟨cells₁, totals₁⟩, hrest, hok⟩ := bind_eq_ok_iff.mp h
        cases hok
        cases i with
        | zero => exact ⟨rfl, rfl⟩
        | succ i =>
          simp only [List.getElem?_cons_succ]
          exact ih hrest i

/-- The counts of a row after a test with results. -/
theorem counts_snoc {cells cells₁ cells' : List (Cell ν)} {totals totals' : List (Counts ν)}
    (hcells : cells.map Cell.toCounts =
      (List.range v.testRuns).map fun i => (countsOf v ν i tests).plus (previousTallies v i tests))
    (hr : legacyStatuses r ≠ [])
    (haggregate : aggregateTestTotals v.diffRun (legacyStatuses r) cells totals =
      .ok (cells₁, totals'))
    (hprevious : addPrevious v r.test cells₁ = .ok cells') :
    cells'.map Cell.toCounts = (List.range v.testRuns).map fun i =>
      (countsOf v ν i (tests ++ [r])).plus (previousTallies v i (tests ++ [r])) := by
  refine List.ext_getElem? fun i => ?_
  have hcell : cells[i]?.map Cell.toCounts = if i < v.testRuns then
      some ((countsOf v ν i tests).plus (previousTallies v i tests)) else none := by
    rw [← List.getElem?_map, hcells, getElem?_range_map]
  have hone := (aggregateTestTotals_getElem? haggregate i).1
  rw [List.getElem?_map, addPrevious_getElem? hprevious i, getElem?_range_map]
  by_cases hi : i < v.testRuns
  · rw [if_pos hi] at hcell ⊢
    obtain ⟨c, hc, hcounts⟩ := Option.map_eq_some_iff.mp hcell
    rw [hc, Option.map_some] at hone
    obtain ⟨c₁, hc₁, hcounts₁⟩ := Option.map_eq_some_iff.mp hone
    -- the page asks whether the result has statuses before it adds
    have hif : (if i = 0 then previousTally v r else 0) =
        if i = 0 ∧ legacyStatuses r ≠ [] then previousTally v r else 0 := by simp [hr]
    rw [hc₁, Option.map_some, hcounts₁, hcounts, countsOf_snoc, previousTallies_snoc, hif,
      ← Counts.plus_plus]
    cases (legacyStatuses r)[i]? with
    | none => rfl
    | some rs => rw [Option.elim_some, Option.elim_some, Counts.plus_add]
  · rw [if_neg hi] at hcell ⊢
    rw [Option.map_eq_none_iff.mp hcell, Option.map_none] at hone
    rw [Option.map_eq_none_iff.mp hone, Option.map_none]

/-- The totals after a test with results. -/
theorem totals_snoc {cells cells' : List (Cell ν)} {totals totals' : List (Counts ν)}
    (htotals : totals = (List.range v.testRuns).map fun i => countsOf v ν i tests)
    (haggregate : aggregateTestTotals v.diffRun (legacyStatuses r) cells totals =
      .ok (cells', totals')) :
    totals' = (List.range v.testRuns).map fun i => countsOf v ν i (tests ++ [r]) := by
  refine List.ext_getElem? fun i => ?_
  rw [(aggregateTestTotals_getElem? haggregate i).2, htotals, getElem?_range_map,
    getElem?_range_map, countsOf_snoc]
  by_cases hi : i < v.testRuns
  · rw [if_pos hi, if_pos hi, Option.map_some]
  · rw [if_neg hi, if_neg hi, Option.map_none]

/-- The totals, with none where no test has results. -/
theorem totalsOf_getD : (totalsOf v ν tests).getD (List.replicate v.testRuns Counts.none) =
    (List.range v.testRuns).map fun i => countsOf v ν i tests := by
  rw [totalsOf]
  split_ifs with h
  · have hcounts : ∀ i, countsOf v ν i tests = Counts.none := by
      intro i
      rw [countsOf, column, List.filterMap_eq_nil_iff.mpr]
      · rfl
      · intro r hr
        rw [h r hr, List.getElem?_nil]
    simp only [hcounts, List.map_const', List.length_range, Option.getD_none]
  · rfl

/-! ## A turn of the loop

A turn adds one test. Its row is there or is made, and the counts of the test go to the row and to
the totals; the other rows stay. -/

section Turn

variable {seen done : List SearchResult} {nodes nodes' : Nodes ν}

theorem counted_snoc : counted v (tests ++ [r]) =
    if v.renamedAway r.test then counted v tests else counted v tests ++ [r] := by
  rw [counted, List.filter_append, List.filter_cons]
  cases v.renamedAway r.test <;> simp [counted]

theorem members_snoc (name : String) : members v name (tests ++ [r]) =
    if v.renamedAway r.test = false ∧ (v.child r.test).1 = name then members v name tests ++ [r]
    else members v name tests := by
  rw [members, counted_snoc]
  cases v.renamedAway r.test
  · rw [if_neg Bool.false_ne_true, List.filter_append, List.filter_cons]
    by_cases h : (v.child r.test).1 = name <;> simp [h, members]
  · simp [members]

theorem isRow_newRow : IsRow v r (v.child r.test).1 [] (newRow v r.test : Row ν) where
  path := rfl
  isDir := rfl
  counts := by
    have hzero : ∀ i, previousTallies v i [] = 0 := by
      intro i
      rw [previousTallies]
      split <;> rfl
    simp only [newRow, List.map_replicate, countsOf_nil, hzero, Counts.plus_zero]
    rw [List.map_const', List.length_range]
  diff := rfl

theorem head?_members_snoc {name : String} {first : SearchResult}
    (h : (members v name done).head? = some first) :
    (members v name (done ++ [r])).head? = some first := by
  rw [members_snoc]
  split_ifs
  · rw [List.head?_append, h, Option.some_or]
  · exact h

/-- The row that a test is in is there after `collapsePathOnto`. -/
theorem Summarizes.collapse (h : Summarizes v done done nodes)
    (hr : v.renamedAway r.test = false) (hok : collapsePathOnto v r.test nodes = .ok nodes') :
    Summarizes v (done ++ [r]) done nodes' := by
  have hother : ∀ name, (v.child r.test).1 ≠ name →
      members v name (done ++ [r]) = members v name done := fun name hname => by
    rw [members_snoc, if_neg fun h => hname h.2]
  obtain ⟨hthere, rfl⟩ | ⟨hnew, rfl⟩ := collapsePathOnto_cases hok
  · refine ⟨h.proto, fun name hproto htotals => ?_, h.totals⟩
    obtain ⟨hnone, hmembers⟩ | ⟨row, first, hrow, hfirst, his⟩ := h.rows name hproto htotals
    · refine .inl ⟨hnone, (hother name ?_).trans hmembers⟩
      rintro rfl
      have hmem := JsObject.mem_keys_iff.mp (hthere.resolve_right htotals)
      rw [hnone] at hmem
      cases hmem
    · exact .inr ⟨row, first, hrow, head?_members_snoc hfirst, his⟩
  · refine ⟨proto_notMem_keys_setRow h.proto _ _, fun name hproto htotals => ?_,
      (totals_setRow _ _).trans h.totals⟩
    rw [get?_setRow hproto]
    by_cases hname : name = (v.child r.test).1
    · -- the child has no row yet, so no test before was in it
      subst hname
      have hnone : nodes.rows.get? (v.child r.test).1 = none := by
        rwa [JsObject.mem_keys_iff, Option.not_isSome_iff_eq_none] at hnew
      have hmembers : members v (v.child r.test).1 done = [] := by
        obtain ⟨-, hmembers⟩ | ⟨row, first, hrow, -, -⟩ := h.rows _ hproto htotals
        · exact hmembers
        · rw [hnone] at hrow
          cases hrow
      rw [if_pos rfl, members_snoc, if_pos ⟨hr, rfl⟩, hmembers]
      exact .inr ⟨_, r, rfl, rfl, isRow_newRow⟩
    · rw [if_neg hname, hother name fun heq => hname heq.symm]
      exact h.rows name hproto htotals

/-- A test without results adds nothing. -/
theorem Summarizes.snoc_empty (h : Summarizes v (done ++ [r]) done nodes)
    (hr : legacyStatuses r = []) :
    Summarizes v (done ++ [r]) (done ++ [r]) nodes where
  proto := h.proto
  rows name hproto htotals := by
    refine (h.rows name hproto htotals).imp_right ?_
    rintro ⟨row, first, hrow, hfirst, his⟩
    refine ⟨row, first, hrow, hfirst, ?_⟩
    rw [members_snoc]
    split_ifs
    · exact his.snoc_empty hr
    · exact his
  totals := by
    rw [h.totals, counted_snoc]
    split_ifs
    · rfl
    · simp only [totalsOf, List.forall_mem_append, List.forall_mem_singleton, hr, and_true,
        countsOf_snoc_empty hr]

/-- The row of the child a test with results is in, and the totals, are those with the test. -/
theorem Summarizes.setRow {row row' : Row ν} {totals : List (Counts ν)}
    (h : Summarizes v (done ++ [r]) done nodes) (hr : v.renamedAway r.test = false)
    (hrow : nodes.row (v.child r.test).1 = .ok row)
    (hrow' : ∀ first, IsRow v first (v.child r.test).1 (members v (v.child r.test).1 done) row →
      IsRow v first (v.child r.test).1 (members v (v.child r.test).1 done ++ [r]) row')
    (htotals : totalsOf v ν (counted v done ++ [r]) = some totals) :
    Summarizes v (done ++ [r]) (done ++ [r])
      ((nodes.setRow (v.child r.test).1 row').setTotals totals) where
  proto := by
    rw [rows_setTotals]
    exact proto_notMem_keys_setRow h.proto _ _
  rows name hproto hname := by
    rw [rows_setTotals, get?_setRow hproto]
    -- only the row of the result changes
    by_cases hchild : name = (v.child r.test).1
    · subst hchild
      rw [Nodes.row, if_neg hproto] at hrow
      obtain ⟨hnone, -⟩ | ⟨row₁, first, hrow₁, hfirst, his⟩ := h.rows _ hproto hname
      · rw [hnone] at hrow
        cases hrow
      · rw [hrow₁] at hrow
        cases hrow
        refine .inr ⟨_, first, if_pos rfl, hfirst, ?_⟩
        rw [members_snoc, if_pos ⟨hr, rfl⟩]
        exact hrow' first his
    · rw [if_neg hchild]
      have hmembers : members v name (done ++ [r]) = members v name done := by
        rw [members_snoc, if_neg fun h => hchild h.2.symm]
      have hold := h.rows name hproto hname
      rwa [hmembers] at hold ⊢
  totals := by rw [totals_setTotals, counted_snoc, hr, if_neg Bool.false_ne_true, htotals]

/-- A turn of the loop keeps the rows and totals those of the tests done. -/
theorem Summarizes.addResult (h : Summarizes v done done nodes)
    (hok : addResult v nodes r = .ok nodes') :
    Summarizes v (done ++ [r]) (done ++ [r]) nodes' := by
  rw [ResultsPage.addResult] at hok
  by_cases hrenamed : v.renamedAway r.test = true
  · rw [if_pos hrenamed] at hok
    obtain rfl := Except.ok.inj hok
    exact ⟨h.proto, by simpa only [members_snoc, hrenamed, Bool.true_eq_false, false_and, if_false]
      using h.rows, by rw [h.totals, counted_snoc, if_pos hrenamed]⟩
  rw [if_neg hrenamed] at hok
  have hr : v.renamedAway r.test = false := Bool.eq_false_iff.mpr hrenamed
  obtain ⟨nodes₁, hcollapse, hok⟩ := bind_eq_ok_iff.mp hok
  have h₁ := h.collapse hr hcollapse
  by_cases hempty : legacyStatuses r = []
  · rw [if_pos hempty] at hok
    obtain rfl := Except.ok.inj hok
    exact h₁.snoc_empty hempty
  rw [if_neg hempty] at hok
  obtain ⟨totals, htotals, hok⟩ := bind_eq_ok_iff.mp hok
  obtain ⟨row, hrow, hok⟩ := bind_eq_ok_iff.mp hok
  obtain ⟨⟨cells, totals'⟩, haggregate, hok⟩ := bind_eq_ok_iff.mp hok
  obtain ⟨cells', hprevious, hok⟩ := bind_eq_ok_iff.mp hok
  have hnodes := Except.ok.inj hok
  subst hnodes
  -- the totals are made with the first result that has statuses
  have hcolumns : totals =
      (List.range v.testRuns).map fun i => countsOf v ν i (counted v done) := by
    rw [Nodes.totalsFor] at htotals
    split_ifs at htotals
    rw [← Except.ok.inj htotals, h₁.totals, totalsOf_getD]
  refine h₁.setRow hr hrow (fun first his => ?_) ?_
  · exact ⟨his.path, his.isDir, counts_snoc his.counts hempty haggregate hprevious,
      by rw [diffOf_snoc, ← his.diff]⟩
  · rw [totalsOf, if_neg fun hall => hempty (hall r (List.mem_append_right _ List.mem_cons_self)),
      ← totals_snoc hcolumns haggregate]

theorem summarizes_empty : Summarizes v [] [] (Nodes.empty : Nodes ν) where
  proto := List.not_mem_nil
  rows _ _ _ := .inl ⟨rfl, rfl⟩
  totals := by
    rw [totalsOf, if_pos]
    · rfl
    · exact fun _ h => absurd h List.not_mem_nil

end Turn

/-! ## The page

What the loop leaves is what the page shows: a row for each child, in the order in which the
children came up, and the totals of all tests. -/

/-- No test with results is in a child called `totals`. -/
theorem statuses_of_child_totals {nodes nodes' : Nodes ν} (hok : addResult v nodes r = .ok nodes')
    (hr : v.renamedAway r.test = false) (hname : (v.child r.test).1 = "totals") :
    legacyStatuses r = [] := by
  by_contra hne
  rw [addResult, hr, if_neg Bool.false_ne_true] at hok
  obtain ⟨nodes₁, hcollapse, hok⟩ := bind_eq_ok_iff.mp hok
  rw [if_neg hne] at hok
  obtain ⟨totals, htotals, hok⟩ := bind_eq_ok_iff.mp hok
  obtain ⟨row, hrow, -⟩ := bind_eq_ok_iff.mp hok
  rw [Nodes.totalsFor] at htotals
  split_ifs at htotals with hkeys
  rw [hname, Nodes.row, if_neg (by decide)] at hrow
  have hnone : nodes₁.rows.get? "totals" = none := by
    rwa [JsObject.mem_keys_iff, Option.not_isSome_iff_eq_none] at hkeys
  rw [hnone] at hrow
  cases hrow

/-- A row holds the tests of a child of the path. -/
def RowOf (v : ResultsView) (name : String) (row : Row ν) : Prop :=
  name ≠ "__proto__" ∧ name ≠ "totals" ∧ ∃ first, (members v name v.tests).head? = some first ∧
    IsRow v first name (members v name v.tests) row

/-- What is on the page of a path: a row for each child, with the counts of the tests in it,
and the totals of all of them. -/
structure Shows (v : ResultsView) (shown : Displayed ν) : Prop where
  rows : ∃ names : List String, names.Nodup ∧
    List.Forall₂ (RowOf v) names shown.displayedNodes ∧
      (v.onlyShowDifferences = false → ∀ r ∈ v.tests, (v.child r.test).1 ≠ "__proto__" →
        (v.child r.test).1 ≠ "totals" → (v.child r.test).1 ∈ names)
  totals : shown.displayedTotals = totalsOf v ν v.tests
  child : ∀ r ∈ v.tests, (v.child r.test).1 = "totals" → legacyStatuses r = []

theorem counted_counted : counted v (counted v tests) = counted v tests := by
  rw [counted, counted, List.filter_filter]
  simp only [Bool.and_self]

theorem members_counted (name : String) : members v name (counted v tests) =
    members v name tests := by
  rw [members, members, counted_counted]

theorem mem_members {name : String} : r ∈ members v name tests ↔
    r ∈ counted v tests ∧ (v.child r.test).1 = name := by
  rw [members, List.mem_filter, decide_eq_true_iff]

/-- The rows of the loop's object are shown. -/
theorem Summarizes.shows {nodes : Nodes ν} {shown : Displayed ν}
    (h : Summarizes v (v.searchResults.filter fun r => hasPrefix r.test v.pathPrefix)
      (v.searchResults.filter fun r => hasPrefix r.test v.pathPrefix) nodes)
    (hrows : shown.displayedNodes = (nodes.rows.erase "totals").values.filter fun row =>
      !v.onlyShowDifferences || row.diff.isSome) :
    ∃ names : List String, names.Nodup ∧ List.Forall₂ (RowOf v) names shown.displayedNodes ∧
      (v.onlyShowDifferences = false → ∀ r ∈ v.tests, (v.child r.test).1 ≠ "__proto__" →
        (v.child r.test).1 ≠ "totals" → (v.child r.test).1 ∈ names) := by
  let entries := (nodes.rows.erase "totals").ordered.filter fun e =>
    !v.onlyShowDifferences || e.2.diff.isSome
  have hmem : ∀ name row, (name, row) ∈ entries →
      name ≠ "totals" ∧ nodes.rows.get? name = some row := by
    intro name row he
    have hget := JsObject.mem_entries_iff.mp
      ((JsObject.ordered_perm _).mem_iff.mp (List.mem_filter.mp he).1)
    rw [JsObject.get?_erase] at hget
    split_ifs at hget with htotals
    exact ⟨htotals, hget⟩
  -- a row is a property of the tree, so no two rows have one name
  have hnodup : (entries.map Prod.fst).Nodup :=
    (((JsObject.ordered_perm _).map _).nodup_iff.mpr
      (nodes.rows.erase "totals").nodupKeys).sublist (List.filter_sublist.map _)
  refine ⟨entries.map Prod.fst, hnodup, ?_, ?_⟩
  · have hshown : shown.displayedNodes = entries.map Prod.snd := by
      rw [hrows, JsObject.values, List.filter_map]
      rfl
    rw [hshown, List.forall₂_map_left_iff, List.forall₂_map_right_iff, List.forall₂_same]
    rintro ⟨name, row⟩ he
    obtain ⟨htotals, hget⟩ := hmem name row he
    have hproto : name ≠ "__proto__" := by
      rintro rfl
      exact h.proto (JsObject.mem_keys_iff.mpr (by rw [hget]; rfl))
    refine ⟨hproto, htotals, ?_⟩
    obtain ⟨hnone, -⟩ | ⟨row', first, hrow', hfirst, his⟩ := h.rows name hproto htotals
    · rw [hnone] at hget
      cases hget
    · rw [hrow'] at hget
      cases hget
      rw [ResultsView.tests, members_counted]
      exact ⟨first, hfirst, his⟩
  · intro hall r hr hproto htotals
    obtain ⟨-, hnone⟩ | ⟨row, first, hrow, -, -⟩ := h.rows _ hproto htotals
    · have hin : r ∈ members v (v.child r.test).1 _ := mem_members.mpr ⟨hr, rfl⟩
      rw [hnone] at hin
      cases hin
    · refine List.mem_map.mpr ⟨(_, row), List.mem_filter.mpr ⟨?_, by rw [hall]; rfl⟩, rfl⟩
      rw [(JsObject.ordered_perm _).mem_iff, JsObject.mem_entries_iff, JsObject.get?_erase,
        if_neg htotals]
      exact hrow

/-- A page that is refreshed shows the tests of its path. -/
theorem refreshDisplayedNodes_spec {shown shown' : Displayed ν} (hne : v.searchResults ≠ [])
    (h : refreshDisplayedNodes v shown = .ok shown') : Shows v shown' := by
  rw [refreshDisplayedNodes, if_neg hne] at h
  obtain ⟨nodes, hnodes, hok⟩ := bind_eq_ok_iff.mp h
  have hsum := foldTry_induction (P := fun done => Summarizes v done done) summarizes_empty
    (fun done r s s' hs hr => hs.addResult hr) hnodes
  have hchild := foldTry_induction
    (P := fun done (_ : Nodes ν) => ∀ r ∈ counted v done,
      (v.child r.test).1 = "totals" → legacyStatuses r = [])
    (fun r hr => absurd hr List.not_mem_nil)
    (fun done r s s' hs hr => ?_) hnodes
  · have hshown := Except.ok.inj hok
    subst hshown
    exact ⟨hsum.shows rfl, hsum.totals, hchild⟩
  · rw [counted_snoc]
    split_ifs with hrenamed
    · exact hs
    · rw [List.forall_mem_append, List.forall_mem_singleton]
      exact ⟨hs, statuses_of_child_totals hr (Bool.eq_false_iff.mpr hrenamed)⟩

end OneTest

end WptFyi.Webapp.ResultsPage
