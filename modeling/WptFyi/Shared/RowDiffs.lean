import WptFyi.Lib.GoMap
import WptFyi.Shared.RunDiff

/-!
# The diff of a test, by rows and by summaries (`shared/run_diff.go`)

A search folds `TestDiff.Append` over the rows of a test, and `NewTestDiff`
compares the summaries of two runs. Both have a third count, the change in the
number of rows, which only `NewTestDiff` raises for rows that were added.

A row that is absent in a run has the status `UNKNOWN` there. `Append` takes one from the total for
a row that is absent after, and adds nothing for one that is absent before. So the total of the
fold is never positive, and a test that has lost as many rows as it has gained counts as a
regression by its rows.

- `newTestDiff`, `regressions`: what is read from summaries and from diffs;
- `ofRows_eq`: what the fold counts, as sums over the rows;
- `CountsRows`: what the three counts of a diff are to say about the rows;
- `diffAgrees_iff`: the rows for which they say it.
-/

namespace WptFyi.Shared

open Lib

/-! ## Summaries -/

/-- The counts `[passing, total]` of a run, nil where it does not have the test. -/
abbrev Summary := Option (Int × Int)

/-- `NewTestDiff`. -/
def newTestDiff (before after : Summary) (filter : DiffFilterParam) : Option TestDiff :=
  match before, after with
  | none, none => none
  | none, some after =>
    if filter.added then some ⟨after.1, after.2 - after.1, after.2⟩ else none
  | some before, none => if filter.deleted then some ⟨0, 0, -before.2⟩ else none
  | some before, some after =>
    let changed := before.1 - after.1 ≠ 0 ∨ before.2 ≠ after.2
    if (¬ changed ∧ !filter.unchanged) ∨ (changed ∧ !filter.changed) then none
    else
      let improved := if after.1 - before.1 > 0 then after.1 - before.1 else 0
      let failingBefore := before.2 - before.1
      let failingAfter := after.2 - after.1
      let regressed := if failingAfter - failingBefore > 0 then failingAfter - failingBefore else 0
      some ⟨improved, regressed, after.2 - before.2⟩

/-- `ResultsDiff`: the diffs by test; nil counts as no difference. -/
abbrev ResultsDiff := GoMap String (Option TestDiff)

/-- `ResultsDiff.Regressions`. -/
def regressions (r : ResultsDiff) : Finset String :=
  r.keys.filter fun test =>
    let diff := ((r.lookup test).getD none).getD 0
    0 < diff.newlyFailing ∨ diff.totalDelta < 0

/-! ## Rows

The subtests of a test before and after as pairs of statuses, and what a diff should count of
them. -/

/-- The statuses of a row before and after; `unknown` is that of an absent row. -/
abbrev StatusPair := TestStatus × TestStatus

namespace StatusPair

def presentBefore (r : StatusPair) : Bool := r.1 != TestStatus.unknown

def presentAfter (r : StatusPair) : Bool := r.2 != TestStatus.unknown

/-- Passing after, and absent or not passing before. -/
def newlyPasses (r : StatusPair) : Bool :=
  TestStatus.isPassOrOK r.2 && (!r.presentBefore || !TestStatus.isPassOrOK r.1)

/-- Present but not passing after, and absent or passing before. -/
def newlyFails (r : StatusPair) : Bool :=
  r.presentAfter && !TestStatus.isPassOrOK r.2 && (!r.presentBefore || TestStatus.isPassOrOK r.1)

def isAdded (r : StatusPair) : Bool := !r.presentBefore && r.presentAfter

def isDeleted (r : StatusPair) : Bool := r.presentBefore && !r.presentAfter

end StatusPair

open StatusPair

/-- The summary of the rows that are present. -/
def summarizeStatuses (statuses : List TestStatus) : Int × Int :=
  (statuses.countP TestStatus.isPassOrOK, statuses.countP (· != TestStatus.unknown))

/-- Folding `append` over the rows of a test, from zero. -/
def TestDiff.ofRows (filter : DiffFilterParam) (rows : List StatusPair) : TestDiff :=
  rows.foldl (fun d r => d.append r.1 r.2 filter) 0

/-- What the three counts of a diff say about the rows. -/
structure CountsRows (rows : List StatusPair) (d : TestDiff) : Prop where
  newlyPassing : d.newlyPassing = rows.countP newlyPasses
  newlyFailing : d.newlyFailing = rows.countP newlyFails
  totalDelta : d.totalDelta = (rows.countP presentAfter : Int) - rows.countP presentBefore

/-- The diff of the rows counts them in every order, changes the total by as much as
`NewTestDiff` for a test that was added or removed, and makes a test a regression
when rows newly fail or there are fewer of them. -/
structure DiffAgrees (filter : DiffFilterParam) (rows : List StatusPair) : Prop where
  counts : ∀ order : List StatusPair, order.Perm rows →
    CountsRows rows (TestDiff.ofRows filter order)
  added : (∀ r ∈ rows, r.presentBefore = false) →
    newTestDiff none (some (summarizeStatuses (rows.map Prod.snd))) filter =
      some ⟨(summarizeStatuses (rows.map Prod.snd)).1,
        (summarizeStatuses (rows.map Prod.snd)).2 - (summarizeStatuses (rows.map Prod.snd)).1,
        (TestDiff.ofRows filter rows).totalDelta⟩
  deleted : (∀ r ∈ rows, r.presentAfter = false) →
    newTestDiff (some (summarizeStatuses (rows.map Prod.fst))) none filter =
      some ⟨0, 0, (TestDiff.ofRows filter rows).totalDelta⟩
  flagged : ∀ (r : ResultsDiff) (test : String),
    r.lookup test = some (some (TestDiff.ofRows filter rows)) →
      (test ∈ regressions r ↔
        (∃ row ∈ rows, row.newlyFails = true) ∨
          rows.countP presentAfter < rows.countP presentBefore)

/-! ## What the fold counts -/

namespace TestDiff

variable {filter : DiffFilterParam} {rows : List StatusPair}

theorem ofRows_cons (r : StatusPair) :
    ofRows filter (r :: rows) = delta r.1 r.2 filter + ofRows filter rows := by
  unfold ofRows
  rw [foldl_append, foldl_append, List.map_cons, List.sum_cons, zero_add, zero_add]

/-- What one row adds, when nothing is filtered out. -/
theorem delta_eq (unchanged : Bool) (r : StatusPair) :
    delta r.1 r.2 ⟨true, true, true, unchanged⟩ =
      ⟨if r.newlyPasses then 1 else 0, if r.newlyFails then 1 else 0,
        if r.isDeleted then -1 else 0⟩ := by
  obtain ⟨before, after⟩ := r
  have hunknown : TestStatus.isPassOrOK TestStatus.unknown = false := by decide
  unfold delta append
  by_cases hbefore : before = TestStatus.unknown <;>
    by_cases hafter : after = TestStatus.unknown
  · subst hbefore hafter
    decide +revert
  · subst hbefore
    cases hpass : TestStatus.isPassOrOK after <;>
      simp [newlyPasses, newlyFails, isDeleted, presentBefore, presentAfter, hafter, hpass,
        hunknown]
  · subst hafter
    simp [newlyPasses, newlyFails, isDeleted, presentBefore, presentAfter, hbefore, hunknown]
  · -- a row that stays counts when it changes
    cases hwas : TestStatus.isPassOrOK before <;> cases his : TestStatus.isPassOrOK after <;>
      simp [newlyPasses, newlyFails, isDeleted, presentBefore, presentAfter, hbefore, hafter, hwas,
        his] <;> rfl

/-- **What the fold counts**: rows that are added do not change the total. -/
theorem ofRows_eq (unchanged : Bool) (rows : List StatusPair) :
    ofRows ⟨true, true, true, unchanged⟩ rows =
      ⟨rows.countP newlyPasses, rows.countP newlyFails, -(rows.countP isDeleted : Int)⟩ := by
  induction rows with
  | nil => rfl
  | cons r rows ih =>
    rw [ofRows_cons, delta_eq, ih]
    simp only [List.countP_cons]
    ext
    · simp only [newlyPassing_add]
      split_ifs <;> push_cast <;> ring
    · simp only [newlyFailing_add]
      split_ifs <;> push_cast <;> ring
    · simp only [totalDelta_add]
      split_ifs <;> push_cast <;> ring

end TestDiff

/-! ## When the counts are right

Newly passing and newly failing rows are always counted right. The total leaves out the rows that
were added, so it is right exactly when there are none. -/

section Agreement

variable {rows order : List StatusPair}

/-- Rows that are added and rows that are deleted make up the change in number. -/
theorem countP_present (rows : List StatusPair) :
    rows.countP presentAfter + rows.countP isDeleted =
      rows.countP presentBefore + rows.countP isAdded := by
  induction rows with
  | nil => rfl
  | cons r rows ih =>
    by_cases hbefore : r.presentBefore = true <;> by_cases hafter : r.presentAfter = true <;>
      simp [isDeleted, isAdded, hbefore, hafter] <;> omega

theorem countP_isAdded_eq_zero_iff :
    rows.countP isAdded = 0 ↔ ∀ r ∈ rows, r.presentAfter = true → r.presentBefore = true := by
  rw [List.countP_eq_zero]
  refine forall₂_congr fun r _ => ?_
  unfold isAdded
  cases r.presentBefore <;> cases r.presentAfter <;> simp

/-- The fold counts the rows exactly when none is added. -/
theorem countsRows_ofRows_iff (unchanged : Bool) :
    CountsRows rows (TestDiff.ofRows ⟨true, true, true, unchanged⟩ rows) ↔
      rows.countP isAdded = 0 := by
  have hpresent := countP_present rows
  rw [TestDiff.ofRows_eq]
  constructor
  · rintro ⟨-, -, htotal⟩
    simp only at htotal
    omega
  · intro hadded
    refine ⟨rfl, rfl, ?_⟩
    simp only
    omega

theorem ofRows_perm (unchanged : Bool) (h : order.Perm rows) :
    TestDiff.ofRows ⟨true, true, true, unchanged⟩ order =
      TestDiff.ofRows ⟨true, true, true, unchanged⟩ rows := by
  rw [TestDiff.ofRows_eq, TestDiff.ofRows_eq, h.countP_eq, h.countP_eq, h.countP_eq]

theorem countP_map_snd (rows : List StatusPair) :
    (rows.map Prod.snd).countP (· != TestStatus.unknown) = rows.countP presentAfter := by
  rw [List.countP_map]
  rfl

theorem countP_map_fst (rows : List StatusPair) :
    (rows.map Prod.fst).countP (· != TestStatus.unknown) = rows.countP presentBefore := by
  rw [List.countP_map]
  rfl

theorem mem_regressions_iff {r : ResultsDiff} {test : String} {d : TestDiff}
    (h : r.lookup test = some (some d)) :
    test ∈ regressions r ↔ 0 < d.newlyFailing ∨ d.totalDelta < 0 := by
  rw [regressions, Finset.mem_filter, h]
  exact and_iff_right (Finmap.mem_keys.mpr (Finmap.mem_of_lookup_eq_some h))

/-- **The diff of a test by rows** is the one by summaries exactly when no row was added. -/
theorem diffAgrees_iff (unchanged : Bool) (rows : List StatusPair) :
    DiffAgrees ⟨true, true, true, unchanged⟩ rows ↔
      ∀ r ∈ rows, r.presentAfter = true → r.presentBefore = true := by
  rw [← countP_isAdded_eq_zero_iff]
  constructor
  · intro h
    exact (countsRows_ofRows_iff unchanged).mp (h.counts rows (List.Perm.refl _))
  · intro hadded
    have hcounts := (countsRows_ofRows_iff unchanged).mpr hadded
    have hpresent := countP_present rows
    refine ⟨fun order horder => ?_, fun hbefore => ?_, fun hafter => ?_, fun r test hlookup => ?_⟩
    · rw [ofRows_perm unchanged horder]
      exact hcounts
    · have hnone : rows.countP presentBefore = 0 := List.countP_eq_zero.mpr (by simpa using hbefore)
      have htotal := hcounts.totalDelta
      rw [hnone, Nat.cast_zero, sub_zero] at htotal
      rw [htotal, ← countP_map_snd]
      rfl
    · have hnone : rows.countP presentAfter = 0 := List.countP_eq_zero.mpr (by simpa using hafter)
      have htotal := hcounts.totalDelta
      rw [hnone, Nat.cast_zero, zero_sub] at htotal
      rw [htotal, ← countP_map_fst]
      rfl
    · rw [mem_regressions_iff hlookup, hcounts.newlyFailing, hcounts.totalDelta]
      refine or_congr ?_ (by omega)
      rw [Int.natCast_pos, List.countP_pos_iff]

/-- One row that is added, and the total stays. -/
theorem not_diffAgrees_added :
    ¬ ∀ rows : List StatusPair, DiffAgrees ⟨true, true, true, false⟩ rows := by
  intro h
  have htotal := ((h [(TestStatus.unknown, TestStatus.pass)]).counts _
      (List.Perm.refl _)).totalDelta
  exact absurd htotal (by decide)

end Agreement

end WptFyi.Shared
