import WptFyi.Shared.Models

/-!
# Differences between two runs (`shared/run_diff.go`)

A `TestDiff` is a slice of three counts in the source, indexed by
`newlyPassingIndex`, `newlyFailingIndex` and `totalDeltaIndex`. `append` adds
the difference of one row; `TestDiff.delta` is that row's contribution alone,
so folding `append` over rows is a sum and does not depend on their order.

- `TestDiff.append`, `TestDiff.delta`: the difference of a row;
- `SearchResult`: a row of a search response, with the diff if one was asked for.
-/

namespace WptFyi.Shared

/-- The three counts of a diff. -/
@[ext] structure TestDiff where
  newlyPassing : Int := 0
  newlyFailing : Int := 0
  totalDelta : Int := 0
deriving DecidableEq

namespace TestDiff

/-- `TestDiff.Append`: count the difference between two statuses of a row. -/
def append (d : TestDiff) (before after : TestStatus) (filter : DiffFilterParam) : TestDiff :=
  if before = TestStatus.unknown then
    if after = TestStatus.unknown || !filter.added then d
    else if TestStatus.isPassOrOK after then { d with newlyPassing := d.newlyPassing + 1 }
    else { d with newlyFailing := d.newlyFailing + 1 }
  else if after = TestStatus.unknown then
    if filter.deleted then { d with totalDelta := d.totalDelta - 1 } else d
  else if TestStatus.isPassOrOK before = TestStatus.isPassOrOK after || !filter.changed then d
  else if TestStatus.isPassOrOK before then { d with newlyFailing := d.newlyFailing + 1 }
  else { d with newlyPassing := d.newlyPassing + 1 }

instance : Zero TestDiff := ⟨{}⟩

instance : Add TestDiff where
  add d e := ⟨d.newlyPassing + e.newlyPassing, d.newlyFailing + e.newlyFailing,
    d.totalDelta + e.totalDelta⟩

@[simp] theorem newlyPassing_add (d e : TestDiff) :
    (d + e).newlyPassing = d.newlyPassing + e.newlyPassing := rfl

@[simp] theorem newlyFailing_add (d e : TestDiff) :
    (d + e).newlyFailing = d.newlyFailing + e.newlyFailing := rfl

@[simp] theorem totalDelta_add (d e : TestDiff) :
    (d + e).totalDelta = d.totalDelta + e.totalDelta := rfl

@[simp] theorem newlyPassing_zero : (0 : TestDiff).newlyPassing = 0 := rfl

@[simp] theorem newlyFailing_zero : (0 : TestDiff).newlyFailing = 0 := rfl

@[simp] theorem totalDelta_zero : (0 : TestDiff).totalDelta = 0 := rfl

instance : AddCommMonoid TestDiff where
  add_assoc d e f := by ext <;> simp [Int.add_assoc]
  zero_add d := by ext <;> simp
  add_zero d := by ext <;> simp
  add_comm d e := by ext <;> simp [Int.add_comm]
  nsmul := nsmulRec

/-- What one row contributes to a diff. -/
def delta (before after : TestStatus) (filter : DiffFilterParam) : TestDiff :=
  append 0 before after filter

/-- Appending a row adds its contribution. -/
theorem append_eq_add (d : TestDiff) (before after : TestStatus) (filter : DiffFilterParam) :
    d.append before after filter = d + delta before after filter := by
  unfold delta append
  split_ifs <;> ext <;> simp [Int.sub_eq_add_neg]

/-- Folding `append` over rows sums their contributions. -/
theorem foldl_append {ι : Type*} (before after : ι → TestStatus) (filter : DiffFilterParam)
    (d : TestDiff) (rows : List ι) :
    rows.foldl (fun d r => d.append (before r) (after r) filter) d =
      d + (rows.map fun r => delta (before r) (after r) filter).sum := by
  induction rows generalizing d with
  | nil => simp
  | cons r rows ih =>
    rw [List.foldl_cons, ih, append_eq_add, List.map_cons, List.sum_cons, add_assoc]

end TestDiff

/-- A row of a search response. `none` is a nil slice. -/
structure SearchResult where
  test : String
  legacyStatus : Option (List LegacySearchRunResult) := none
  interop : Option (List Nat) := none
  subtests : List String := []
  diff : Option TestDiff := none
deriving DecidableEq

end WptFyi.Shared
