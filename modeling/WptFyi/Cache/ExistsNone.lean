import WptFyi.Cache.BindSemantics

/-!
# Which runs satisfy the arguments of `exists` and `none`

Two readings of several arguments: one run satisfies them all, or each of them
has a run that does. Binding takes the second: every argument is split off, and
bound to each run on its own. A single argument is bound to all runs together.

So `exists` of two statuses is true when one run passes and another one fails, which is what the
tests of the atoms expect of it, while the documentation of the query language speaks of the same
run. `none` is the negation of the same binding: it rejects one argument where that argument is
accepted over all runs, but of two or more it wants one that no run satisfies, so it can accept a
row on which some run satisfies each of the arguments but one.

- `Accepts`, `Rejects`: what the filter of a bound tree does with a row;
- `accepts_abstractExists_iff`, `accepts_abstractNone_iff`: the filters of the two nodes, by the
  filters of the arguments alone;
- `exists_none_law`: the law of both nodes, for every list of arguments that is not empty.
-/

namespace WptFyi.Cache

open Lib Query Shared

section Law

variable (cases : CaseMapping) (fetched : Fetched) (idx : Index) (t : TestID)

/-- The filter of a tree bound to some runs accepts the row. -/
def Accepts (q : AbstractQuery) (runs : List TestRun) : Prop :=
  newFilter cases idx (bindToRuns fetched q runs) t = some true

/-- The filter of a tree bound to some runs rejects the row. -/
def Rejects (q : AbstractQuery) (runs : List TestRun) : Prop :=
  newFilter cases idx (bindToRuns fetched q runs) t = some false

instance (q : AbstractQuery) (runs : List TestRun) :
    Decidable (Accepts cases fetched idx t q runs) :=
  inferInstanceAs (Decidable (_ = _))

instance (q : AbstractQuery) (runs : List TestRun) :
    Decidable (Rejects cases fetched idx t q runs) :=
  inferInstanceAs (Decidable (_ = _))

variable {cases fetched idx t} {args : List AbstractQuery} {runs : List TestRun}

/-- A filter over an index that has the runs does not panic. -/
theorem newFilter_bound (hruns : ∀ run ∈ runs, run.id ∈ idx.runResults) (q : AbstractQuery) :
    newFilter cases idx (bindToRuns fetched q runs) t =
      some (holds cases (idx.row t) (bindToRuns fetched q runs)) := by
  refine newFilter_eq cases idx t _ fun id hid => ?_
  obtain ⟨run, hrun, rfl⟩ := List.mem_map.mp (asksOnly_bindToRuns fetched q runs id hid)
  exact hruns run hrun

theorem accepts_iff (hruns : ∀ run ∈ runs, run.id ∈ idx.runResults) (q : AbstractQuery) :
    Accepts cases fetched idx t q runs ↔ bound cases (idx.row t) (bindToRuns fetched q) runs := by
  rw [Accepts, newFilter_bound hruns, Option.some_inj, bound]

theorem rejects_iff (hruns : ∀ run ∈ runs, run.id ∈ idx.runResults) (q : AbstractQuery) :
    Rejects cases fetched idx t q runs ↔ ¬ Accepts cases fetched idx t q runs := by
  rw [Rejects, Accepts, newFilter_bound hruns, Option.some_inj, Option.some_inj, Bool.not_eq_true]

/-- One argument, bound to all runs together. -/
theorem accepts_abstractExists_singleton (arg : AbstractQuery) :
    Accepts cases fetched idx t (.abstractExists [arg]) runs ↔
      Accepts cases fetched idx t arg runs :=
  Iff.rfl

theorem existsHolds_of_two_le {ms : List Meaning} (h : 2 ≤ ms.length) :
    ExistsHolds ms runs ↔ ∀ m ∈ ms, ∃ run ∈ runs, m [run] := by
  match ms with
  | [] => cases h
  | [_] => exact absurd h (by simp)
  | _ :: _ :: _ => exact Iff.rfl

/-- Several arguments, each with a run of its own. -/
theorem accepts_abstractExists_iff (hargs : 2 ≤ args.length)
    (hruns : ∀ run ∈ runs, run.id ∈ idx.runResults) :
    Accepts cases fetched idx t (.abstractExists args) runs ↔
      ∀ arg ∈ args, ∃ run ∈ runs, Accepts cases fetched idx t arg [run] := by
  rw [accepts_iff hruns]
  show bound cases (idx.row t) (bindExists (bindArgs fetched args)) runs ↔ _
  rw [bound_bindExists, bindArgs_eq_map, List.map_map, existsHolds_of_two_le (by simpa using hargs),
    List.forall_mem_map]
  refine forall₂_congr fun arg _ => exists_congr fun run => and_congr_right fun hrun => ?_
  have hone : ∀ run' ∈ [run], run'.id ∈ idx.runResults := by
    intro run' hrun'
    rw [List.mem_singleton.mp hrun']
    exact hruns run hrun
  exact (accepts_iff hone arg).symm

/-- `none` is the negation of `exists`. -/
theorem accepts_abstractNone_iff (hruns : ∀ run ∈ runs, run.id ∈ idx.runResults) :
    Accepts cases fetched idx t (.abstractNone args) runs ↔
      ¬ Accepts cases fetched idx t (.abstractExists args) runs := by
  rw [accepts_iff hruns, accepts_iff hruns]
  exact holds_not cases (idx.row t) _

/-- **The law of `exists` and `none`** over any index that has the runs: `none`
of one argument rejects what the argument, bound to all runs, accepts; of two or
more it wants one that no run satisfies alone. `exists` of two or more wants a
run for each. -/
theorem exists_none_law (hargs : args ≠ []) (hruns : ∀ run ∈ runs, run.id ∈ idx.runResults) :
    (∀ arg, args = [arg] →
      (Accepts cases fetched idx t (.abstractNone args) runs ↔
        Rejects cases fetched idx t arg runs)) ∧
      (2 ≤ args.length →
        (Accepts cases fetched idx t (.abstractNone args) runs ↔
          ∃ arg ∈ args, ¬ ∃ run ∈ runs, Accepts cases fetched idx t arg [run]) ∧
        (Accepts cases fetched idx t (.abstractExists args) runs ↔
          ∀ arg ∈ args, ∃ run ∈ runs, Accepts cases fetched idx t arg [run])) := by
  constructor
  · rintro arg rfl
    rw [accepts_abstractNone_iff hruns, rejects_iff hruns, accepts_abstractExists_singleton]
  · intro hlen
    refine ⟨?_, accepts_abstractExists_iff hlen hruns⟩
    rw [accepts_abstractNone_iff hruns, accepts_abstractExists_iff hlen hruns]
    simp only [not_forall, exists_prop]

end Law

/-- Some run passes and some run fails, so `none` does not hold. -/
theorem exists_none_law_passAndFail :
    (Accepts ⟨id, (· == ·)⟩ {} chromeAndFirefoxIndex ⟨7, 0⟩
      (.abstractNone [.testStatusEq none TestStatus.pass, .testStatusEq none TestStatus.fail])
      chromeAndFirefox ↔
        ∃ arg ∈ [AbstractQuery.testStatusEq none TestStatus.pass,
          .testStatusEq none TestStatus.fail],
          ¬ ∃ run ∈ chromeAndFirefox,
            Accepts ⟨id, (· == ·)⟩ {} chromeAndFirefoxIndex ⟨7, 0⟩ arg [run]) ∧
      ¬ Accepts ⟨id, (· == ·)⟩ {} chromeAndFirefoxIndex ⟨7, 0⟩
        (.abstractNone [.testStatusEq none TestStatus.pass, .testStatusEq none TestStatus.fail])
        chromeAndFirefox :=
  ⟨((exists_none_law (by simp) (by decide)).2 (by simp)).1, by decide⟩

/-- No single run both passes and fails. Still `exists` of the two statuses holds,
and `none` does not. -/
theorem none_ne_noSingleRun :
    (¬ ∃ run ∈ chromeAndFirefox, ∀ arg ∈ [AbstractQuery.testStatusEq none TestStatus.pass,
        .testStatusEq none TestStatus.fail],
        Accepts ⟨id, (· == ·)⟩ {} chromeAndFirefoxIndex ⟨7, 0⟩ arg [run]) ∧
      Rejects ⟨id, (· == ·)⟩ {} chromeAndFirefoxIndex ⟨7, 0⟩
        (.abstractNone [.testStatusEq none TestStatus.pass, .testStatusEq none TestStatus.fail])
        chromeAndFirefox ∧
      Accepts ⟨id, (· == ·)⟩ {} chromeAndFirefoxIndex ⟨7, 0⟩
        (.abstractExists [.testStatusEq none TestStatus.pass, .testStatusEq none TestStatus.fail])
        chromeAndFirefox := by
  decide

end WptFyi.Cache
