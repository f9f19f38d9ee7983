import Mathlib

/-!
# Orders to range over a set

Iterating over a set (a Python set, the keys of a Go map) visits its elements
once each, in an order the program cannot rely on. A `RangeOrder` is one such
choice for every set; what is proved for all of them holds however the loop
goes. `sortedOrder` is one that can be computed.

The choice is fixed for a set, so a function of a `RangeOrder` that ranges over one set twice sees
the same order twice; where the program may see two orders the function takes two of them. An order
is a parameter of the definitions and never a hypothesis on their results.

- `RangeOrder`: for each set a list of its elements, each of them once;
- `sortedOrder`: the list in the order of a rank, for runs on examples.
-/

namespace WptFyi.Lib

universe u v

/-- For each set a list of its elements, each once. -/
abbrev RangeOrder (α : Type u) [DecidableEq α] :=
  (s : Finset α) → {l : List α // l.Nodup ∧ l.toFinset = s}

theorem mem_rangeOrder {α : Type u} [DecidableEq α] (order : RangeOrder α) (s : Finset α) (a : α) :
    a ∈ (order s).1 ↔ a ∈ s := by
  rw [← List.mem_toFinset, (order s).2.2]

section Sorted

variable {α : Type u} {β : Type v} [LinearOrder β] (rank : α → β)

/-- Lists of the same elements sort alike when no two elements have one rank. -/
theorem insertionSort_eq_of_perm (hrank : Function.Injective rank) {l l' : List α}
    (h : l.Perm l') :
    l.insertionSort (fun a b => rank a ≤ rank b) = l'.insertionSort fun a b => rank a ≤ rank b := by
  have htotal : Std.Total fun a b => rank a ≤ rank b := ⟨fun a b => le_total (rank a) (rank b)⟩
  have htrans : IsTrans α fun a b => rank a ≤ rank b := ⟨fun _ _ _ => le_trans⟩
  refine List.Perm.eq_of_pairwise ?_ (List.pairwise_insertionSort _ l)
    (List.pairwise_insertionSort _ l') ?_
  · intro a b _ _ hab hba
    exact hrank (le_antisymm hab hba)
  · exact ((List.perm_insertionSort _ l).trans h).trans (List.perm_insertionSort _ l').symm

/-- By rank. -/
def sortedOrder [DecidableEq α] (hrank : Function.Injective rank) : RangeOrder α := fun s =>
  ⟨Quotient.liftOn s.val (fun l => l.insertionSort fun a b => rank a ≤ rank b)
      fun _ _ h => insertionSort_eq_of_perm rank hrank h, by
    obtain ⟨val, hnodup⟩ := s
    induction val using Quotient.inductionOn with
    | _ l =>
      have hperm := List.perm_insertionSort (fun a b => rank a ≤ rank b) l
      refine ⟨hperm.nodup_iff.mpr hnodup, ?_⟩
      ext a
      rw [List.mem_toFinset]
      exact hperm.mem_iff⟩

end Sorted

end WptFyi.Lib
