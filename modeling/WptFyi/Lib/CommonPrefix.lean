import Mathlib

/-!
# Common prefixes of a set of lists

Two lists either continue one another or part after a common beginning
(`prefix_or_part`). The greatest prefix common to a set follows one more list
accordingly: it stays when the list continues it and is cut where the list parts
from it.

An algorithm that narrows a candidate down with every list that comes has this as its step: what it
holds is the greatest common prefix of the lists so far, and each of the two cases is one lemma.

- `CommonPrefix`, `IsGreatestPrefix`: a prefix of all, and one that continues all others;
- `IsGreatestPrefix.insert_of_prefix`, `IsGreatestPrefix.insert_of_part`: with one more list.
-/

namespace WptFyi.Lib

universe u

variable {α : Type u} {ls : Set (List α)} {f g l : List α}

/-- The second list continues the first, the first goes beyond the second, or the
two part. -/
theorem prefix_or_part (a b : List α) :
    a <+: b ∨ (b <+: a ∧ b ≠ a) ∨
      ∃ (f : List α) (x y : α) (r s : List α), a = f ++ x :: r ∧ b = f ++ y :: s ∧ x ≠ y := by
  induction a generalizing b with
  | nil => exact Or.inl List.nil_prefix
  | cons x a ih =>
    cases b with
    | nil => exact Or.inr (Or.inl ⟨List.nil_prefix, (List.cons_ne_nil x a).symm⟩)
    | cons y b =>
      by_cases hxy : x = y
      · subst hxy
        rcases ih b with hcont | ⟨hbeyond, hne⟩ | ⟨f, x', y', r, s, rfl, rfl, hne⟩
        · exact Or.inl (List.cons_prefix_cons.mpr ⟨rfl, hcont⟩)
        · refine Or.inr (Or.inl ⟨List.cons_prefix_cons.mpr ⟨rfl, hbeyond⟩, fun h => hne ?_⟩)
          exact (List.cons.inj h).2
        · exact Or.inr (Or.inr ⟨x :: f, x', y', r, s, rfl, rfl, hne⟩)
      · exact Or.inr (Or.inr ⟨[], x, y, a, b, rfl, rfl, hxy⟩)

/-- Lists that part are no prefixes of each other. -/
theorem not_prefix_of_part {x y : α} {r s : List α} (h : x ≠ y) :
    ¬ f ++ x :: r <+: f ++ y :: s := by
  intro hcont
  rw [List.prefix_append_right_inj, List.cons_prefix_cons] at hcont
  exact h hcont.1

/-- A prefix of both of two lists that part ends where they do. -/
theorem prefix_of_part {e : List α} {x y : α} {r s : List α} (h : x ≠ y) (ha : e <+: f ++ x :: r)
    (hb : e <+: f ++ y :: s) : e <+: f := by
  rcases List.prefix_or_prefix_of_prefix ha (List.prefix_append f (x :: r)) with hle | ⟨t, rfl⟩
  · exact hle
  · rw [List.prefix_append_right_inj] at ha hb
    cases t with
    | nil => rw [List.append_nil]
    | cons z t =>
      -- what goes on past the parting point would start with both heads
      rw [List.cons_prefix_cons] at ha hb
      exact absurd (ha.1.symm.trans hb.1) h

/-- A prefix of every list. -/
def CommonPrefix (ls : Set (List α)) (f : List α) : Prop := ∀ l ∈ ls, f <+: l

/-- A prefix of every list that continues all the others. -/
structure IsGreatestPrefix (ls : Set (List α)) (f : List α) : Prop where
  common : CommonPrefix ls f
  greatest : ∀ e, CommonPrefix ls e → e <+: f

theorem commonPrefix_insert : CommonPrefix (insert l ls) f ↔ f <+: l ∧ CommonPrefix ls f :=
  Set.forall_mem_insert

/-- A common prefix that is one of the lists. -/
theorem IsGreatestPrefix.of_mem (hmem : f ∈ ls) (h : CommonPrefix ls f) : IsGreatestPrefix ls f :=
  ⟨h, fun _ he => he f hmem⟩

theorem IsGreatestPrefix.insert_of_prefix (h : IsGreatestPrefix ls f) (hl : f <+: l) :
    IsGreatestPrefix (insert l ls) f :=
  ⟨commonPrefix_insert.mpr ⟨hl, h.common⟩,
    fun e he => h.greatest e (commonPrefix_insert.mp he).2⟩

theorem IsGreatestPrefix.insert_of_part {x y : α} {r s : List α}
    (h : IsGreatestPrefix ls (f ++ x :: r))
    (hxy : x ≠ y) : IsGreatestPrefix (insert (f ++ y :: s) ls) f := by
  refine ⟨commonPrefix_insert.mpr ⟨List.prefix_append _ _, fun l hl => ?_⟩, fun e he => ?_⟩
  · exact (List.prefix_append f _).trans (h.common l hl)
  · obtain ⟨hnew, hold⟩ := commonPrefix_insert.mp he
    exact prefix_of_part hxy (h.greatest e hold) hnew

end WptFyi.Lib
