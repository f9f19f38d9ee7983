import Mathlib

/-!
# The newest of some items

Items are listed with the newest first, in any order where they are as new, and cut at an
offset and a limit. A cut of some of the items may be one of all of them, too.

Because the order of items that are as new is open, a list is not the page but a page: `IsPage`
asks that there is some such order of all items from which it is cut. To tell whether a list is a
page of more items than it was cut from, one has to count, for an item that was left out, how many
of the kept ones are newer or as new: with a limit's worth of those, it is not missed.

- `IsPage`: a list is such a cut of the items;
- `le_countP_of_drop`: how many items an item further down has before it;
- `isPage_filter_iff`: when the newest of the items that are kept are the newest of all.
-/

namespace WptFyi.Lib.NewestFirst

universe u v

variable {α : Type u} {T : Type v} [LinearOrder T]

/-- The items in a listing, from an offset on and as far as a limit. -/
def IsPage (items : List α) (time : α → T) (offset limit : Nat) (page : List α) : Prop :=
  ∃ listing : List α, listing.Perm items ∧
    listing.Pairwise (fun a b => time b ≤ time a) ∧ page = (listing.drop offset).take limit

section Filter

variable {items : List α} {time : α → T} {kept : α → Bool}

theorem IsPage.subset {offset limit : Nat} {page : List α}
    (h : IsPage items time offset limit page) : page ⊆ items := by
  obtain ⟨listing, hperm, -, rfl⟩ := h
  intro a ha
  exact hperm.subset (List.mem_of_mem_drop (List.mem_of_mem_take ha))

/-- What is at least as new as an item that does not come first in a listing, but after so
many others. -/
theorem le_countP_of_drop {listing : List α}
    (hsorted : listing.Pairwise fun a b => time b ≤ time a) {limit : Nat} {x : α}
    (hx : x ∈ listing.drop limit) :
    limit ≤ (listing.take limit).countP fun a => decide (time x ≤ time a) := by
  have hall : ∀ a ∈ listing.take limit, decide (time x ≤ time a) = true := by
    intro a ha
    rw [← List.take_append_drop limit listing, List.pairwise_append] at hsorted
    exact decide_eq_true (hsorted.2.2 a ha x hx)
  have hlong : limit < listing.length := by
    by_contra hshort
    rw [List.drop_of_length_le (not_lt.mp hshort)] at hx
    exact List.not_mem_nil hx
  rw [List.countP_eq_length.mpr hall, List.length_take]
  omega

/-- As many as the limit are at least as new as an item, so all of the first are. -/
theorem le_of_mem_take {listing : List α}
    (hsorted : listing.Pairwise fun a b => time b ≤ time a) {limit : Nat} {t : T}
    (hcount : limit ≤ listing.countP fun a => decide (t ≤ time a)) :
    ∀ a ∈ listing.take limit, t ≤ time a := by
  intro a ha
  by_contra hold
  obtain ⟨before, after, hsplit⟩ := List.append_of_mem ha
  -- What comes with or after an older item is older, too.
  have hrest : listing = before ++ (a :: (after ++ listing.drop limit)) := by
    rw [← List.cons_append, ← List.append_assoc, ← hsplit, List.take_append_drop]
  rw [hrest, List.pairwise_append] at hsorted
  have hnone : (a :: (after ++ listing.drop limit)).countP (fun b => decide (t ≤ time b)) = 0 := by
    refine List.countP_eq_zero.mpr ?_
    intro b hb hle
    rcases List.mem_cons.mp hb with rfl | hb
    · exact hold (of_decide_eq_true hle)
    · exact hold ((of_decide_eq_true hle).trans (List.rel_of_pairwise_cons hsorted.2.1 hb))
  have hbefore : before.length < limit := by
    have hlength := congrArg List.length hsplit
    rw [List.length_append, List.length_cons] at hlength
    have hle := List.length_take_le limit listing
    omega
  rw [hrest, List.countP_append, hnone] at hcount
  have hle := List.countP_le_length (p := fun a => decide (t ≤ time a)) (l := before)
  omega

/-- **The newest of what is kept** are the newest of all exactly when each item that is
left out has as many as the limit before it, or with it, that are kept. -/
theorem isPage_filter_iff {listing : List α}
    (hperm : listing.Perm (items.filter kept))
    (hsorted : listing.Pairwise fun a b => time b ≤ time a) (limit : Nat) :
    IsPage items time 0 limit (listing.take limit) ↔
      ∀ x ∈ items, ¬ kept x →
        limit ≤ (items.filter kept).countP fun a => decide (time x ≤ time a) := by
  constructor
  · rintro ⟨all, hall, hallSorted, hpage⟩ x hx hleft
    rw [List.drop_zero] at hpage
    have hlate : x ∈ all.drop limit := by
      have hmem := hall.mem_iff.mpr hx
      rw [← List.take_append_drop limit all, List.mem_append, ← hpage] at hmem
      rcases hmem with hmem | hmem
      · have hkept := (List.mem_filter.mp (hperm.subset (List.mem_of_mem_take hmem))).2
        exact absurd hkept hleft
      · exact hmem
    have hcount := le_countP_of_drop hallSorted hlate
    rw [← hpage] at hcount
    rw [← hperm.countP_eq]
    exact hcount.trans (List.take_sublist limit listing).countP_le
  · intro hleft
    rcases Nat.lt_or_ge listing.length limit with hshort | hlong
    · -- too few are kept, so nothing is left out
      have hall : items.filter kept = items := by
        refine List.filter_eq_self.mpr fun x hx => ?_
        by_contra hnot
        have hcount := hleft x hx hnot
        rw [← hperm.countP_eq] at hcount
        exact absurd (hcount.trans List.countP_le_length) (not_le.mpr hshort)
      exact ⟨listing, hall ▸ hperm, hsorted, rfl⟩
    · have : Std.Total fun a b : α => time b ≤ time a := ⟨fun a b => le_total (time b) (time a)⟩
      have : IsTrans α fun a b => time b ≤ time a := ⟨fun _ _ _ hab hbc => hbc.trans hab⟩
      have hrest := List.perm_insertionSort (fun a b => time b ≤ time a)
        (listing.drop limit ++ items.filter fun x => !kept x)
      refine ⟨listing.take limit ++ (listing.drop limit ++
        items.filter fun x => !kept x).insertionSort fun a b => time b ≤ time a, ?_, ?_, ?_⟩
      · refine (hrest.append_left _).trans ?_
        rw [← List.append_assoc, List.take_append_drop]
        exact (hperm.append_right _).trans (List.filter_append_perm _ _)
      · refine List.pairwise_append.mpr
          ⟨hsorted.sublist (List.take_sublist _ _), List.pairwise_insertionSort _ _, ?_⟩
        intro a ha b hb
        rcases List.mem_append.mp (hrest.mem_iff.mp hb) with hb | hb
        · rw [← List.take_append_drop limit listing, List.pairwise_append] at hsorted
          exact hsorted.2.2 a ha b hb
        · obtain ⟨hb, hnot⟩ := List.mem_filter.mp hb
          have hcount := hleft b hb (by simpa using hnot)
          rw [← hperm.countP_eq] at hcount
          exact le_of_mem_take hsorted hcount a ha
      · have hlength : (listing.take limit).length = limit := by
          rw [List.length_take]
          omega
        rw [List.drop_zero, List.take_left' hlength]

end Filter

end WptFyi.Lib.NewestFirst
