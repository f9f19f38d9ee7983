import Mathlib

/-!
# Pages of several lists at once

A sequence of windows has a list for each of several streams. A page shows, for every
stream, so many items of the window's list from an offset on. As long as some list has
more to show than fits a page the next page stays in the window, and its offset goes up;
then comes the next window, where the offset is not taken back.

No item is shown twice, since the pair of window and offset only grows. Whether each is shown is
another matter: the offset that a window was left with hides as many items of every later window.
It is not 0 in any of them, because a window that was left at all was left past its longest list.
So the windows before the first one with a full page are shown completely, that one too, and later
ones only if they are empty.

- `pageStep`, `pagePos`: window and offset, page by page;
- `pagePos_of_fits`: up to a window with a full page the offset is 0;
- `size_le_offset`: after such a window it is not;
- `existsUnique_onPage_iff`: every item is on one page exactly when nothing comes in the
  windows after one with a full page.
-/

namespace WptFyi.Lib

universe u v

variable {ι : Type u} {α : Type v} (L : Nat → ι → List α) (streams : List ι) (size : Nat)

/-- Some stream fills the page. -/
def PageFull (pos : Nat × Nat) : Prop := ∃ p ∈ streams, size ≤ ((L pos.1 p).drop pos.2).length

instance (pos : Nat × Nat) : Decidable (PageFull L streams size pos) :=
  inferInstanceAs (Decidable (∃ p ∈ streams, _))

/-- The window and the offset of the next page. -/
def pageStep (pos : Nat × Nat) : Nat × Nat :=
  if PageFull L streams size pos then (pos.1, pos.2 + size) else (pos.1 + 1, pos.2)

/-- The window and the offset of a page. -/
def pagePos (k : Nat) : Nat × Nat := (pageStep L streams size)^[k] (0, 0)

/-- The item at an index of a window's list is on a page. -/
def OnPage (k w i : Nat) : Prop :=
  (pagePos L streams size k).1 = w ∧ (pagePos L streams size k).2 ≤ i ∧
    i < (pagePos L streams size k).2 + size

variable {L streams size}

theorem pagePos_succ (k : Nat) :
    pagePos L streams size (k + 1) = pageStep L streams size (pagePos L streams size k) :=
  Function.iterate_succ_apply' _ _ _

theorem pageStep_of_full {pos : Nat × Nat} (h : PageFull L streams size pos) :
    pageStep L streams size pos = (pos.1, pos.2 + size) := if_pos h

theorem pageStep_of_not_full {pos : Nat × Nat} (h : ¬ PageFull L streams size pos) :
    pageStep L streams size pos = (pos.1 + 1, pos.2) := if_neg h

/-! ## No item is on two pages -/

/-- Later pages are in later windows, or further on in the same. -/
theorem pagePos_lt {j k : Nat} (h : j < k) :
    (pagePos L streams size j).1 < (pagePos L streams size k).1 ∨
      (pagePos L streams size j).1 = (pagePos L streams size k).1 ∧
        (pagePos L streams size j).2 + size ≤ (pagePos L streams size k).2 := by
  induction k, h using Nat.le_induction with
  | base =>
    rw [pagePos_succ]
    by_cases hfull : PageFull L streams size (pagePos L streams size j)
    · rw [pageStep_of_full hfull]
      exact Or.inr ⟨rfl, Nat.le_refl _⟩
    · rw [pageStep_of_not_full hfull]
      exact Or.inl (Nat.lt_succ_self _)
  | succ k _ ih =>
    rw [pagePos_succ]
    by_cases hfull : PageFull L streams size (pagePos L streams size k)
    · rw [pageStep_of_full hfull]
      rcases ih with hlt | ⟨heq, hle⟩
      · exact Or.inl hlt
      · exact Or.inr ⟨heq, hle.trans (Nat.le_add_right _ _)⟩
    · rw [pageStep_of_not_full hfull]
      rcases ih with hlt | ⟨heq, _⟩
      · exact Or.inl (hlt.trans (Nat.lt_succ_self _))
      · exact Or.inl (by rw [heq]; exact Nat.lt_succ_self _)

theorem OnPage.unique {j k w i : Nat} (hj : OnPage L streams size j w i)
    (hk : OnPage L streams size k w i) : j = k := by
  obtain ⟨hjw, hji, hij⟩ := hj
  obtain ⟨hkw, hki, hik⟩ := hk
  rcases Nat.lt_trichotomy j k with hlt | heq | hgt
  · rcases @pagePos_lt _ _ L streams size j k hlt with h | ⟨_, h⟩ <;> omega
  · exact heq
  · rcases @pagePos_lt _ _ L streams size k j hgt with h | ⟨_, h⟩ <;> omega

/-! ## Windows before one with a full page -/

/-- No list of the windows before fills a page. -/
def Fits (L : Nat → ι → List α) (streams : List ι) (size w : Nat) : Prop :=
  ∀ w' < w, ∀ p ∈ streams, (L w' p).length < size

/-- Up to there every window is one page, from its beginning. -/
theorem pagePos_of_fits {w : Nat} (h : Fits L streams size w) :
    pagePos L streams size w = (w, 0) := by
  induction w with
  | zero => rfl
  | succ w ih =>
    have hnot : ¬ PageFull L streams size (w, 0) := by
      rintro ⟨p, hp, hsize⟩
      rw [List.drop_zero] at hsize
      exact absurd (h w (Nat.lt_succ_self w) p hp) (not_lt.mpr hsize)
    rw [pagePos_succ, ih fun w' hw' => h w' (hw'.trans (Nat.lt_succ_self w)),
      pageStep_of_not_full hnot]

/-- In such a window the pages follow each other. -/
theorem pagePos_add {w : Nat} (h : Fits L streams size w) {p : ι} (hp : p ∈ streams) {j : Nat}
    (hj : j * size ≤ (L w p).length) : pagePos L streams size (w + j) = (w, j * size) := by
  induction j with
  | zero => rw [Nat.zero_mul, Nat.add_zero, pagePos_of_fits h]
  | succ j ih =>
    rw [Nat.succ_mul] at hj ⊢
    have hfull : PageFull L streams size (w, j * size) := by
      refine ⟨p, hp, ?_⟩
      rw [List.length_drop]
      show size ≤ (L w p).length - j * size
      omega
    rw [← Nat.add_assoc, pagePos_succ, ih (by omega), pageStep_of_full hfull]

theorem exists_onPage {w i : Nat} (hsize : 1 ≤ size) (h : Fits L streams size w) {p : ι}
    (hp : p ∈ streams) (hi : i < (L w p).length) : ∃ k, OnPage L streams size k w i := by
  have hle : i / size * size ≤ i := Nat.div_mul_le_self i size
  have hlt : i < i / size * size + size := by
    have := Nat.lt_div_mul_add (a := i) (by omega : 0 < size)
    omega
  refine ⟨w + i / size, ?_⟩
  rw [OnPage, pagePos_add h hp (by omega)]
  exact ⟨rfl, hle, hlt⟩

/-! ## Windows after one -/

/-- **The offset stays**: it is not 0 in any window after one with a full page. -/
theorem size_le_offset {w : Nat} {p : ι} (hp : p ∈ streams) (hfull : size ≤ (L w p).length)
    (k : Nat) :
    ((pagePos L streams size k).2 = 0 ∨ size ≤ (pagePos L streams size k).2) ∧
      (w < (pagePos L streams size k).1 → size ≤ (pagePos L streams size k).2) := by
  induction k with
  | zero => exact ⟨Or.inl rfl, fun h => absurd h (Nat.not_lt_zero w)⟩
  | succ k ih =>
    obtain ⟨hzero, hafter⟩ := ih
    rw [pagePos_succ]
    by_cases hpage : PageFull L streams size (pagePos L streams size k)
    · rw [pageStep_of_full hpage]
      exact ⟨Or.inr (Nat.le_add_left _ _), fun _ => Nat.le_add_left _ _⟩
    · rw [pageStep_of_not_full hpage]
      refine ⟨hzero, fun hw => ?_⟩
      rcases hzero with hzero | hsize
      · -- the full window itself is not left with the offset 0
        by_cases heq : (pagePos L streams size k).1 = w
        · refine absurd ⟨p, hp, ?_⟩ hpage
          rw [hzero, heq]
          exact hfull
        · exact hafter (by simp only at hw; omega)
      · exact hsize

theorem not_onPage_zero {w w' k : Nat} {p : ι} (hp : p ∈ streams) (hsize : 1 ≤ size)
    (hfull : size ≤ (L w p).length) (hw : w < w') : ¬ OnPage L streams size k w' 0 := by
  rintro ⟨rfl, hle, _⟩
  have hoffset := hsize.trans ((size_le_offset hp hfull k).2 hw)
  omega

/-- **Every item is on one page** exactly when nothing comes in a window after one that
fills a page. -/
theorem existsUnique_onPage_iff (hsize : 1 ≤ size) :
    (∀ w, ∀ p ∈ streams, ∀ i < (L w p).length, ∃! k, OnPage L streams size k w i) ↔
      ∀ w w', w < w' → (∃ p ∈ streams, size ≤ (L w p).length) → ∀ p ∈ streams, L w' p = [] := by
  constructor
  · rintro h w w' hw ⟨p, hp, hfull⟩ p' hp'
    by_contra hne
    obtain ⟨k, hk, -⟩ := h w' p' hp' 0 (List.length_pos_iff.mpr hne)
    exact not_onPage_zero hp hsize hfull hw hk
  · intro h w p hp i hi
    have hfits : Fits L streams size w := by
      intro w' hw' p' hp'
      by_contra hnot
      rw [h w' w hw' ⟨p', hp', not_lt.mp hnot⟩ p hp] at hi
      exact Nat.not_lt_zero i hi
    obtain ⟨k, hk⟩ := exists_onPage hsize hfits hp hi
    exact ⟨k, hk, fun k' hk' => hk'.unique hk⟩

end WptFyi.Lib
