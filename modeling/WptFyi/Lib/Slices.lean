import Mathlib

/-!
# Go slices over shared backing arrays

A slice is a window into a backing array: an offset, a length and a capacity.
Two slices over one array alias: writing through one may be seen through the
other. A heap is the list of backing arrays, addressed by position.

An `append` is the place where aliasing starts or stops. While the capacity suffices, the result
and the slice it was made from begin at the same cell, and a second `append` to the old one
overwrites what the first has added. When it does not, the result lives in an array of its own. The
lemmas below say what each of the slices shows after either of the two; a program that appends in a
loop is then followed with one lemma for each turn.

- `Slice.read`: the elements a slice shows;
- `Slice.append`: Go's `append`, which writes into the backing array when the
  capacity allows it and moves to a fresh array otherwise. How much room the
  fresh array gets is the runtime's choice, so it is the parameter `grow`;
- `read_append`: the appended slice shows the old elements and the new ones;
- `read_append_alias`: what any other slice over the same array start shows
  after an append in place;
- `read_append_fresh`: an append that moves disturbs nobody;
- `read_append_self`: nor does any append disturb the slice it started from.
-/

namespace WptFyi.Lib

universe u

/-- Backing arrays, addressed by position. -/
abbrev Heap (α : Type u) := List (List α)

/-- A window of `len` elements from `off` on, that may grow up to `cap`. -/
structure Slice where
  array : Nat
  off : Nat
  len : Nat
  cap : Nat
  len_le_cap : len ≤ cap
deriving DecidableEq

namespace Slice

variable {α : Type u}

/-- The slice's whole capacity lies inside its backing array. -/
def Valid (h : Heap α) (s : Slice) : Prop :=
  s.array < h.length ∧ s.off + s.cap ≤ (h.getD s.array []).length

instance (h : Heap α) (s : Slice) : Decidable (s.Valid h) :=
  inferInstanceAs (Decidable (_ ∧ _))

/-- The elements a slice shows. -/
def read (h : Heap α) (s : Slice) : List α :=
  ((h.getD s.array []).drop s.off).take s.len

/-- `s[:i]`: keeps the capacity. -/
def upTo (s : Slice) (i : Nat) (hi : i ≤ s.len) : Slice :=
  { s with len := i, len_le_cap := hi.trans s.len_le_cap }

/-- Overwrite the cells of one array from position `at` on. -/
def write (h : Heap α) (array pos : Nat) (xs : List α) : Heap α :=
  h.modify array fun cells => cells.take pos ++ xs ++ cells.drop (pos + xs.length)

/-- Go's `append(s, xs...)`: in place when the capacity suffices, else in a
fresh array with `grow` cells or as many as are needed. -/
def append [Inhabited α] (grow : Nat → Nat → Nat) (h : Heap α) (s : Slice) (xs : List α) :
    Heap α × Slice :=
  if hfits : s.len + xs.length ≤ s.cap then
    (write h s.array (s.off + s.len) xs, { s with len := s.len + xs.length, len_le_cap := hfits })
  else
    let cap := max (s.len + xs.length) (grow s.cap (s.len + xs.length))
    (h ++ [s.read h ++ xs ++ List.replicate (cap - (s.len + xs.length)) default],
      { array := h.length, off := 0, len := s.len + xs.length, cap,
        len_le_cap := Nat.le_max_left _ _ })

/-! ## Reading -/

theorem length_read {h : Heap α} {s : Slice} (hs : s.Valid h) : (s.read h).length = s.len := by
  have hcap := s.len_le_cap
  have hroom := hs.2
  rw [read, List.length_take, List.length_drop]
  omega

theorem read_upTo (h : Heap α) (s : Slice) (i : Nat) (hi : i ≤ s.len) :
    (s.upTo i hi).read h = (s.read h).take i := by
  rw [read, read, List.take_take, Nat.min_eq_left hi]
  rfl

theorem valid_upTo {h : Heap α} {s : Slice} (hs : s.Valid h) (i : Nat) (hi : i ≤ s.len) :
    (s.upTo i hi).Valid h := hs

/-! ## Writing in place -/

theorem getD_write_self {h : Heap α} {array : Nat} (harray : array < h.length) (pos : Nat)
    (xs : List α) :
    (write h array pos xs).getD array [] =
      (h.getD array []).take pos ++ xs ++ (h.getD array []).drop (pos + xs.length) := by
  simp [write, List.getD_eq_getElem?_getD, harray]

/-- The length of every array is kept when the written cells exist. -/
theorem valid_write {h : Heap α} {s t : Slice} (hs : s.Valid h) (ht : t.Valid h) (pos : Nat)
    (xs : List α) (hpos : pos + xs.length ≤ s.off + s.cap) :
    t.Valid (write h s.array pos xs) := by
  obtain ⟨hsarray, hsroom⟩ := hs
  obtain ⟨htarray, htroom⟩ := ht
  refine ⟨by simpa [write] using htarray, ?_⟩
  by_cases harray : s.array = t.array
  · rw [← harray, getD_write_self hsarray]
    rw [← harray] at htroom
    simp only [List.length_append, List.length_take, List.length_drop]
    omega
  · simpa [write, List.getD_eq_getElem?_getD, List.getElem?_modify, harray] using htroom

/-- **Aliasing**: what a slice shows after cells of the same array, counted from
the same start, were overwritten from `n` on. -/
theorem read_write_alias {h : Heap α} {s t : Slice} (ht : t.Valid h) (harray : t.array = s.array)
    (hoff : t.off = s.off) (n : Nat) (xs : List α) (hn : n + xs.length ≤ t.cap) :
    t.read (write h s.array (s.off + n) xs) =
      ((((h.getD t.array []).drop t.off).take n) ++ xs ++
        ((h.getD t.array []).drop t.off).drop (n + xs.length)).take t.len := by
  obtain ⟨htarray, htroom⟩ := ht
  rw [read, harray, getD_write_self (harray ▸ htarray), hoff]
  rw [harray, hoff] at htroom
  have htake : (h.getD s.array []).take (s.off + n) =
      (h.getD s.array []).take s.off ++ ((h.getD s.array []).drop s.off).take n := by
    rw [List.take_add]
  have hlen : ((h.getD s.array []).take s.off).length = s.off := by
    rw [List.length_take]
    omega
  rw [htake, List.append_assoc, List.append_assoc, List.drop_append_of_le_length (by omega),
    List.drop_of_length_le (by omega), List.nil_append, List.drop_drop, List.append_assoc,
    Nat.add_assoc]

/-! ## Appending

Appending writes behind the end of the slice if there is room, where other slices of the same array
can see it, and else copies. -/

variable [Inhabited α] (grow : Nat → Nat → Nat)

theorem append_of_fits {h : Heap α} {s : Slice} {xs : List α} (hfits : s.len + xs.length ≤ s.cap) :
    s.append grow h xs = (write h s.array (s.off + s.len) xs,
      { s with len := s.len + xs.length, len_le_cap := hfits }) := dif_pos hfits

/-- The appended slice is valid in the new heap. -/
theorem valid_append {h : Heap α} {s : Slice} (hs : s.Valid h) (xs : List α) :
    (s.append grow h xs).2.Valid (s.append grow h xs).1 := by
  unfold append
  split
  · rename_i hfits
    exact valid_write (t := { s with len := s.len + xs.length, len_le_cap := hfits }) hs hs _ xs
      (by omega)
  · have hlen := length_read hs
    refine ⟨by simp, ?_⟩
    simp only [List.getD_eq_getElem?_getD, List.getElem?_concat_length, Option.getD_some,
      List.length_append, List.length_replicate, hlen]
    omega

/-- Slices valid before an append stay valid. -/
theorem valid_append_of_valid {h : Heap α} {s t : Slice} (hs : s.Valid h) (ht : t.Valid h)
    (xs : List α) : t.Valid (s.append grow h xs).1 := by
  unfold append
  split
  · exact valid_write hs ht _ xs (by omega)
  · obtain ⟨htarray, htroom⟩ := ht
    refine ⟨by simp; omega, ?_⟩
    simpa [List.getD_eq_getElem?_getD, List.getElem?_append_left htarray] using htroom

/-- **Appending shows the old elements and the new ones.** -/
theorem read_append {h : Heap α} {s : Slice} (hs : s.Valid h) (xs : List α) :
    (s.append grow h xs).2.read (s.append grow h xs).1 = s.read h ++ xs := by
  have hlen := length_read hs
  by_cases hfits : s.len + xs.length ≤ s.cap
  · rw [append_of_fits grow hfits]
    rw [read_write_alias (s := s) (t := { s with len := s.len + xs.length, len_le_cap := hfits })
      hs rfl rfl s.len xs hfits]
    show (s.read h ++ xs ++ _).take (s.len + xs.length) = s.read h ++ xs
    rw [List.take_append_of_le_length (by simp [hlen])]
    exact List.take_of_length_le (by simp [hlen])
  · rw [append, dif_neg hfits]
    show List.take _ (List.drop 0 (List.getD _ h.length [])) = _
    rw [List.drop_zero, List.getD_eq_getElem?_getD, List.getElem?_concat_length, Option.getD_some,
      List.take_append_of_le_length (by simp [hlen]), List.take_of_length_le (by simp [hlen])]

/-- **Aliasing of append**: a slice from the same array start, not longer than
the capacity, sees the appended elements where they overwrite its own. -/
theorem read_append_alias {h : Heap α} {s t : Slice} (ht : t.Valid h)
    (harray : t.array = s.array) (hoff : t.off = s.off) (hcap : t.cap = s.cap)
    (hle : s.len ≤ t.len) {xs : List α} (hfits : s.len + xs.length ≤ s.cap) :
    t.read (s.append grow h xs).1 =
      ((t.read h).take s.len ++ xs ++ (t.read h).drop (s.len + xs.length)).take t.len := by
  have hlen : s.len ≤ ((h.getD t.array []).drop t.off).length := by
    have hroom := ht.2
    have htcap := t.len_le_cap
    rw [List.length_drop]
    omega
  rw [append_of_fits grow hfits, read_write_alias ht harray hoff s.len xs (hcap ▸ hfits), read,
    List.take_take, Nat.min_eq_left hle, List.drop_take]
  have hpre : (((h.getD t.array []).drop t.off).take s.len ++ xs).length = s.len + xs.length := by
    rw [List.length_append, List.length_take, Nat.min_eq_left hlen]
  generalize ((h.getD t.array []).drop t.off).take s.len ++ xs = pre at hpre ⊢
  rw [List.take_append, hpre, List.take_append, hpre, List.take_take, Nat.min_self]

/-- **An append that moves** leaves what other slices show alone. -/
theorem read_append_fresh {h : Heap α} {s t : Slice} (ht : t.Valid h) {xs : List α}
    (hmoves : ¬ s.len + xs.length ≤ s.cap) :
    t.read (s.append grow h xs).1 = t.read h := by
  rw [append, dif_neg hmoves]
  simp [read, List.getD_eq_getElem?_getD, List.getElem?_append_left ht.1]

/-- An append never changes what the slice it started from shows. -/
theorem read_append_self {h : Heap α} {s : Slice} (hs : s.Valid h) (xs : List α) :
    s.read (s.append grow h xs).1 = s.read h := by
  by_cases hfits : s.len + xs.length ≤ s.cap
  · have hlen := length_read hs
    rw [read_append_alias grow hs rfl rfl rfl le_rfl hfits,
      List.take_of_length_le (l := s.read h) hlen.le, List.append_assoc, ← hlen, List.take_left]
  · exact read_append_fresh grow hs hfits

end Slice

end WptFyi.Lib
