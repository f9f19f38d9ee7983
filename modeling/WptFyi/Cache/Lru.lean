import WptFyi.Lib.GoMap

/-!
# The LRU collection (`cache/lru/lru.go`)

Values with the time each was last accessed. An eviction sorts the entries by
that time; which of two entries accessed at the same time comes first is open,
so an eviction is given the sorted listing it works on.

The collection is a finite map from values to times, as in the source. An eviction is told how many
entries to remove by a `Percent`, that is by a function from the number of entries to the number to
remove, of which only the bound matters here; that the product of two doubles gives such a number is
in `Eviction`, and that another call may change the number of entries between the look at it and the
eviction is in `LruConcurrency`. An eviction of a collection that is not empty removes one entry at
least, whatever the percentage is.

- `access`, `evictLRU`: the two operations;
- `keys_access`, `keys_evictLRU`: what they do to the values kept;
- `evictLRU_spec`: what is evicted is in the collection, each value once.
-/

namespace WptFyi.Cache

open Lib

/-- A percentage clamped to `[0, 1]`, by `math.Floor(float64(n) * percent)`. The
product is rounded, but a factor of at most 1 does not lead above `n`. -/
structure Percent where
  floorOf : Nat → Nat
  floorOf_le : ∀ n, floorOf n ≤ n

/-- The values and the times of their last accesses. -/
structure Lru where
  values : GoMap Int Int

namespace Lru

def empty : Lru := ⟨∅⟩

/-- `Access`. -/
def access (l : Lru) (v : Int) (now : Int) : Lru := ⟨l.values.insert v now⟩

/-- A listing of the entries, oldest first, as sorting leaves it. -/
def IsListing (l : Lru) (entries : List (Σ _ : Int, Int)) : Prop :=
  (entries : Multiset (Σ _ : Int, Int)) = l.values.entries ∧
    entries.Pairwise fun a b => a.2 ≤ b.2

instance (l : Lru) (entries : List (Σ _ : Int, Int)) : Decidable (l.IsListing entries) :=
  inferInstanceAs (Decidable (_ ∧ _))

/-- `EvictLRU` on a listing: the values removed, at least one unless the
collection is empty. -/
def evictLRU (l : Lru) (percent : Percent) (entries : List (Σ _ : Int, Int)) : List Int × Lru :=
  if entries.length = 0 then ([], l)
  else
    let num := max 1 (percent.floorOf entries.length)
    let removed := (entries.take num).map Sigma.fst
    (removed, ⟨l.values.eraseAll removed⟩)

@[simp] theorem keys_access (l : Lru) (v now : Int) :
    (l.access v now).values.keys = insert v l.values.keys :=
  GoMap.keys_insert _ _ _

/-- Accessing values that are kept keeps the same values. -/
theorem keys_foldl_access (l : Lru) (now : Int → Int) {vs : List Int}
    (h : ∀ v ∈ vs, v ∈ l.values.keys) :
    (vs.foldl (fun l v => l.access v (now v)) l).values.keys = l.values.keys := by
  induction vs generalizing l with
  | nil => rfl
  | cons v vs ih =>
    obtain ⟨hv, hvs⟩ := List.forall_mem_cons.mp h
    have hkeys : (l.access v (now v)).values.keys = l.values.keys := by
      rw [keys_access, Finset.insert_eq_of_mem hv]
    rw [List.foldl_cons, ih, hkeys]
    rwa [hkeys]

/-- An eviction removes what it returns. -/
theorem keys_evictLRU (l : Lru) (percent : Percent) (entries : List (Σ _ : Int, Int)) :
    (l.evictLRU percent entries).2.values.keys =
      l.values.keys \ (l.evictLRU percent entries).1.toFinset := by
  unfold evictLRU
  split_ifs
  · simp
  · exact GoMap.keys_eraseAll _ _

theorem IsListing.nodup {l : Lru} {entries : List (Σ _ : Int, Int)} (h : l.IsListing entries) :
    (entries.map Sigma.fst).Nodup := by
  have hkeys := l.values.nodupKeys
  rw [← h.1] at hkeys
  exact Multiset.coe_nodupKeys.mp hkeys

theorem IsListing.mem_keys {l : Lru} {entries : List (Σ _ : Int, Int)} (h : l.IsListing entries)
    {v : Int} (hv : v ∈ entries.map Sigma.fst) : v ∈ l.values.keys := by
  obtain ⟨e, he, rfl⟩ := List.mem_map.mp hv
  have hmem : e ∈ l.values.entries := by
    rw [← h.1]
    exact he
  exact Finmap.mem_keys.mpr (Finmap.mem_of_lookup_eq_some (Finmap.lookup_eq_some_iff.mpr hmem))

theorem IsListing.length {l : Lru} {entries : List (Σ _ : Int, Int)} (h : l.IsListing entries) :
    entries.length = l.values.keys.card := by
  have hcard := congrArg Multiset.card h.1
  rw [Multiset.coe_card] at hcard
  rw [hcard]
  exact (Multiset.card_map _ _).symm

/-- The values removed are distinct and were kept. -/
theorem evictLRU_spec {l : Lru} {entries : List (Σ _ : Int, Int)} (h : l.IsListing entries)
    (percent : Percent) :
    (l.evictLRU percent entries).1.Nodup ∧
      ∀ v ∈ (l.evictLRU percent entries).1, v ∈ l.values.keys := by
  unfold evictLRU
  split_ifs
  · simp
  · have hsub := (List.take_sublist (max 1 (percent.floorOf entries.length)) entries).map Sigma.fst
    exact ⟨h.nodup.sublist hsub, fun v hv => h.mem_keys (hsub.subset hv)⟩

/-- At least one value goes, unless there is none. -/
theorem evictLRU_ne_nil {l : Lru} {entries : List (Σ _ : Int, Int)} (h : l.IsListing entries)
    (percent : Percent) (hne : l.values.keys ≠ ∅) : (l.evictLRU percent entries).1 ≠ [] := by
  have hentries : entries ≠ [] := by
    rintro rfl
    refine hne (Finset.eq_empty_of_forall_notMem fun v hv => ?_)
    obtain ⟨time, htime⟩ := Finmap.mem_iff.mp (Finmap.mem_keys.mp hv)
    have hmem := Finmap.lookup_eq_some_iff.mp htime
    rw [← h.1] at hmem
    exact absurd hmem (by simp)
  unfold evictLRU
  rw [if_neg (by simpa using hentries)]
  cases entries with
  | nil => exact absurd rfl hentries
  | cons e entries => simp [List.take_eq_nil_iff]

end Lru

end WptFyi.Cache
