import Mathlib

/-!
# Go maps

A Go map is a finite map (`Finmap`); ranging over it visits the entries in an
order the program cannot rely on, so what a loop over a map produces is taken
as a multiset, or the order is an explicit list.

The first is for loops that only emit something for each entry, the second for loops whose rounds
can see what earlier rounds did, such as writing to another map; there the order is a parameter of
the function and its proofs are for every order (`RangeOrder`). Writing the same keys in different
orders gives the same map as long as no key is written with two values, which is what most of the
lemmas on `insertAll` are for. A nil map is the empty one.

- `bindEntries`: everything a loop over the entries emits, as a multiset, with
  the effect of writing one entry;
- `filterMapValues`: a loop that builds a map with the same keys, or fewer;
- `insertAll`, `eraseAll`: loops that write or delete keys one by one;
- `upsert`: a loop that gathers items by key.
-/

namespace WptFyi.Lib

universe u v w

/-- A Go map with keys in `κ` and values in `ν`. -/
abbrev GoMap (κ : Type u) (ν : Type v) := Finmap fun _ : κ => ν

namespace GoMap

variable {κ : Type u} {ν : Type v} {β : Type w} [DecidableEq κ]

/-- Reading a key of a map after writing one. -/
theorem lookup_insert_eq_ite (m : GoMap κ ν) (k k' : κ) (v : ν) :
    (m.insert k v).lookup k' = if k' = k then some v else m.lookup k' := by
  by_cases h : k' = k
  · subst h
    rw [if_pos rfl, Finmap.lookup_insert]
  · rw [if_neg h, Finmap.lookup_insert_of_ne _ h]

/-- Writing what is already there changes nothing. -/
theorem insert_of_lookup {m : GoMap κ ν} {k : κ} {v : ν} (h : m.lookup k = some v) :
    m.insert k v = m := by
  refine Finmap.ext_lookup fun k' => ?_
  rw [lookup_insert_eq_ite]
  by_cases hk : k' = k
  · rw [if_pos hk, hk, h]
  · rw [if_neg hk]

/-! ## Loops over all entries -/

/-- What a loop over the entries emits. -/
def bindEntries (f : κ → ν → Multiset β) (m : GoMap κ ν) : Multiset β :=
  m.entries.bind fun e => f e.1 e.2

/-- A new entry adds what it emits. -/
theorem bindEntries_insert_of_notMem (f : κ → ν → Multiset β) {m : GoMap κ ν} {k : κ}
    (hk : k ∉ m) (v : ν) : bindEntries f (m.insert k v) = f k v + bindEntries f m := by
  rw [bindEntries, Finmap.entries_insert_of_notMem hk, Multiset.cons_bind]
  rfl

/-- One entry's share of what the map emits. -/
theorem bindEntries_eq_add_erase (f : κ → ν → Multiset β) {m : GoMap κ ν} {k : κ} {v : ν}
    (hk : m.lookup k = some v) : bindEntries f m = f k v + bindEntries f (m.erase k) := by
  have hm : m = (m.erase k).insert k v := by
    refine Finmap.ext_lookup fun k' => ?_
    rw [lookup_insert_eq_ite]
    by_cases h : k' = k
    · rw [if_pos h, h, hk]
    · rw [if_neg h, Finmap.lookup_erase_ne h]
  conv_lhs => rw [hm]
  exact bindEntries_insert_of_notMem f Finmap.notMem_erase_self v

/-- Overwriting an entry replaces its share. -/
theorem bindEntries_insert_of_lookup (f : κ → ν → Multiset β) {m : GoMap κ ν} {k : κ} {v : ν}
    (hk : m.lookup k = some v) {v' : ν} {added : Multiset β} (hv : f k v' = f k v + added) :
    bindEntries f (m.insert k v') = bindEntries f m + added := by
  have herase : (m.insert k v').erase k = m.erase k := by
    refine Finmap.ext_lookup fun k' => ?_
    by_cases h : k' = k
    · rw [h, Finmap.lookup_erase, Finmap.lookup_erase]
    · rw [Finmap.lookup_erase_ne h, Finmap.lookup_erase_ne h, Finmap.lookup_insert_of_ne _ h]
  rw [bindEntries_eq_add_erase f (Finmap.lookup_insert m), herase,
    bindEntries_eq_add_erase f hk, hv, add_right_comm]

/-! ## Maps built entry by entry

Maps that a loop fills by inserting, and what a lookup in them gives: the value that was inserted
last for the key. Keys stay without repetition. -/

omit [DecidableEq κ] in
/-- Dropping and rewriting values leaves keys apart. -/
theorem nodupKeys_filterMap {ν' : Type w} (f : ν → Option ν') {s : Multiset (Σ _ : κ, ν)}
    (hs : s.NodupKeys) :
    (s.filterMap fun e => (f e.2).map fun v => (⟨e.1, v⟩ : Σ _ : κ, ν')).NodupKeys := by
  induction s using Quotient.inductionOn with
  | _ l =>
    show List.NodupKeys (l.filterMap _)
    rw [List.nodupKeys_iff_pairwise]
    refine List.Pairwise.filterMap _ ?_ (List.nodupKeys_iff_pairwise.mp hs)
    intro a a' hne b hb b' hb'
    obtain ⟨_, _, rfl⟩ := Option.map_eq_some_iff.mp hb
    obtain ⟨_, _, rfl⟩ := Option.map_eq_some_iff.mp hb'
    exact hne

/-- Map each value, dropping the entries `f` has no value for. -/
def filterMapValues {ν' : Type w} (f : ν → Option ν') (m : GoMap κ ν) : GoMap κ ν' where
  entries := m.entries.filterMap fun e => (f e.2).map fun v => ⟨e.1, v⟩
  nodupKeys := nodupKeys_filterMap f m.nodupKeys

/-- The entry of a key comes from the entry of the same key. -/
theorem lookup_filterMapValues {ν' : Type w} (f : ν → Option ν') (m : GoMap κ ν) (k : κ) :
    (filterMapValues f m).lookup k = (m.lookup k).bind f := by
  refine Option.ext fun v' => ?_
  rw [Finmap.lookup_eq_some_iff, Option.bind_eq_some_iff]
  show _ ∈ m.entries.filterMap _ ↔ _
  rw [Multiset.mem_filterMap]
  constructor
  · rintro ⟨⟨k', v⟩, hmem, hf⟩
    obtain ⟨_, hv, heq⟩ := Option.map_eq_some_iff.mp hf
    cases heq
    exact ⟨v, Finmap.lookup_eq_some_iff.mpr hmem, hv⟩
  · rintro ⟨v, hv, hf⟩
    exact ⟨⟨k, v⟩, Finmap.lookup_eq_some_iff.mp hv, Option.map_eq_some_iff.mpr ⟨v', hf, rfl⟩⟩

/-- A map with the same keys. -/
def mapValues {ν' : Type w} (f : ν → ν') (m : GoMap κ ν) : GoMap κ ν' :=
  filterMapValues (fun v => some (f v)) m

@[simp] theorem lookup_mapValues {ν' : Type w} (f : ν → ν') (m : GoMap κ ν) (k : κ) :
    (mapValues f m).lookup k = (m.lookup k).map f := by
  rw [mapValues, lookup_filterMapValues]
  cases m.lookup k <;> rfl

theorem mapValues_insert {ν' : Type w} (f : ν → ν') (m : GoMap κ ν) (k : κ) (v : ν) :
    mapValues f (m.insert k v) = (mapValues f m).insert k (f v) := by
  refine Finmap.ext_lookup fun k' => ?_
  rw [lookup_mapValues, lookup_insert_eq_ite, lookup_insert_eq_ite, lookup_mapValues]
  split <;> rfl

theorem mem_mapValues {ν' : Type w} {f : ν → ν'} {m : GoMap κ ν} {k : κ} :
    k ∈ mapValues f m ↔ k ∈ m := by
  rw [← Finmap.lookup_isSome, lookup_mapValues, Option.isSome_map, Finmap.lookup_isSome]

theorem mapValues_union {ν' : Type w} (f : ν → ν') (m m' : GoMap κ ν) :
    mapValues f (m ∪ m') = mapValues f m ∪ mapValues f m' := by
  refine Finmap.ext_lookup fun k => ?_
  rw [lookup_mapValues]
  by_cases hk : k ∈ m
  · rw [Finmap.lookup_union_left hk, Finmap.lookup_union_left (mem_mapValues.mpr hk),
      lookup_mapValues]
  · rw [Finmap.lookup_union_right hk,
      Finmap.lookup_union_right fun h => hk (mem_mapValues.mp h), lookup_mapValues]

/-- Writing a key puts it among the keys. -/
theorem keys_insert (m : GoMap κ ν) (k : κ) (v : ν) : (m.insert k v).keys = insert k m.keys := by
  ext k'
  rw [Finmap.mem_keys, Finmap.mem_insert, Finset.mem_insert, Finmap.mem_keys]

/-- Writing entries one after the other. -/
def insertAll (m : GoMap κ ν) (kvs : List (κ × ν)) : GoMap κ ν :=
  kvs.foldl (fun m kv => m.insert kv.1 kv.2) m

@[simp] theorem insertAll_nil (m : GoMap κ ν) : m.insertAll [] = m := rfl

@[simp] theorem insertAll_cons (m : GoMap κ ν) (kv : κ × ν) (kvs : List (κ × ν)) :
    m.insertAll (kv :: kvs) = insertAll (m.insert kv.1 kv.2) kvs := rfl

theorem insertAll_append (m : GoMap κ ν) (kvs kvs' : List (κ × ν)) :
    m.insertAll (kvs ++ kvs') = (m.insertAll kvs).insertAll kvs' :=
  List.foldl_append

/-- A write whose key is written again later leaves nothing. -/
theorem insertAll_cons_of_mem {kv : κ × ν} {kvs : List (κ × ν)} (h : kv.1 ∈ kvs.map Prod.fst)
    (m : GoMap κ ν) : m.insertAll (kv :: kvs) = m.insertAll kvs := by
  induction kvs generalizing m with
  | nil => exact absurd h List.not_mem_nil
  | cons kv' kvs ih =>
    rw [insertAll_cons, insertAll_cons, insertAll_cons]
    by_cases heq : kv.1 = kv'.1
    · rw [heq, Finmap.insert_insert]
    · rw [Finmap.insert_insert_of_ne _ heq]
      have hrest : kv.1 ∈ kvs.map Prod.fst := (List.mem_cons.mp h).resolve_left heq
      exact ih hrest (m.insert kv'.1 kv'.2)

/-- Of the writes to a key the last one shows. -/
theorem lookup_insertAll (m : GoMap κ ν) (kvs : List (κ × ν)) (k : κ) :
    (m.insertAll kvs).lookup k = (kvs.reverse.lookup k).or (m.lookup k) := by
  induction kvs generalizing m with
  | nil => rfl
  | cons kv kvs ih =>
    rw [insertAll_cons, ih, lookup_insert_eq_ite, List.reverse_cons, List.lookup_append]
    by_cases hk : k = kv.1
    · have hsingle : List.lookup k [kv] = some kv.2 := by simp [List.lookup, hk]
      rw [if_pos hk, hsingle]
      cases kvs.reverse.lookup k <;> rfl
    · have hsingle : List.lookup k [kv] = none := by simp [List.lookup, beq_false_of_ne hk]
      rw [if_neg hk, hsingle, Option.or_none]

/-- What is found was written or there before. -/
theorem mem_or_lookup_of_lookup_insertAll {m : GoMap κ ν} {kvs : List (κ × ν)} {k : κ} {v : ν}
    (h : (m.insertAll kvs).lookup k = some v) : (k, v) ∈ kvs ∨ m.lookup k = some v := by
  induction kvs generalizing m with
  | nil => exact Or.inr h
  | cons kv kvs ih =>
    rcases ih h with hmem | hlookup
    · exact Or.inl (List.mem_cons_of_mem _ hmem)
    · rw [lookup_insert_eq_ite] at hlookup
      by_cases hk : k = kv.1
      · rw [if_pos hk] at hlookup
        rw [hk, ← Option.some.inj hlookup]
        exact Or.inl List.mem_cons_self
      · rw [if_neg hk] at hlookup
        exact Or.inr hlookup

/-- When no key is written with two values, the order of the writes does not
show: a key that is written has its value. -/
theorem lookup_insertAll_eq_some_iff {kvs : List (κ × ν)}
    (hkvs : ∀ kv ∈ kvs, ∀ kv' ∈ kvs, kv.1 = kv'.1 → kv.2 = kv'.2) (m : GoMap κ ν) {k : κ} {v : ν} :
    (m.insertAll kvs).lookup k = some v ↔
      (k, v) ∈ kvs ∨ (k ∉ kvs.map Prod.fst ∧ m.lookup k = some v) := by
  induction kvs generalizing m with
  | nil => simp
  | cons kv kvs ih =>
    have hrest : ∀ a ∈ kvs, ∀ b ∈ kvs, a.1 = b.1 → a.2 = b.2 := fun a ha b hb =>
      hkvs a (List.mem_cons_of_mem _ ha) b (List.mem_cons_of_mem _ hb)
    rw [insertAll_cons, ih hrest, lookup_insert_eq_ite, List.mem_cons, List.map_cons,
      List.mem_cons, not_or]
    by_cases hk : k = kv.1
    · rw [if_pos hk, Option.some_inj]
      constructor
      · rintro (hmem | ⟨_, hv⟩)
        · exact Or.inl (Or.inr hmem)
        · exact Or.inl (Or.inl (Prod.ext hk hv.symm))
      · rintro ((heq | hmem) | ⟨⟨hne, _⟩, _⟩)
        · -- a key that is written again is written with the same value
          by_cases hagain : k ∈ kvs.map Prod.fst
          · obtain ⟨kv', hkv', hfst⟩ := List.mem_map.mp hagain
            have hsame : kv.2 = kv'.2 := hkvs kv List.mem_cons_self kv'
              (List.mem_cons_of_mem _ hkv') (hk.symm.trans hfst.symm)
            have hv : v = kv.2 := congrArg Prod.snd heq
            rw [show (k, v) = kv' from Prod.ext hfst.symm (hv.trans hsame)]
            exact Or.inl hkv'
          · exact Or.inr ⟨hagain, (congrArg Prod.snd heq).symm⟩
        · exact Or.inl hmem
        · exact absurd hk hne
    · have hne : (k, v) ≠ kv := fun heq => hk (congrArg Prod.fst heq)
      rw [if_neg hk]
      simp only [hne, hk, false_or, not_false_eq_true, true_and]

/-- A loop that writes `f k` for the keys with `P k`, where `f` has a value. -/
theorem lookup_insertAll_of_mem_iff {kvs : List (κ × ν)} {P : κ → Prop} [DecidablePred P]
    {f : κ → Option ν} (hkvs : ∀ k v, (k, v) ∈ kvs ↔ P k ∧ f k = some v) (m : GoMap κ ν) (k : κ) :
    (m.insertAll kvs).lookup k = if P k then (f k).or (m.lookup k) else m.lookup k := by
  have hfun : ∀ kv ∈ kvs, ∀ kv' ∈ kvs, kv.1 = kv'.1 → kv.2 = kv'.2 := by
    rintro ⟨k, v⟩ hkv ⟨k', v'⟩ hkv' (rfl : k = k')
    exact Option.some_inj.mp (((hkvs _ _).mp hkv).2.symm.trans ((hkvs _ _).mp hkv').2)
  have hkeys : k ∈ kvs.map Prod.fst ↔ P k ∧ (f k).isSome := by
    simp only [List.mem_map, Prod.exists, exists_and_right, exists_eq_right, hkvs,
      exists_and_left, Option.isSome_iff_exists]
  refine Option.ext fun v => ?_
  rw [lookup_insertAll_eq_some_iff hfun, hkvs, hkeys]
  by_cases hP : P k
  · rw [if_pos hP]
    cases f k <;> simp [hP]
  · rw [if_neg hP]
    simp [hP]

/-- Deleting keys one after the other. -/
def eraseAll (m : GoMap κ ν) (ks : List κ) : GoMap κ ν := ks.foldl (fun m k => m.erase k) m

theorem lookup_eraseAll (m : GoMap κ ν) (ks : List κ) (k : κ) :
    (m.eraseAll ks).lookup k = if k ∈ ks then none else m.lookup k := by
  induction ks generalizing m with
  | nil => rw [if_neg List.not_mem_nil]; rfl
  | cons k' ks ih =>
    rw [eraseAll, List.foldl_cons, ← eraseAll, ih]
    by_cases hk : k = k'
    · subst hk
      rw [Finmap.lookup_erase, if_pos List.mem_cons_self, ite_self]
    · simp only [List.mem_cons, hk, false_or, Finmap.lookup_erase_ne hk]

theorem keys_eraseAll (m : GoMap κ ν) (ks : List κ) :
    (m.eraseAll ks).keys = m.keys \ ks.toFinset := by
  ext k
  rw [Finmap.mem_keys, ← Finmap.lookup_isSome, lookup_eraseAll, Finset.mem_sdiff,
    Finmap.mem_keys, List.mem_toFinset, ← Finmap.lookup_isSome]
  by_cases hk : k ∈ ks <;> simp [hk]

theorem mapValues_insertAll {ν' : Type w} (f : ν → ν') (m : GoMap κ ν) (kvs : List (κ × ν)) :
    mapValues f (m.insertAll kvs) =
      (mapValues f m).insertAll (kvs.map fun kv => (kv.1, f kv.2)) := by
  induction kvs generalizing m with
  | nil => rfl
  | cons kv kvs ih => rw [insertAll_cons, ih, mapValues_insert, List.map_cons, insertAll_cons]

theorem mapValues_eraseAll {ν' : Type w} (f : ν → ν') (m : GoMap κ ν) (ks : List κ) :
    mapValues f (m.eraseAll ks) = (mapValues f m).eraseAll ks := by
  refine Finmap.ext_lookup fun k => ?_
  rw [lookup_mapValues, lookup_eraseAll, lookup_eraseAll, lookup_mapValues]
  split <;> rfl

/-! ## Gathering by key

A loop that appends to the list of a key. At the end each key has the values that were given for
it, in their order. -/

section Upsert

variable {α : Type*} (key : α → κ) (init : α → ν) (step : ν → α → ν)

/-- Fold an item into the value of its key, which starts as `init` of it. -/
def upsert (m : GoMap κ ν) (a : α) : GoMap κ ν :=
  m.insert (key a) (step ((m.lookup (key a)).getD (init a)) a)

/-- The value of a key after folding the items that have it. -/
def gather : List α → Option ν
  | [] => none
  | a :: as => some ((a :: as).foldl step (init a))

theorem gather_snoc (as : List α) (a : α) :
    gather init step (as ++ [a]) = some (step ((gather init step as).getD (init a)) a) := by
  cases as with
  | nil => rfl
  | cons b as => simp [gather]

/-- **Gathering**: a key holds the fold of its own items, in their order. -/
theorem lookup_foldl_upsert (as : List α) (k : κ) :
    (as.foldl (upsert key init step) ∅).lookup k =
      gather init step (as.filter fun a => key a = k) := by
  induction as using List.reverseRecOn with
  | nil => rfl
  | append_singleton as a ih =>
    rw [List.foldl_append, List.foldl_cons, List.foldl_nil, upsert, lookup_insert_eq_ite,
      List.filter_append]
    by_cases hk : k = key a
    · subst hk
      rw [if_pos rfl, ih, List.filter_singleton, decide_eq_true rfl, cond_true, gather_snoc]
    · have hne : (decide (key a = k)) = false := decide_eq_false (Ne.symm hk)
      rw [if_neg hk, ih, List.filter_singleton, hne, cond_false, List.append_nil]

/-- Items are gathered under their own keys. -/
theorem keys_foldl_upsert (as : List α) :
    (as.foldl (upsert key init step) ∅).keys = (as.map key).toFinset := by
  ext k
  rw [Finmap.mem_keys, ← Finmap.lookup_isSome, lookup_foldl_upsert, List.mem_toFinset,
    List.mem_map]
  constructor
  · intro h
    cases hfilter : as.filter fun a => key a = k with
    | nil => simp [hfilter, gather] at h
    | cons a rest =>
      have hmem : a ∈ as.filter fun a => key a = k := by rw [hfilter]; exact List.mem_cons_self
      exact ⟨a, (List.mem_filter.mp hmem).1, by simpa using (List.mem_filter.mp hmem).2⟩
  · rintro ⟨a, ha, rfl⟩
    have hmem : a ∈ as.filter fun b => key b = key a := List.mem_filter.mpr ⟨ha, by simp⟩
    cases hfilter : as.filter fun b => key b = key a with
    | nil => rw [hfilter] at hmem; cases hmem
    | cons b rest => rfl

end Upsert

/-- The values of a map, in the order of no loop. -/
def values (m : GoMap κ ν) : Multiset ν := m.entries.map Sigma.snd

theorem values_eq_map_keys (m : GoMap κ ν) {f : κ → ν}
    (h : ∀ k v, m.lookup k = some v → f k = v) : m.values = m.keys.val.map f := by
  have hkeys : m.keys.val = m.entries.map Sigma.fst := rfl
  rw [values, hkeys, Multiset.map_map]
  refine Multiset.map_congr rfl fun e he => ?_
  exact (h e.1 e.2 (Finmap.lookup_eq_some_iff.mpr he)).symm

end GoMap

end WptFyi.Lib
