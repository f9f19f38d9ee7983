import Mathlib

/-!
# Objects of JavaScript used as dictionaries

The own properties of an object stand in the order in which they were added. Writing a
property that is there keeps its place.

Only `Object.values` goes by another order, with names that are array indices first. An object that
is made with `{}` has more properties than its own: it inherits those of `Object.prototype`, which
a lookup finds and a listing does not. Reading them is left to the code that does it; here a lookup
is one of an own property.

- `set`, `erase`: what the other properties are afterwards;
- `values`: `Object.values`, which lists array indices first.
-/

namespace WptFyi.Lib

/-- The own properties of an object, in the order in which they were added. -/
structure JsObject (β : Type*) where
  entries : List (String × β)
  nodupKeys : (entries.map Prod.fst).Nodup

namespace JsObject

variable {β γ : Type*} {o : JsObject β} {k k' : String} {v : β}

/-- `{}`. -/
def empty : JsObject β := ⟨[], List.nodup_nil⟩

/-- The names of the own properties. -/
def keys (o : JsObject β) : List String := o.entries.map Prod.fst

/-- `o[k]`, of an own property. -/
def get? (o : JsObject β) (k : String) : Option β := o.entries.lookup k

/-- The entries after `o[k] = v`. -/
def setEntries (k : String) (v : β) : List (String × β) → List (String × β)
  | [] => [(k, v)]
  | (k', v') :: entries => if k' = k then (k, v) :: entries else (k', v') :: setEntries k v entries

/-- A name that is there keeps its place, and a new one goes to the end. -/
theorem keys_setEntries (k : String) (v : β) (entries : List (String × β)) :
    (setEntries k v entries).map Prod.fst =
      if k ∈ entries.map Prod.fst then entries.map Prod.fst else entries.map Prod.fst ++ [k] := by
  induction entries with
  | nil => rfl
  | cons e entries ih =>
    obtain ⟨k', v'⟩ := e
    rw [setEntries]
    by_cases h : k' = k
    · subst h
      rw [if_pos rfl, List.map_cons, List.map_cons, if_pos List.mem_cons_self]
    · rw [if_neg h, List.map_cons, List.map_cons, ih]
      have hmem : k ∈ k' :: entries.map Prod.fst ↔ k ∈ entries.map Prod.fst :=
        ⟨fun hk => (List.mem_cons.mp hk).resolve_left fun hkk => h hkk.symm,
          List.mem_cons_of_mem _⟩
      simp only [hmem]
      split <;> rfl

/-- `o[k] = v`. -/
def set (o : JsObject β) (k : String) (v : β) : JsObject β where
  entries := setEntries k v o.entries
  nodupKeys := by
    rw [keys_setEntries]
    split_ifs with h
    · exact o.nodupKeys
    · exact List.nodup_append.mpr ⟨o.nodupKeys, List.nodup_singleton k, fun a ha b hb hab =>
        h (List.mem_singleton.mp hb ▸ hab ▸ ha)⟩

/-- `delete o[k]`. -/
def erase (o : JsObject β) (k : String) : JsObject β where
  entries := o.entries.filter fun e => e.1 ≠ k
  nodupKeys := o.nodupKeys.sublist (List.filter_sublist.map _)

/-- What is written is there afterwards, and nothing else is changed. -/
theorem lookup_setEntries (entries : List (String × β)) :
    (setEntries k v entries).lookup k' = if k' = k then some v else entries.lookup k' := by
  induction entries with
  | nil =>
    rw [setEntries, List.lookup_cons]
    by_cases h : k' = k
    · rw [if_pos h, beq_iff_eq.mpr h]
    · rw [if_neg h, beq_eq_false_iff_ne.mpr h]
  | cons e entries ih =>
    obtain ⟨k₀, v₀⟩ := e
    rw [setEntries]
    by_cases h₀ : k₀ = k
    · subst h₀
      rw [if_pos rfl, List.lookup_cons, List.lookup_cons]
      by_cases h : k' = k₀
      · rw [if_pos h, beq_iff_eq.mpr h]
      · rw [if_neg h, beq_eq_false_iff_ne.mpr h]
    · rw [if_neg h₀, List.lookup_cons, List.lookup_cons, ih]
      by_cases h : k' = k₀
      · subst h
        rw [beq_self_eq_true]
        exact (if_neg h₀).symm
      · rw [beq_eq_false_iff_ne.mpr h]

theorem get?_set : (o.set k v).get? k' = if k' = k then some v else o.get? k' :=
  lookup_setEntries o.entries

@[simp] theorem get?_set_self : (o.set k v).get? k = some v := by
  rw [get?_set, if_pos rfl]

theorem get?_set_of_ne (h : k' ≠ k) : (o.set k v).get? k' = o.get? k' := by
  rw [get?_set, if_neg h]

@[simp] theorem get?_empty : (empty : JsObject β).get? k = none := rfl

/-- With distinct names, the entries are what a lookup finds. -/
theorem mem_iff_lookup {entries : List (String × β)} (hnodup : (entries.map Prod.fst).Nodup) :
    (k, v) ∈ entries ↔ entries.lookup k = some v := by
  induction entries with
  | nil => simp
  | cons e entries ih =>
    obtain ⟨k', v'⟩ := e
    rw [List.map_cons, List.nodup_cons] at hnodup
    rw [List.mem_cons, List.lookup_cons]
    by_cases h : k = k'
    · subst h
      rw [beq_self_eq_true]
      have hfresh : (k, v) ∉ entries := fun hmem =>
        hnodup.1 (List.mem_map.mpr ⟨(k, v), hmem, rfl⟩)
      rw [or_iff_left hfresh, Prod.mk.injEq]
      exact ⟨fun hv => congrArg some hv.2.symm, fun hv => ⟨rfl, (Option.some.inj hv).symm⟩⟩
    · rw [beq_eq_false_iff_ne.mpr h, ← ih hnodup.2]
      exact or_iff_right fun hkv => h (congrArg Prod.fst hkv)

theorem mem_entries_iff : (k, v) ∈ o.entries ↔ o.get? k = some v := mem_iff_lookup o.nodupKeys

theorem mem_keys_iff : k ∈ o.keys ↔ (o.get? k).isSome := by
  rw [keys, List.mem_map, Option.isSome_iff_exists]
  constructor
  · rintro ⟨⟨k, v⟩, hmem, rfl⟩
    exact ⟨v, mem_entries_iff.mp hmem⟩
  · rintro ⟨v, hv⟩
    exact ⟨(k, v), mem_entries_iff.mpr hv, rfl⟩

theorem get?_erase : (o.erase k).get? k' = if k' = k then none else o.get? k' := by
  have hmem : ∀ v, (o.erase k).get? k' = some v ↔ k' ≠ k ∧ o.get? k' = some v := by
    intro v
    rw [← mem_entries_iff, erase, List.mem_filter, mem_entries_iff]
    simp [and_comm]
  refine Option.ext fun v => ?_
  rw [hmem]
  by_cases h : k' = k <;> simp [h]

/-! ## `Object.values` -/

/-- The array index that a property name is: a number without leading zeros. -/
def arrayIndex? (k : String) : Option Nat :=
  let digits := k.toList
  let n := digits.foldl (fun n d => 10 * n + (d.toNat - '0'.toNat)) 0
  if digits ≠ [] ∧ digits.all Char.isDigit ∧ (digits.head? = some '0' → digits = ['0']) ∧
      n < 2 ^ 32 - 1 then some n
  else none

/-- Own properties in the order in which `Object.values` visits them: array indices in
ascending order, then the others as they were added. -/
def ordered (o : JsObject β) : List (String × β) :=
  ((o.entries.filter fun e => (arrayIndex? e.1).isSome).insertionSort fun e e' =>
      (arrayIndex? e.1).getD 0 ≤ (arrayIndex? e'.1).getD 0) ++
    o.entries.filter fun e => !(arrayIndex? e.1).isSome

/-- `Object.values(o)`. -/
def values (o : JsObject β) : List β := o.ordered.map Prod.snd

theorem ordered_perm (o : JsObject β) : o.ordered.Perm o.entries :=
  ((List.perm_insertionSort _ _).append_right _).trans (List.filter_append_perm _ _)

end JsObject

end WptFyi.Lib
