import Mathlib

/-!
# Values settled one source at a time

Several sources may each give a value to one property. They are taken one after
the other: the first value is kept, an equal one replaces it, and a different one
is a conflict that some function of the two resolves. Values are equal when they
have the same key.

What comes out must not depend on the order of the sources. Two ways to resolve a
conflict have that:

- `Settled`: a conflict leaves one fixed value behind, which then conflicts with
  all others, so the outcome is a function of the set of keys;
- `Extremal`: the lesser of the two is kept, so the outcome is the least.

Both are stated as what the outcome has to be for a set of keys, and proved by induction over the
sources; that a permutation has the same outcome follows because it has the same set. Equality up to
the key is all one can have: which of two equal values is kept does depend on the order.

`foldlM_perm` is the same for a loop that may fail: where two steps can be
exchanged, the order is nobody's business.
-/

namespace WptFyi.Lib

universe u v w

section Settle

variable {V : Type u} {K : Type v} [DecidableEq K] (key : V → K) (resolve : V → V → V)

/-- What is kept after one more value. -/
def settle : Option V → V → Option V
  | none, v => some v
  | some kept, v => if key v = key kept then some v else some (resolve v kept)

def settleAll (vs : List V) : Option V := vs.foldl (settle key resolve) none

theorem settleAll_snoc (vs : List V) (v : V) :
    settleAll key resolve (vs ++ [v]) = settle key resolve (settleAll key resolve vs) v := by
  rw [settleAll, List.foldl_append]
  rfl

/-- The keys of a list of values. -/
def keysOf (vs : List V) : Set K := {k | ∃ v ∈ vs, key v = k}

omit [DecidableEq K] in
theorem keysOf_nil : keysOf key [] = ∅ :=
  Set.eq_empty_of_forall_notMem fun _ ⟨_, hmem, _⟩ => List.not_mem_nil hmem

omit [DecidableEq K] in
/-- One more value adds its key. -/
theorem keysOf_snoc (vs : List V) (v : V) :
    keysOf key (vs ++ [v]) = insert (key v) (keysOf key vs) := by
  ext k
  constructor
  · rintro ⟨w, hw, rfl⟩
    rcases List.mem_append.mp hw with hw | hw
    · exact Or.inr ⟨w, hw, rfl⟩
    · rw [List.mem_singleton.mp hw]
      exact Set.mem_insert _ _
  · rintro (rfl | ⟨w, hw, rfl⟩)
    · exact ⟨v, List.mem_append_right _ List.mem_cons_self, rfl⟩
    · exact ⟨w, List.mem_append_left _ hw, rfl⟩

end Settle

/-! ## A conflict leaves one value behind

The first value is kept as long as the others are equal to it. When two differ one fixed value is
left, whatever comes later, so the outcome is decided by the set of values. -/

section Settled

variable {V : Type u} {K : Type v}

/-- The outcome for a set of keys: nothing, the only key, or what a conflict leaves. -/
structure Settled (bottom : K) (ks : Set K) (outcome : Option K) : Prop where
  absent : outcome = none ↔ ks = ∅
  common : ∀ k, ks = {k} → outcome = some k
  conflicting : ks.Nontrivial → outcome = some bottom

/-- The set of keys decides. -/
theorem Settled.unique {bottom : K} {ks : Set K} {o o' : Option K} (h : Settled bottom ks o)
    (h' : Settled bottom ks o') : o = o' := by
  rcases ks.eq_empty_or_nonempty with hempty | hne
  · rw [h.absent.mpr hempty, h'.absent.mpr hempty]
  · obtain ⟨k, hk⟩ | hconflict := hne.exists_eq_singleton_or_nontrivial
    · rw [h.common k hk, h'.common k hk]
    · rw [h.conflicting hconflict, h'.conflicting hconflict]

/-- Without a conflict, what is kept is equal to everything given. -/
theorem Settled.eq_of_mem {bottom : K} {ks : Set K} {o : Option K} (h : Settled bottom ks o)
    (hagree : ¬ks.Nontrivial) {k : K} (hk : k ∈ ks) : o = some k := by
  obtain ⟨k', hk'⟩ := (Set.Nonempty.exists_eq_singleton_or_nontrivial ⟨k, hk⟩).resolve_right hagree
  have hkk' : k = k' := by rwa [hk'] at hk
  rw [h.common k' hk', hkk']

variable [DecidableEq K] {key : V → K} {resolve : V → V → V} {bottom : V}

/-- One more value. -/
theorem Settled.settle (hresolve : ∀ v w, resolve v w = bottom) {ks : Set K} {kept : Option V}
    (h : Settled (key bottom) ks (kept.map key)) (v : V) :
    Settled (key bottom) (insert (key v) ks) ((Lib.settle key resolve kept v).map key) := by
  have hne : (insert (key v) ks).Nonempty := ⟨key v, Set.mem_insert _ _⟩
  cases kept with
  | none =>
    have hempty : ks = ∅ := h.absent.mp rfl
    subst hempty
    refine ⟨?_, ?_, ?_⟩
    · exact iff_of_false (by simp [Lib.settle]) hne.ne_empty
    · intro k hk
      have hmem : key v ∈ ({k} : Set K) := hk ▸ Set.mem_insert _ _
      rw [Set.mem_singleton_iff.mp hmem.symm]
      rfl
    · intro hconflict
      rw [insert_empty_eq] at hconflict
      exact absurd hconflict Set.not_nontrivial_singleton
  | some w =>
    have hks : ks.Nonempty := Set.nonempty_iff_ne_empty.mpr fun he => by
      have := h.absent.mpr he
      cases this
    by_cases hvw : key v = key w
    · -- an equal value: the set may only have been a singleton, or the conflict was there before
      have hkept : (Lib.settle key resolve (some w) v).map key = some (key w) := by
        rw [Lib.settle, if_pos hvw, ← hvw]
        rfl
      rw [hkept]
      refine ⟨iff_of_false (by simp) hne.ne_empty, ?_, ?_⟩
      · intro k hk
        have hmem : key v ∈ ({k} : Set K) := hk ▸ Set.mem_insert _ _
        rw [← hvw, Set.mem_singleton_iff.mp hmem]
      · intro hconflict
        obtain ⟨k, hk⟩ | hnontrivial := hks.exists_eq_singleton_or_nontrivial
        · have hk' : key w = k := Option.some_inj.mp (h.common k hk)
          rw [hk, ← hk', hvw, Set.pair_eq_singleton] at hconflict
          exact absurd hconflict Set.not_nontrivial_singleton
        · exact h.conflicting hnontrivial
    · have hkept : (Lib.settle key resolve (some w) v).map key = some (key bottom) := by
        rw [Lib.settle, if_neg hvw, hresolve]
        rfl
      rw [hkept]
      refine ⟨iff_of_false (by simp) hne.ne_empty, ?_, fun _ => rfl⟩
      intro k hk
      -- a single key would be that of `v`, so `w` was kept for it already
      have hmem : key v ∈ ({k} : Set K) := hk ▸ Set.mem_insert _ _
      have hsub : ks ⊆ {k} := hk ▸ Set.subset_insert _ _
      have hwk : key w = k := by
        have := h.common k (hks.subset_singleton_iff.mp hsub)
        exact Option.some_inj.mp this
      exact absurd ((Set.mem_singleton_iff.mp hmem).trans hwk.symm) hvw

/-- **The outcome of a whole list is decided by its set of keys.** -/
theorem settled_settleAll (hresolve : ∀ v w, resolve v w = bottom) (vs : List V) :
    Settled (key bottom) (keysOf key vs) ((settleAll key resolve vs).map key) := by
  induction vs using List.reverseRecOn with
  | nil =>
    rw [keysOf_nil]
    exact ⟨iff_of_true rfl rfl, fun k hk => absurd hk (Set.singleton_ne_empty k).symm,
      fun hconflict => absurd hconflict.nonempty Set.not_nonempty_empty⟩
  | append_singleton vs v ih =>
    rw [keysOf_snoc, settleAll_snoc]
    exact ih.settle hresolve v

end Settled

/-! ## The lesser value is kept

When the lesser of two values is kept, the outcome is the least of all, in whichever order they
come. -/

section Extremal

variable {V : Type u} {K : Type v} [LinearOrder K] {key : V → K} {resolve : V → V → V}

/-- The outcome for a set of keys: nothing, or the least. -/
structure Extremal (ks : Set K) (outcome : Option K) : Prop where
  absent : outcome = none ↔ ks = ∅
  least : ∀ k, outcome = some k → IsLeast ks k

theorem Extremal.unique {ks : Set K} {o o' : Option K} (h : Extremal ks o) (h' : Extremal ks o') :
    o = o' := by
  cases o with
  | none => exact (h'.absent.mpr (h.absent.mp rfl)).symm
  | some k =>
    cases o' with
    | none =>
      have := h.absent.mpr (h'.absent.mp rfl)
      cases this
    | some k' => rw [(h.least k rfl).unique (h'.least k' rfl)]

/-- One more value. -/
theorem Extremal.settle (hresolve : ∀ v w, key (resolve v w) = min (key v) (key w)) {ks : Set K}
    {kept : Option V} (h : Extremal ks (kept.map key)) (v : V) :
    Extremal (insert (key v) ks) ((Lib.settle key resolve kept v).map key) := by
  have hne : (insert (key v) ks) ≠ ∅ := (Set.insert_nonempty _ _).ne_empty
  cases kept with
  | none =>
    have hempty : ks = ∅ := h.absent.mp rfl
    subst hempty
    refine ⟨iff_of_false (by simp [Lib.settle]) hne, ?_⟩
    rintro k ⟨⟩
    rw [insert_empty_eq]
    exact isLeast_singleton
  | some w =>
    have hkept : (Lib.settle key resolve (some w) v).map key = some (min (key v) (key w)) := by
      by_cases hvw : key v = key w
      · rw [Lib.settle, if_pos hvw, ← hvw, min_self]
        rfl
      · rw [Lib.settle, if_neg hvw, ← hresolve]
        rfl
    rw [hkept]
    refine ⟨iff_of_false (by simp) hne, ?_⟩
    rintro k ⟨⟩
    exact (h.least _ rfl).insert (key v)

/-- **The outcome of a whole list is the least of its keys.** -/
theorem extremal_settleAll (hresolve : ∀ v w, key (resolve v w) = min (key v) (key w))
    (vs : List V) : Extremal (keysOf key vs) ((settleAll key resolve vs).map key) := by
  induction vs using List.reverseRecOn with
  | nil =>
    rw [keysOf_nil]
    exact ⟨iff_of_true rfl rfl, fun k hk => nomatch hk⟩
  | append_singleton vs v ih =>
    rw [keysOf_snoc, settleAll_snoc]
    exact ih.settle hresolve v

end Extremal

/-! ## Loops that may fail -/

/-- Where two steps can be exchanged, failures included, the order of a whole loop
does not count. -/
theorem foldlM_perm {σ : Type u} {α : Type v} {step : σ → α → Option σ}
    (hswap : ∀ s a b, (step s a).bind (step · b) = (step s b).bind (step · a)) {as bs : List α}
    (hperm : as.Perm bs) (s : σ) : as.foldlM step s = bs.foldlM step s := by
  induction hperm generalizing s with
  | nil => rfl
  | cons a _ ih =>
    show (step s a).bind _ = (step s a).bind _
    congr 1
    funext s'
    exact ih s'
  | swap a b l =>
    show (step s b).bind (fun s' => (step s' a).bind fun s'' => l.foldlM step s'') =
      (step s a).bind fun s' => (step s' b).bind fun s'' => l.foldlM step s''
    rw [← Option.bind_assoc, ← Option.bind_assoc, hswap]
  | trans _ _ ih₁ ih₂ => exact (ih₁ s).trans (ih₂ s)

end WptFyi.Lib
