import WptFyi.Cache.Lru
import WptFyi.Lib.Runs

/-!
# Concurrent calls of the LRU (`cache/lru/lru.go`)

`EvictLRU` reads the length of the collection without the lock, computes from it how many
values are to go, and takes the lock for the eviction only. What other calls do in between
is any of their steps. Another eviction that comes in between takes values away, so that
the number computed before may be more than there are, and `vs[:num]` panics then
(`twoEvictions_panics`); accesses that come in between take none away.

- `LruCalls.step`: the steps of all calls, an access, the read and the eviction under the
  lock;
- `Balanced`: the invariant behind `count_returned_le`: of the accesses to a value that is
  there one is not used up yet, so a value is returned no more often than it was accessed;
- `HoldsEnough`: when the slice is not cut beyond its length;
- `LastHolds`: the invariant of runs in which calls do not overlap: the one call between its
  read and its eviction will find what it computed;
- `runMeets_of_oneAtATime`: such runs are as they should be.
-/

namespace WptFyi.Cache

open Lib

/-- How many values are to go: `int(math.Max(1.0, numValuesToDelete))`. A percentage that is
not a number makes that product none either; what `int` gives for it is up to the machine. -/
def numToDelete (intOfNaN : Int) (percent : Option Percent) (n : Nat) : Int :=
  match percent with
  | none => intOfNaN
  | some percent => max 1 (percent.floorOf n : Int)

/-- `syncEvictLRU` on a listing: `vs[:num]` panics beyond the length. -/
def Lru.syncEvictLRU (l : Lru) (num : Int) (entries : List (Σ _ : Int, Int)) :
    Option (List Int × Lru) :=
  if 0 ≤ num ∧ num ≤ entries.length then
    let removed := (entries.take num.toNat).map Sigma.fst
    some (removed, ⟨l.values.eraseAll removed⟩)
  else none

/-- Without other calls in between, the two halves are the eviction. -/
theorem Lru.syncEvictLRU_numToDelete (l : Lru) (intOfNaN : Int) (percent : Percent)
    {entries : List (Σ _ : Int, Int)} (hne : entries ≠ []) :
    l.syncEvictLRU (numToDelete intOfNaN (some percent) entries.length) entries =
      some (l.evictLRU percent entries) := by
  have hlength := List.length_pos_iff.mpr hne
  have hfloor := percent.floorOf_le entries.length
  have hnum : numToDelete intOfNaN (some percent) entries.length =
      ((max 1 (percent.floorOf entries.length) : Nat) : Int) := by
    simp [numToDelete]
  rw [Lru.syncEvictLRU, hnum, if_pos (by omega), Lru.evictLRU, if_neg (by omega), Int.toNat_natCast]

/-! ## Interleavings -/

/-- The collection, the calls of `EvictLRU` that have read the length, each with the number
it computed, and what has been accessed and returned so far. -/
structure LruCalls where
  lru : Lru := .empty
  calls : GoMap Nat Int := ∅
  accessed : List Int := []
  returned : List Int := []
  panicked : Bool := false

inductive LruLabel where
  | access (v now : Int)
  | readLength (call : Nat) (percent : Option Percent)
  | syncEvictLRU (call : Nat) (entries : List (Σ _ : Int, Int))

namespace LruCalls

/-- One step; of an empty collection nothing is to go, and the call is over. -/
def step (intOfNaN : Int) (s : LruCalls) : LruLabel → Option LruCalls
  | .access v now => some { s with lru := s.lru.access v now, accessed := s.accessed ++ [v] }
  | .readLength call percent =>
    if call ∈ s.calls then none
    else if s.lru.values.keys.card = 0 then some s
    else some { s with
      calls := s.calls.insert call (numToDelete intOfNaN percent s.lru.values.keys.card) }
  | .syncEvictLRU call entries =>
    match s.calls.lookup call with
    | none => none
    | some num =>
      if s.lru.IsListing entries then
        match s.lru.syncEvictLRU num entries with
        -- the lock is released
        | none => some { s with calls := s.calls.erase call, panicked := true }
        | some (removed, lru) =>
          some { s with lru, calls := s.calls.erase call, returned := s.returned ++ removed }
      else none

/-! ## One step -/

section Step

variable {intOfNaN : Int} {s s' : LruCalls} {call : Nat} {entries : List (Σ _ : Int, Int)}
  {percent : Option Percent}

theorem step_readLength (h : s.step intOfNaN (.readLength call percent) = some s') :
    s' = s ∨ s.lru.values.keys.card ≠ 0 ∧ s' = { s with
      calls := s.calls.insert call (numToDelete intOfNaN percent s.lru.values.keys.card) } := by
  rw [step] at h
  split_ifs at h with hcall hempty
  · exact Or.inl (Option.some.inj h).symm
  · exact Or.inr ⟨hempty, (Option.some.inj h).symm⟩

/-- An eviction panics, or the first entries of the listing go. -/
theorem step_syncEvictLRU (h : s.step intOfNaN (.syncEvictLRU call entries) = some s') :
    ∃ num, s.calls.lookup call = some num ∧ s.lru.IsListing entries ∧
      ((¬ (0 ≤ num ∧ num ≤ entries.length) ∧
          s' = { s with calls := s.calls.erase call, panicked := true }) ∨
        (0 ≤ num ∧ num ≤ entries.length) ∧
          s' = { s with
            lru := ⟨s.lru.values.eraseAll ((entries.take num.toNat).map Sigma.fst)⟩
            calls := s.calls.erase call
            returned := s.returned ++ (entries.take num.toNat).map Sigma.fst }) := by
  rw [step] at h
  cases hlookup : s.calls.lookup call with
  | none =>
    rw [hlookup] at h
    exact absurd h (by simp)
  | some num =>
    rw [hlookup] at h
    simp only at h
    split_ifs at h with hlisting
    refine ⟨num, rfl, hlisting, ?_⟩
    by_cases hnum : 0 ≤ num ∧ num ≤ entries.length
    · rw [Lru.syncEvictLRU, if_pos hnum] at h
      exact Or.inr ⟨hnum, (Option.some.inj h).symm⟩
    · rw [Lru.syncEvictLRU, if_neg hnum] at h
      exact Or.inl ⟨hnum, (Option.some.inj h).symm⟩

/-- What an eviction returns was there, each value once, and is there no more. -/
def RemovesReturned (s s' : LruCalls) : Prop :=
  ∃ removed, s'.returned = s.returned ++ removed ∧ removed.Nodup ∧
    (∀ v ∈ removed, v ∈ s.lru.values.keys) ∧
    s'.lru.values.keys = s.lru.values.keys \ removed.toFinset

theorem removesReturned_of_step (h : s.step intOfNaN (.syncEvictLRU call entries) = some s') :
    RemovesReturned s s' := by
  obtain ⟨num, -, hlisting, ⟨-, rfl⟩ | ⟨-, rfl⟩⟩ := step_syncEvictLRU h
  · exact ⟨[], (List.append_nil _).symm, List.nodup_nil, fun v hv => absurd hv List.not_mem_nil,
      by simp⟩
  · have hsub := (List.take_sublist num.toNat entries).map Sigma.fst
    exact ⟨_, rfl, hlisting.nodup.sublist hsub, fun v hv => hlisting.mem_keys (hsub.subset hv),
      GoMap.keys_eraseAll _ _⟩

/-! ## Returned at most once per access -/

/-- Of the accesses to a value one is not used up while the value is there. -/
def Balanced (s : LruCalls) : Prop :=
  ∀ v, s.returned.count v + (if v ∈ s.lru.values.keys then 1 else 0) ≤ s.accessed.count v

/-- A call that has removed its runs returns them: nothing is added or lost. -/
theorem Balanced.removesReturned (hs : s.Balanced) (h : RemovesReturned s s')
    (haccessed : s'.accessed = s.accessed) : s'.Balanced := by
  obtain ⟨removed, hreturned, hnodup, hpresent, hkeys⟩ := h
  intro v
  have hv := hs v
  rw [hreturned, haccessed, hkeys, List.count_append]
  simp only [Finset.mem_sdiff, List.mem_toFinset]
  by_cases hmem : v ∈ removed
  · -- the eviction takes the value out and uses up the access
    rw [if_pos (hpresent v hmem)] at hv
    rw [List.count_eq_one_of_mem hnodup hmem, if_neg (fun h => h.2 hmem)]
    exact hv
  · rw [List.count_eq_zero_of_not_mem hmem]
    simp only [hmem, not_false_eq_true, and_true]
    exact hv

/-- **Step**: what was accessed is still there, or was returned, or will be. -/
theorem Balanced.step {label : LruLabel} (hs : s.Balanced) (h : s.step intOfNaN label = some s') :
    s'.Balanced := by
  cases label with
  | access v now =>
    obtain rfl := Option.some.inj h
    intro w
    have hw := hs w
    show s.returned.count w + (if w ∈ (s.lru.access v now).values.keys then 1 else 0) ≤
      (s.accessed ++ [v]).count w
    rw [Lru.keys_access, List.count_append]
    by_cases heq : v = w
    · subst heq
      rw [if_pos (Finset.mem_insert_self v _), List.count_singleton_self]
      omega
    · have hcount : [v].count w = 0 := List.count_eq_zero_of_not_mem (by simp [Ne.symm heq])
      rw [hcount]
      simp only [Finset.mem_insert, Ne.symm heq, false_or]
      exact hw
  | readLength call percent =>
    rcases step_readLength h with rfl | ⟨-, rfl⟩
    · exact hs
    · exact hs
  | syncEvictLRU call entries =>
    refine hs.removesReturned (removesReturned_of_step h) ?_
    obtain ⟨num, -, -, ⟨-, rfl⟩ | ⟨-, rfl⟩⟩ := step_syncEvictLRU h
    · rfl
    · rfl

theorem count_returned_le (h : Reachable (step intOfNaN) {} s) (v : Int) :
    s.returned.count v ≤ s.accessed.count v := by
  have hempty : Balanced {} := by
    intro v
    simp [Lru.empty]
  exact (Nat.le_add_right _ _).trans (h.invariant hempty (fun hs hstep => hs.step hstep) v)

/-! ## Cuts beyond the length -/

/-- When the call gets the lock, the collection has as many values as are to go. -/
def HoldsEnough (s : LruCalls) (call : Nat) : Prop :=
  ∀ num, s.calls.lookup call = some num → 0 ≤ num ∧ num ≤ s.lru.values.keys.card

/-- Only an eviction that finds fewer runs than it counted panics. -/
theorem panicked_step_iff {label : LruLabel} (h : s.step intOfNaN label = some s') :
    s'.panicked = false ↔ s.panicked = false ∧
      ∀ call entries, label = .syncEvictLRU call entries → s.HoldsEnough call := by
  cases label with
  | access v now =>
    obtain rfl := Option.some.inj h
    simp
  | readLength call percent =>
    rcases step_readLength h with rfl | ⟨-, rfl⟩ <;> simp
  | syncEvictLRU call entries =>
    obtain ⟨num, hlookup, hlisting, hcases⟩ := step_syncEvictLRU h
    have hholds : s.HoldsEnough call ↔ 0 ≤ num ∧ num ≤ entries.length := by
      rw [HoldsEnough, hlisting.length]
      simp [hlookup]
    have hlabel : (∀ call' entries',
        LruLabel.syncEvictLRU call entries = .syncEvictLRU call' entries' →
          s.HoldsEnough call') ↔ s.HoldsEnough call := by
      simp only [LruLabel.syncEvictLRU.injEq, and_imp]
      exact ⟨fun h => h call entries rfl rfl, fun h _ _ hcall _ => hcall ▸ h⟩
    rw [hlabel, hholds]
    rcases hcases with ⟨hnum, rfl⟩ | ⟨hnum, rfl⟩
    · simp only [Bool.true_eq_false, hnum, and_false]
    · simp only [hnum, and_true]

end Step

/-! ## Runs -/

/-- What a run of concurrent calls should be like. -/
structure RunMeets (intOfNaN : Int) (labels : List LruLabel) (s : LruCalls) : Prop where
  cuts : s.panicked = false
  evictions : ∀ seen call entries later before after,
    labels = seen ++ .syncEvictLRU call entries :: later →
    run (step intOfNaN) {} seen = some before →
    before.step intOfNaN (.syncEvictLRU call entries) = some after → RemovesReturned before after
  counts : ∀ v, s.returned.count v ≤ s.accessed.count v

/-- Nothing but the least. -/
def leastPercent : Percent := ⟨fun _ => 0, fun _ => Nat.zero_le _⟩

/-- Two evictions of a single value, both of which read the length before. -/
def twoEvictions : List LruLabel :=
  [.access 1 10, .readLength 0 (some leastPercent), .readLength 1 (some leastPercent),
    .syncEvictLRU 0 [⟨1, 10⟩], .syncEvictLRU 1 []]

/-- The second one cuts a slice of no values after the first. -/
theorem twoEvictions_panics :
    ∃ s, run (step 0) {} twoEvictions = some s ∧ ¬ RunMeets 0 twoEvictions s := by
  have hpanicked : (run (step 0) {} twoEvictions).map LruCalls.panicked = some true := by
    decide +kernel
  obtain ⟨s, hrun, hs⟩ := Option.map_eq_some_iff.mp hpanicked
  refine ⟨s, hrun, fun h => ?_⟩
  rw [h.cuts] at hs
  exact absurd hs (by decide)

/-! ## One eviction at a time

While only one call is between reading the length and the lock, the length it has read is at most
what is there: other calls add values but take none away. -/

/-- No call of `EvictLRU` starts before the last is over, and the percentage is a number. -/
def OneAtATime (s : LruCalls) : LruLabel → Prop
  | .readLength _ percent => s.calls = ∅ ∧ percent.isSome
  | .access _ _ | .syncEvictLRU _ _ => True

instance (s : LruCalls) : ∀ label, Decidable (s.OneAtATime label)
  | .access _ _ | .syncEvictLRU _ _ => .isTrue trivial
  | .readLength _ percent => inferInstanceAs (Decidable (s.calls = ∅ ∧ percent.isSome))

/-- The only call under way finds what it needs. -/
def LastHolds (s : LruCalls) : Prop :=
  s.calls = ∅ ∨ ∃ (call : Nat) (num : Int), s.calls = (∅ : GoMap Nat Int).insert call num ∧
    0 ≤ num ∧ num ≤ s.lru.values.keys.card

section OneAtATime

variable {intOfNaN : Int} {s s' : LruCalls} {label : LruLabel}

theorem LastHolds.holdsEnough (h : s.LastHolds) (call : Nat) : s.HoldsEnough call := by
  intro num hlookup
  rcases h with hnone | ⟨last, num', hcalls, hnum⟩
  · rw [hnone, Finmap.lookup_empty] at hlookup
    exact absurd hlookup (by simp)
  · rw [hcalls, GoMap.lookup_insert_eq_ite] at hlookup
    split_ifs at hlookup with hcall
    · obtain rfl := Option.some.inj hlookup
      exact hnum
    · rw [Finmap.lookup_empty] at hlookup
      exact absurd hlookup (by simp)

/-- The last call is over when it has got the lock. -/
theorem LastHolds.erase (h : s.LastHolds) {call : Nat} {num : Int}
    (hlookup : s.calls.lookup call = some num) : s.calls.erase call = ∅ := by
  rcases h with hnone | ⟨last, num', hcalls, -⟩
  · rw [hnone, Finmap.lookup_empty] at hlookup
    exact absurd hlookup (by simp)
  · rw [hcalls, GoMap.lookup_insert_eq_ite] at hlookup
    split_ifs at hlookup with hcall
    · subst hcall
      refine Finmap.ext_lookup fun k => ?_
      by_cases hk : k = call
      · rw [hk, Finmap.lookup_erase, Finmap.lookup_empty]
      · rw [Finmap.lookup_erase_ne hk, hcalls, Finmap.lookup_insert_of_ne _ hk]
    · rw [Finmap.lookup_empty] at hlookup
      exact absurd hlookup (by simp)

/-- **Step**: while one call is in its eviction no other one looks at the length, so what it has
read stays true. -/
theorem LastHolds.step (hs : s.LastHolds) (hlabel : s.OneAtATime label)
    (h : s.step intOfNaN label = some s') : s'.LastHolds := by
  cases label with
  | access v now =>
    obtain rfl := Option.some.inj h
    rcases hs with hnone | ⟨call, num, hcalls, hnonneg, hle⟩
    · exact Or.inl hnone
    · -- an access takes no value away
      have hcard : s.lru.values.keys.card ≤ (s.lru.access v now).values.keys.card := by
        rw [Lru.keys_access]
        exact Finset.card_le_card (Finset.subset_insert _ _)
      exact Or.inr ⟨call, num, hcalls, hnonneg, hle.trans (by exact_mod_cast hcard)⟩
  | readLength call percent =>
    obtain ⟨hnone, hnumber⟩ := hlabel
    obtain ⟨percent, rfl⟩ := Option.isSome_iff_exists.mp hnumber
    rcases step_readLength h with rfl | ⟨hne, rfl⟩
    · exact hs
    · have hfloor := percent.floorOf_le s.lru.values.keys.card
      refine Or.inr ⟨call, numToDelete intOfNaN (some percent) s.lru.values.keys.card, ?_, ?_⟩
      · show s.calls.insert call _ = _
        rw [hnone]
      · show 0 ≤ max 1 ((percent.floorOf s.lru.values.keys.card : Nat) : Int) ∧
          max 1 ((percent.floorOf s.lru.values.keys.card : Nat) : Int) ≤ s.lru.values.keys.card
        omega
  | syncEvictLRU call entries =>
    obtain ⟨num, hlookup, -, ⟨-, rfl⟩ | ⟨-, rfl⟩⟩ := step_syncEvictLRU h
    · exact Or.inl (hs.erase hlookup)
    · exact Or.inl (hs.erase hlookup)

/-- So far nothing was cut beyond its length, nor will the call under way do so. -/
structure SafeSoFar (s : LruCalls) : Prop where
  last : s.LastHolds
  cuts : s.panicked = false

theorem SafeSoFar.step (hs : s.SafeSoFar) (hlabel : s.OneAtATime label)
    (h : s.step intOfNaN label = some s') : s'.SafeSoFar where
  last := hs.last.step hlabel h
  cuts := (panicked_step_iff h).mpr ⟨hs.cuts, fun call _ _ => hs.last.holdsEnough call⟩

/-- **Calls of `EvictLRU` that do not overlap meet what is expected of them**, whatever
accesses come in between: nothing is cut beyond its length, and what an eviction returns
was there and is gone. -/
theorem runMeets_of_oneAtATime (intOfNaN : Int) (labels : List LruLabel) (s : LruCalls)
    (hrun : run (step intOfNaN) {} labels = some s)
    (hone : EachMeets (step intOfNaN) OneAtATime {} labels) : RunMeets intOfNaN labels s := by
  have hsafe : s.SafeSoFar :=
    (ReachableWith.init.run_of_eachMeets hone hrun).invariant ⟨Or.inl rfl, rfl⟩ SafeSoFar.step
  refine ⟨hsafe.cuts, ?_, count_returned_le ⟨labels, hrun⟩⟩
  intro seen call entries later before after _ _ hstep
  exact removesReturned_of_step hstep

/-- Two evictions one after the other. While the first one waits for the lock a third value
comes, and between the two the value that went comes back. -/
def oneAfterTheOther : List LruLabel :=
  [.access 1 10, .access 2 20, .readLength 0 (some leastPercent), .access 3 30,
    .syncEvictLRU 0 [⟨1, 10⟩, ⟨2, 20⟩, ⟨3, 30⟩], .access 1 40,
    .readLength 1 (some leastPercent), .syncEvictLRU 1 [⟨2, 20⟩, ⟨3, 30⟩, ⟨1, 40⟩]]

theorem runMeets_of_oneAtATime_returns : ∃ s, run (step 0) {} oneAfterTheOther = some s ∧
    RunMeets 0 oneAfterTheOther s ∧ s.returned = [1, 2] := by
  have hreturned : (run (step 0) {} oneAfterTheOther).map LruCalls.returned = some [1, 2] := by
    decide +kernel
  obtain ⟨s, hrun, hs⟩ := Option.map_eq_some_iff.mp hreturned
  exact ⟨s, hrun, runMeets_of_oneAtATime 0 oneAfterTheOther s hrun (by decide +kernel), hs⟩

end OneAtATime

end LruCalls

end WptFyi.Cache
