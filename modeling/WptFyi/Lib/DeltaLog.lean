import WptFyi.Lib.GoMap

/-!
# Delta logs

A map observed repeatedly can be kept as a log that records, for each
observation, only the keys whose value changed. This file is about one round:
a list `obs` has the observed values, each key once, and `deltas m obs` is what goes
to the log when the values so far are `m`.

Replaying a log means writing its entries into a map in their order. A key that is observed with
the value it has makes no entry, and leaving the entry out changes nothing when it is replayed;
that each key comes once in a round is needed because the values so far are those before the round.
Rounds are put one after the other with `replay_append`, so that what is said of one round holds of
a history by induction on the rounds.

- `replay`: the map a log stands for;
- `replay_deltas`: replaying the deltas gives what replaying every observation
  would have given;
- `mem_keys_deltas_iff`: a key is logged exactly when its value changes.
-/

namespace WptFyi.Lib

universe u v

namespace DeltaLog

variable {κ : Type u} {ν : Type v} [DecidableEq κ]

/-- The map a log stands for, on top of `m`: the last entry of a key wins. -/
def replay (m : GoMap κ ν) (log : List (κ × ν)) : GoMap κ ν :=
  log.foldl (fun m entry => m.insert entry.1 entry.2) m

@[simp] theorem replay_nil (m : GoMap κ ν) : replay m [] = m := rfl

@[simp] theorem replay_cons (m : GoMap κ ν) (entry : κ × ν) (log : List (κ × ν)) :
    replay m (entry :: log) = replay (m.insert entry.1 entry.2) log := rfl

theorem replay_append (m : GoMap κ ν) (log log' : List (κ × ν)) :
    replay m (log ++ log') = replay (replay m log) log' := List.foldl_append

theorem replay_snoc (m : GoMap κ ν) (log : List (κ × ν)) (entry : κ × ν) :
    replay m (log ++ [entry]) = (replay m log).insert entry.1 entry.2 := replay_append m log [entry]

/-- A key the log does not mention keeps its value. -/
theorem lookup_replay_of_notMem {m : GoMap κ ν} {log : List (κ × ν)} {k : κ}
    (hk : k ∉ log.map Prod.fst) : (replay m log).lookup k = m.lookup k := by
  induction log generalizing m with
  | nil => rfl
  | cons entry log ih =>
    rw [List.map_cons, List.mem_cons, not_or] at hk
    rw [replay_cons, ih hk.2, Finmap.lookup_insert_of_ne _ hk.1]

/-- A key the log mentions once has the value given there. -/
theorem lookup_replay_of_mem {m : GoMap κ ν} {log : List (κ × ν)} {k : κ} {v : ν}
    (hnodup : (log.map Prod.fst).Nodup) (hmem : (k, v) ∈ log) :
    (replay m log).lookup k = some v := by
  induction log generalizing m with
  | nil => exact absurd hmem List.not_mem_nil
  | cons entry log ih =>
    rw [List.map_cons, List.nodup_cons] at hnodup
    rw [replay_cons]
    rcases List.mem_cons.mp hmem with rfl | hmem
    · rw [lookup_replay_of_notMem hnodup.1, Finmap.lookup_insert]
    · exact ih hnodup.2 hmem

/-- The keys of a replayed log. -/
theorem mem_replay_iff {m : GoMap κ ν} {log : List (κ × ν)} {k : κ} :
    k ∈ replay m log ↔ k ∈ m ∨ k ∈ log.map Prod.fst := by
  induction log generalizing m with
  | nil => simp
  | cons entry log ih =>
    rw [replay_cons, ih, Finmap.mem_insert, List.map_cons, List.mem_cons]
    tauto

/-- What a log stands for on top of a map. -/
theorem lookup_replay (m : GoMap κ ν) (log : List (κ × ν)) (k : κ) :
    (replay m log).lookup k = ((replay ∅ log).lookup k).or (m.lookup k) := by
  induction log using List.reverseRecOn with
  | nil => simp
  | append_singleton log entry ih =>
    rw [replay_snoc, replay_snoc, GoMap.lookup_insert_eq_ite, GoMap.lookup_insert_eq_ite]
    split
    · rfl
    · exact ih

/-- Keys of the log have what the log says, whatever the map had. -/
theorem lookup_replay_of_mem_keys {m : GoMap κ ν} {log : List (κ × ν)} {k : κ}
    (hk : k ∈ log.map Prod.fst) : (replay m log).lookup k = (replay ∅ log).lookup k := by
  have hmem : k ∈ replay ∅ log := mem_replay_iff.mpr (Or.inr hk)
  obtain ⟨v, hv⟩ := Finmap.mem_iff.mp hmem
  rw [lookup_replay, hv, Option.some_or]

/-- A log that gives every key the same value. -/
theorem lookup_replay_const (m : GoMap κ ν) {log : List (κ × ν)} {v : ν}
    (hlog : ∀ entry ∈ log, entry.2 = v) (k : κ) :
    (replay m log).lookup k = if k ∈ log.map Prod.fst then some v else m.lookup k := by
  induction log using List.reverseRecOn with
  | nil => simp
  | append_singleton log entry ih =>
    have hentry : entry.2 = v := hlog entry (List.mem_append_right _ List.mem_cons_self)
    rw [replay_snoc, GoMap.lookup_insert_eq_ite, hentry,
      ih fun e he => hlog e (List.mem_append_left _ he), List.map_append, List.map_singleton]
    by_cases hk : k = entry.1
    · rw [if_pos hk, if_pos (List.mem_append_right _ (List.mem_singleton.mpr hk))]
    · have hiff : k ∈ log.map Prod.fst ++ [entry.1] ↔ k ∈ log.map Prod.fst := by
        rw [List.mem_append, List.mem_singleton, or_iff_left hk]
      rw [if_neg hk]
      exact if_congr hiff.symm rfl rfl

section Deltas

variable [DecidableEq ν]

/-- The observations whose value is not the one known. -/
def deltas (m : GoMap κ ν) (obs : List (κ × ν)) : List (κ × ν) :=
  obs.filter fun o => m.lookup o.1 ≠ some o.2

theorem mem_deltas {m : GoMap κ ν} {obs : List (κ × ν)} {o : κ × ν} :
    o ∈ deltas m obs ↔ o ∈ obs ∧ m.lookup o.1 ≠ some o.2 := by
  rw [deltas, List.mem_filter, decide_eq_true_iff]

/-- Deltas mention no key twice when the observations do not. -/
theorem nodup_deltas (m : GoMap κ ν) {obs : List (κ × ν)} (hnodup : (obs.map Prod.fst).Nodup) :
    ((deltas m obs).map Prod.fst).Nodup :=
  (List.filter_sublist.map Prod.fst).nodup hnodup

theorem deltas_append (m : GoMap κ ν) (obs obs' : List (κ × ν)) :
    deltas m (obs ++ obs') = deltas m obs ++ deltas m obs' := List.filter_append _ _

/-- Deltas do not look at keys they do not mention. -/
theorem deltas_insert_of_notMem {m : GoMap κ ν} {obs : List (κ × ν)} {k : κ}
    (hk : k ∉ obs.map Prod.fst) (v : ν) : deltas (m.insert k v) obs = deltas m obs := by
  refine List.filter_congr fun o ho => ?_
  have hne : o.1 ≠ k := fun heq => hk (heq ▸ List.mem_map_of_mem ho)
  rw [Finmap.lookup_insert_of_ne _ hne]

/-- **Replaying the deltas** gives what replaying every observation gives. -/
theorem replay_deltas (m : GoMap κ ν) {obs : List (κ × ν)} (hnodup : (obs.map Prod.fst).Nodup) :
    replay m (deltas m obs) = replay m obs := by
  refine Finmap.ext_lookup fun k => ?_
  by_cases hk : k ∈ obs.map Prod.fst
  · obtain ⟨⟨key, v⟩, hmem, hkey⟩ := List.mem_map.mp hk
    obtain rfl : key = k := hkey
    rw [lookup_replay_of_mem hnodup hmem]
    by_cases hknown : m.lookup key = some v
    · -- an unchanged key is not logged, under this or any other value
      rw [lookup_replay_of_notMem, hknown]
      intro hlogged
      obtain ⟨o, ho, hkey⟩ := List.mem_map.mp hlogged
      obtain ⟨hobs, hne⟩ := mem_deltas.mp ho
      have hsame : o = (key, v) := List.inj_on_of_nodup_map hnodup hobs hmem hkey
      rw [hsame] at hne
      exact hne hknown
    · exact lookup_replay_of_mem (nodup_deltas m hnodup) (mem_deltas.mpr ⟨hmem, hknown⟩)
  · rw [lookup_replay_of_notMem hk, lookup_replay_of_notMem]
    intro hlogged
    exact hk ((List.filter_sublist.map Prod.fst).subset hlogged)

/-- **What is logged**: exactly the keys whose value changes. -/
theorem mem_keys_deltas_iff (m : GoMap κ ν) {obs : List (κ × ν)}
    (hnodup : (obs.map Prod.fst).Nodup) (k : κ) :
    k ∈ (deltas m obs).map Prod.fst ↔ (replay m obs).lookup k ≠ m.lookup k := by
  constructor
  · intro hlogged
    obtain ⟨⟨_, v⟩, ho, rfl⟩ := List.mem_map.mp hlogged
    obtain ⟨hobs, hne⟩ := mem_deltas.mp ho
    rw [lookup_replay_of_mem hnodup hobs]
    exact Ne.symm hne
  · intro hchanged
    have hk : k ∈ obs.map Prod.fst := by
      by_contra hk
      exact hchanged (lookup_replay_of_notMem hk)
    obtain ⟨⟨key, v⟩, hmem, hkey⟩ := List.mem_map.mp hk
    obtain rfl : key = k := hkey
    rw [lookup_replay_of_mem hnodup hmem] at hchanged
    exact List.mem_map.mpr ⟨(key, v), mem_deltas.mpr ⟨hmem, Ne.symm hchanged⟩, rfl⟩

end Deltas

end DeltaLog

end WptFyi.Lib
