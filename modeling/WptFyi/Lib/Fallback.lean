import Mathlib

/-!
# Queries that fall back on weaker ones

A store is asked for so many of its items that meet a condition, the latest first. While
the answers are too few it is asked again, with a weaker condition, and the keys of all
answers are collected until there are enough.

Items of one time may be listed in any order, and an item that meets a condition meets all weaker
ones, so the rounds overlap and several items may share a key. What can be said of the result is
about keys: how many there are, and which were left out. Nothing that is left out was used later
than something that its round put in. The invariant over the rounds (`Collected`) says that until
the collection is full it has the keys of everything that meets the condition of the last round.

- `Answers`: a query lists what meets its condition, latest first, up to a limit;
- `addUntil`, `fallback`: one answer is collected, and one after the other;
- `addUntil_answers`: an answer fills the collection, or all that meets the condition is
  in it;
- `fallback_spec`: how much is collected, and what comes before what.
-/

namespace WptFyi.Lib.Fallback

universe u v w

variable {α : Type u} {β : Type v} {T : Type w} [DecidableEq β] [LinearOrder T]

/-- An answer to a query: some listing of the items that meet the condition, by when they
were used, as far as the limit. -/
def Answers (store : List α) (used : α → T) (limit : Nat) (cond : α → Bool) (hits : List α) :
    Prop :=
  ∃ listing : List α, listing.Perm (store.filter cond) ∧
    listing.Pairwise (fun a b => used b ≤ used a) ∧ hits = listing.take limit

theorem answers_insertionSort (store : List α) (used : α → T) (limit : Nat) (cond : α → Bool) :
    Answers store used limit cond
      (((store.filter cond).insertionSort fun a b => used b ≤ used a).take limit) := by
  refine ⟨_, List.perm_insertionSort _ _, ?_, rfl⟩
  have : Std.Total fun a b : α => used b ≤ used a := ⟨fun a b => le_total (used b) (used a)⟩
  have : IsTrans α fun a b => used b ≤ used a := ⟨fun _ _ _ hab hbc => hbc.trans hab⟩
  exact List.pairwise_insertionSort _ _

/-- The keys of hits are added, one by one, until there are as many as the limit. -/
def addUntil (key : α → β) (limit : Nat) : Finset β → List α → Finset β
  | all, [] => all
  | all, hit :: hits =>
    if (insert (key hit) all).card = limit then insert (key hit) all
    else addUntil key limit (insert (key hit) all) hits

/-- Round after round, as long as there are fewer keys than the limit. -/
def fallback (key : α → β) (limit : Nat) : List (List α) → Finset β → Finset β
  | [], all => all
  | hits :: rounds, all =>
    if all.card < limit then fallback key limit rounds (addUntil key limit all hits) else all

/-- The keys of what meets a condition. -/
def keysWhere (store : List α) (key : α → β) (cond : α → Bool) : Finset β :=
  ((store.filter cond).map key).toFinset

/-! ## Keys of a condition -/

section Keys

variable {store : List α} {key : α → β} {cond cond' : α → Bool}

theorem mem_keysWhere {b : β} :
    b ∈ keysWhere store key cond ↔ ∃ a ∈ store, cond a ∧ key a = b := by
  simp [keysWhere, and_assoc]

theorem key_mem_keysWhere (hkeys : (store.map key).Nodup) {a : α} (ha : a ∈ store) :
    key a ∈ keysWhere store key cond ↔ cond a := by
  rw [mem_keysWhere]
  constructor
  · rintro ⟨a', ha', hcond, heq⟩
    rwa [← List.inj_on_of_nodup_map hkeys ha' ha heq]
  · intro hcond
    exact ⟨a, ha, hcond, rfl⟩

theorem keysWhere_mono (h : ∀ a, cond a → cond' a) :
    keysWhere store key cond ⊆ keysWhere store key cond' := by
  intro b hb
  obtain ⟨a, ha, hcond, heq⟩ := mem_keysWhere.mp hb
  exact mem_keysWhere.mpr ⟨a, ha, h a hcond, heq⟩

theorem keysWhere_false : keysWhere store key (fun _ => false) = ∅ := by
  simp [keysWhere]

theorem card_keysWhere_true (hkeys : (store.map key).Nodup) :
    (keysWhere store key fun _ => true).card = store.length := by
  rw [keysWhere, List.filter_true, List.toFinset_card_of_nodup hkeys, List.length_map]

end Keys

/-! ## One answer

An answer is added hit by hit until the limit is reached, so what is added is a first part of
it. -/

section Round

variable {store : List α} {key : α → β} {used : α → T} {limit : Nat}

/-- What is added is a first part of the hits: all of them, or as many as fill the
collection. -/
theorem addUntil_spec (hits : List α) {all : Finset β} (hlt : all.card < limit) :
    ∃ taken rest, hits = taken ++ rest ∧
      addUntil key limit all hits = all ∪ (taken.map key).toFinset ∧
      ((addUntil key limit all hits).card = limit ∨
        rest = [] ∧ (addUntil key limit all hits).card < limit) := by
  induction hits generalizing all with
  | nil => exact ⟨[], [], rfl, by simp [addUntil], Or.inr ⟨rfl, hlt⟩⟩
  | cons hit hits ih =>
    rw [addUntil]
    by_cases hfull : (insert (key hit) all).card = limit
    · rw [if_pos hfull]
      refine ⟨[hit], hits, rfl, ?_, Or.inl hfull⟩
      show insert (key hit) all = all ∪ {key hit}
      rw [Finset.union_comm, Finset.singleton_union]
    · rw [if_neg hfull]
      have hle := Finset.card_insert_le (key hit) all
      have hmore : (insert (key hit) all).card < limit := by omega
      obtain ⟨taken, rest, rfl, heq, hend⟩ := ih hmore
      refine ⟨hit :: taken, rest, rfl, ?_, hend⟩
      rw [heq, List.map_cons, List.toFinset_cons, Finset.insert_union, Finset.union_insert]

/-- After an answer the collection is full, and then nothing is left out that was used
later than something new in it; or it has all that meets the condition. -/
theorem addUntil_answers (hkeys : (store.map key).Nodup) {seen cond : α → Bool}
    (hseen : ∀ a, seen a → cond a) {hits : List α}
    (hans : Answers store used limit cond hits)
    (hlt : (keysWhere store key seen).card < limit) {all : Finset β}
    (hadd : addUntil key limit (keysWhere store key seen) hits = all) :
    (all.card = limit ∧ keysWhere store key seen ⊆ all ∧ all ⊆ keysWhere store key cond ∧
      ∀ a ∈ store, ∀ b ∈ store, key a ∈ all → ¬ seen a → cond b → used a < used b →
        key b ∈ all) ∨
    (all.card < limit ∧ all = keysWhere store key cond) := by
  obtain ⟨listing, hperm, hsorted, rfl⟩ := hans
  obtain ⟨taken, rest, htaken, heq, hend⟩ :=
    addUntil_spec (listing.take limit) hlt
  rw [hadd] at heq hend
  have hlisted : ∀ a, a ∈ listing ↔ a ∈ store ∧ cond a := by
    intro a
    rw [hperm.mem_iff, List.mem_filter]
  have hsub : taken ⊆ listing := by
    intro a ha
    exact List.mem_of_mem_take (htaken ▸ List.mem_append_left rest ha)
  rcases hend with hfull | ⟨rfl, hfew⟩
  · refine Or.inl ⟨hfull, ?_, ?_, ?_⟩
    · rw [heq]
      exact Finset.subset_union_left
    · rw [heq]
      refine Finset.union_subset (keysWhere_mono hseen) ?_
      intro b hb
      obtain ⟨a, ha, hab⟩ := List.mem_map.mp (List.mem_toFinset.mp hb)
      obtain ⟨hstore, hcond⟩ := (hlisted a).mp (hsub ha)
      exact mem_keysWhere.mpr ⟨a, hstore, hcond, hab⟩
    · intro a ha b hb hmem hnew hcond hused
      -- What is new in the collection is in the part of the listing that was added.
      have hat : a ∈ taken := by
        rw [heq, Finset.mem_union, key_mem_keysWhere hkeys ha] at hmem
        rcases hmem with hold | hmem
        · exact absurd hold hnew
        · obtain ⟨a', ha', hkey⟩ := List.mem_map.mp (List.mem_toFinset.mp hmem)
          rwa [← List.inj_on_of_nodup_map hkeys ((hlisted a').mp (hsub ha')).1 ha hkey]
      have hbt : b ∈ taken := by
        have hsplit : listing = taken ++ (rest ++ listing.drop limit) := by
          rw [← List.append_assoc, ← htaken, List.take_append_drop]
        have hbl := (hlisted b).mpr ⟨hb, hcond⟩
        rw [hsplit, List.mem_append] at hbl
        rcases hbl with hbt | hlater
        · exact hbt
        · rw [hsplit, List.pairwise_append] at hsorted
          exact absurd (hsorted.2.2 a hat b hlater) (not_le.mpr hused)
      rw [heq]
      exact Finset.mem_union_right _ (List.mem_toFinset.mpr (List.mem_map_of_mem hbt))
  · refine Or.inr ⟨hfew, ?_⟩
    rw [List.append_nil] at htaken
    -- A listing that was cut would have filled the collection with its keys alone.
    have hshort : listing.length ≤ limit := by
      by_contra hlong
      have hnodup : (taken.map key).Nodup := by
        have hmap := (hperm.map key).nodup_iff.mpr (hkeys.sublist (List.filter_sublist.map key))
        rw [← htaken]
        exact hmap.sublist ((List.take_sublist _ _).map key)
      have hcard : (taken.map key).toFinset.card = limit := by
        rw [List.toFinset_card_of_nodup hnodup, List.length_map, ← htaken, List.length_take]
        omega
      have hsubset : (taken.map key).toFinset ⊆ all := heq ▸ Finset.subset_union_right
      have hle := Finset.card_le_card hsubset
      omega
    rw [List.take_of_length_le hshort] at htaken
    have hall : (taken.map key).toFinset = keysWhere store key cond := by
      rw [← htaken, keysWhere]
      exact List.toFinset_eq_of_perm _ _ (hperm.map key)
    rw [heq, hall]
    exact Finset.union_eq_right.mpr (keysWhere_mono hseen)

end Round

/-! ## All rounds

The conditions become weaker from round to round, so what met an earlier one comes first. A round
that fills the collection is the last one. -/

section Rounds

variable {store : List α} {key : α → β} {used : α → T} {limit : Nat}

/-- What is collected by rounds with the given conditions, after what met `seen`. -/
structure Collected (store : List α) (key : α → β) (used : α → T) (limit : Nat)
    (seen : α → Bool) (conds : List (α → Bool)) (all : Finset β) : Prop where
  /-- nothing is taken back -/
  seen_subset : keysWhere store key seen ⊆ all
  /-- there is no more than meets the last condition, and no less if that is too little -/
  complete : all ⊆ keysWhere store key ((seen :: conds).getLast (List.cons_ne_nil _ _)) ∧
    (all.card = limit ∨
      all.card < limit ∧
        all = keysWhere store key ((seen :: conds).getLast (List.cons_ne_nil _ _)))
  /-- what meets an earlier condition comes first, then what was used later -/
  ranked : ∀ a ∈ store, ∀ b ∈ store, key a ∈ all → ¬ seen a →
    (conds.findIdx (· b) < conds.findIdx (· a) ∨
      conds.findIdx (· b) = conds.findIdx (· a) ∧ used a < used b) → key b ∈ all

theorem fallback_of_full {rounds : List (List α)} {all : Finset β} (hfull : all.card = limit) :
    fallback key limit rounds all = all := by
  cases rounds with
  | nil => rfl
  | cons hits rounds => exact if_neg (hfull ▸ Nat.lt_irrefl _)

/-- The last condition is the weakest. -/
theorem getLast_of_chain {seen : α → Bool} {conds : List (α → Bool)}
    (hchain : (seen :: conds).Pairwise fun p q => ∀ a, p a → q a) (a : α) (ha : seen a) :
    (seen :: conds).getLast (List.cons_ne_nil _ _) a := by
  rcases List.mem_cons.mp (List.getLast_mem (List.cons_ne_nil seen conds)) with heq | hmem
  · rwa [heq]
  · exact List.rel_of_pairwise_cons hchain hmem a ha

/-- If the collection is full already, nothing new is in it. -/
theorem Collected.of_full (hkeys : (store.map key).Nodup) {seen : α → Bool}
    {conds : List (α → Bool)}
    (hchain : (seen :: conds).Pairwise fun p q => ∀ a, p a → q a)
    (hfull : (keysWhere store key seen).card = limit) :
    Collected store key used limit seen conds (keysWhere store key seen) where
  seen_subset := Finset.Subset.refl _
  complete := ⟨keysWhere_mono (getLast_of_chain hchain), Or.inl hfull⟩
  ranked := by
    intro a ha b _ hmem hnew _
    exact absurd ((key_mem_keysWhere hkeys ha).mp hmem) hnew

/-- **The run of the rounds.** The invariant is that what has been collected is all that
meets the condition before. -/
theorem fallback_spec (hkeys : (store.map key).Nodup) {conds : List (α → Bool)}
    {rounds : List (List α)}
    (hans : List.Forall₂ (fun cond hits => Answers store used limit cond hits) conds rounds)
    {seen : α → Bool} (hchain : (seen :: conds).Pairwise fun p q => ∀ a, p a → q a)
    (hle : (keysWhere store key seen).card ≤ limit) :
    Collected store key used limit seen conds
      (fallback key limit rounds (keysWhere store key seen)) := by
  induction hans generalizing seen with
  | nil =>
    rw [fallback]
    rcases hle.eq_or_lt with hfull | hlt
    · exact Collected.of_full hkeys hchain hfull
    · refine ⟨Finset.Subset.refl _, ⟨Finset.Subset.refl _, Or.inr ⟨hlt, rfl⟩⟩, ?_⟩
      intro a ha b _ hmem hnew _
      exact absurd ((key_mem_keysWhere hkeys ha).mp hmem) hnew
  | @cons cond hits conds rounds hans _ ih =>
    rcases hle.eq_or_lt with hfull | hlt
    · rw [fallback_of_full hfull]
      exact Collected.of_full hkeys hchain hfull
    rw [fallback, if_pos hlt]
    have hseen := List.rel_of_pairwise_cons hchain (List.mem_cons_self : cond ∈ cond :: conds)
    have hchain' := List.Pairwise.of_cons hchain
    rcases addUntil_answers hkeys hseen hans hlt rfl with
      ⟨hfull, hold, hnew, hused⟩ | ⟨hfew, heq⟩
    · rw [fallback_of_full hfull]
      refine ⟨hold, ⟨?_, Or.inl hfull⟩, ?_⟩
      · exact hnew.trans (keysWhere_mono (getLast_of_chain hchain'))
      · intro a ha b hb hmem hnot hrank
        -- Something new met the condition of this round, so what precedes it did, too.
        have hcond := (key_mem_keysWhere hkeys ha).mp (hnew hmem)
        rw [List.findIdx_cons, List.findIdx_cons, hcond] at hrank
        cases hb' : cond b with
        | true => exact hused a ha b hb hmem hnot hb' (by simpa [hb'] using hrank)
        | false => simp [hb'] at hrank
    · rw [heq] at hfew ⊢
      have hrest := ih hchain' hfew.le
      refine ⟨(keysWhere_mono hseen).trans hrest.seen_subset, hrest.complete, ?_⟩
      intro a ha b hb hmem _ hrank
      rw [List.findIdx_cons, List.findIdx_cons] at hrank
      cases hb' : cond b with
      | true => exact hrest.seen_subset ((key_mem_keysWhere hkeys hb).mpr hb')
      | false =>
        cases ha' : cond a with
        | true => simp [ha', hb'] at hrank
        | false =>
          refine hrest.ranked a ha b hb hmem (by simp [ha']) ?_
          simpa [ha', hb'] using hrank

end Rounds

end WptFyi.Lib.Fallback
