import WptFyi.Cache.ShardedIndex

/-!
# Residency

Which runs an index has is recorded three times: in its runs, in the LRU and in
the results of every shard. `Resident` says that the three agree. The spec
lemmas here say what each locked function does to an index where they do, so
that its error branches are seen to be dead, and that they still agree after it.

The source checks the records against each other at many places and has an error for each
disagreement, such as a run that is evicted by the LRU and not found in a shard. With `Resident`
none of these can be returned. What is left of each function is one equation, and later proofs use
that equation and never unfold the function: `syncStoreRun_spec`, `syncEvictRuns_spec`,
`syncExtractRuns_spec` and the lemmas on marking. A run that is being loaded is in none of the
records, so the in-flight set is not part of this (`InFlightMatches` is).

- `Resident`: the three records agree;
- the `…_spec` lemmas: what a locked function does where they do;
- `Resident.syncStoreRun`, `Resident.syncEvictRuns`: they agree afterwards.
-/

namespace WptFyi.Cache

open Lib Query Shared

/-- The three records of residency agree. -/
structure Resident (i : ShardedWPTIndex) : Prop where
  lru : i.lru.values.keys = i.runs.keys
  results : ∀ shard ∈ i.shards, shard.results.keys = i.runs.keys

namespace Resident

theorem new (numShards : Nat) : Resident (.new numShards) := by
  refine ⟨rfl, fun shard hshard => ?_⟩
  rw [List.eq_of_mem_replicate hshard]
  rfl

end Resident

theorem syncStoreRunOnShard_of_notMem {shard : WPTIndex} {id : RunID} (h : id ∉ shard.results)
    (shardData : ShardData) :
    syncStoreRunOnShard shard id shardData =
      ({ tests := shardData.mapValues TestData.toTestName ∪ shard.tests,
         results := shard.results.insert id (shardData.mapValues TestData.result) }, none) := by
  rw [syncStoreRunOnShard, addResults, if_neg h]

/-- A run that no shard has is stored on all of them without an error. -/
theorem storeOnShards_of_notMem {id : RunID} {shards : List WPTIndex}
    (h : ∀ shard ∈ shards, id ∉ shard.results) {data : List ShardData}
    (hlen : data.length = shards.length) :
    ShardedWPTIndex.storeOnShards id shards data =
      (List.zipWith (fun shard shardData => (syncStoreRunOnShard shard id shardData).1)
        shards data, none) := by
  induction shards generalizing data with
  | nil => rfl
  | cons shard shards ih =>
    cases data with
    | nil => exact absurd hlen (by simp)
    | cons shardData data =>
      obtain ⟨hshard, hshards⟩ := List.forall_mem_cons.mp h
      rw [ShardedWPTIndex.storeOnShards, syncStoreRunOnShard_of_notMem hshard,
        ih hshards (by simpa using hlen), List.zipWith_cons_cons,
        syncStoreRunOnShard_of_notMem hshard]

/-- What `syncStoreRun` does to a run that is not resident. -/
theorem syncStoreRun_spec {i : ShardedWPTIndex} (h : Resident i) {run : TestRun}
    (hrun : run.id ∉ i.runs) {data : List ShardData} (hlen : data.length = i.shards.length)
    (now : Int) :
    i.syncStoreRun run data now =
      ({ i with
          shards := List.zipWith
            (fun shard shardData => (syncStoreRunOnShard shard run.id shardData).1) i.shards data
          runs := i.runs.insert run.id run
          lru := i.lru.access run.id now }, none) := by
  have hshards : ∀ shard ∈ i.shards, run.id ∉ shard.results := by
    intro shard hshard hmem
    have hkey := Finmap.mem_keys.mpr hmem
    rw [h.results shard hshard] at hkey
    exact hrun (Finmap.mem_keys.mp hkey)
  rw [ShardedWPTIndex.syncStoreRun, storeOnShards_of_notMem hshards hlen]

/-- A run is stored in the index and in every shard. -/
theorem Resident.syncStoreRun {i : ShardedWPTIndex} (h : Resident i) {run : TestRun}
    (hrun : run.id ∉ i.runs) {data : List ShardData} (hlen : data.length = i.shards.length)
    (now : Int) : Resident (i.syncStoreRun run data now).1 := by
  rw [syncStoreRun_spec h hrun hlen]
  constructor
  · simp only [Lru.keys_access, GoMap.keys_insert, h.lru]
  · intro shard hshard
    obtain ⟨j, hj, rfl⟩ := List.mem_iff_getElem.mp hshard
    rw [List.length_zipWith, lt_min_iff] at hj
    obtain ⟨hshards, _⟩ := hj
    have hmem := List.getElem_mem hshards
    have hnew : run.id ∉ i.shards[j].results := by
      rw [← Finmap.mem_keys, h.results _ hmem, Finmap.mem_keys]
      exact hrun
    rw [List.getElem_zipWith, syncStoreRunOnShard_of_notMem hnew]
    simp only [GoMap.keys_insert, h.results _ hmem]

theorem onShards_eq {f : WPTIndex → WPTIndex × Option IndexError} {g : WPTIndex → WPTIndex}
    {shards : List WPTIndex} (h : ∀ shard ∈ shards, f shard = (g shard, none)) :
    onShards f shards = (shards.map g, none) := by
  induction shards with
  | nil => rfl
  | cons shard shards ih =>
    obtain ⟨hshard, hshards⟩ := List.forall_mem_cons.mp h
    rw [onShards, hshard, ih hshards, List.map_cons]

/-- A shard without the results of some runs. -/
def WPTIndex.without (shard : WPTIndex) (ids : List RunID) : WPTIndex :=
  { shard with results := shard.results.eraseAll ids }

/-- The loop over the evicted runs takes each of them from every shard, and meets no error. -/
theorem evictLoop_spec {ids : List RunID} (hnodup : ids.Nodup) {i : ShardedWPTIndex}
    (h : ∀ id ∈ ids, ∀ shard ∈ i.shards, id ∈ shard.results) :
    ShardedWPTIndex.evictLoop ids i =
      ({ i with shards := i.shards.map (·.without ids), runs := i.runs.eraseAll ids }, none) := by
  induction ids generalizing i with
  | nil =>
    have hid : (fun shard : WPTIndex => shard.without []) = id := rfl
    rw [ShardedWPTIndex.evictLoop, hid, List.map_id]
    rfl
  | cons id ids ih =>
    obtain ⟨hid, hnodup⟩ := List.nodup_cons.mp hnodup
    obtain ⟨hshards, hrest⟩ := List.forall_mem_cons.mp h
    have hdelete : onShards (syncDeleteResultsFromShard · id) i.shards =
        (i.shards.map (·.without [id]), none) := by
      refine onShards_eq fun shard hshard => ?_
      rw [syncDeleteResultsFromShard, deleteResults, if_pos (hshards shard hshard)]
      rfl
    rw [ShardedWPTIndex.evictLoop, hdelete]
    simp only
    rw [ih hnodup]
    · simp only [List.map_map]
      rfl
    · -- the runs still to go are other runs
      intro id' hid' shard hshard
      obtain ⟨old, hold, rfl⟩ := List.mem_map.mp hshard
      exact Finmap.mem_erase.mpr ⟨fun heq => hid (heq ▸ hid'), hrest id' hid' old hold⟩

/-- The runs that an eviction removes. -/
def ShardedWPTIndex.victims (i : ShardedWPTIndex) (percent : Percent)
    (entries : List (Σ _ : Int, Int)) : List RunID :=
  (i.lru.evictLRU percent entries).1

/-- What `syncEvictRuns` does: nothing without runs, and otherwise the victims,
of which there are some, are gone from everywhere. -/
theorem syncEvictRuns_spec {i : ShardedWPTIndex} (h : Resident i) (percent : Percent)
    {entries : List (Σ _ : Int, Int)} (hentries : i.lru.IsListing entries) :
    (i.runs = ∅ ∧ i.syncEvictRuns percent entries = (i, .error .noRuns)) ∨
      (i.runs ≠ ∅ ∧ i.victims percent entries ≠ [] ∧ i.syncEvictRuns percent entries =
        ({ i with
            shards := i.shards.map (·.without (i.victims percent entries))
            runs := i.runs.eraseAll (i.victims percent entries)
            lru := (i.lru.evictLRU percent entries).2 },
          .ok (i.victims percent entries).length)) := by
  by_cases hempty : i.runs = ∅
  · exact Or.inl ⟨hempty, by rw [ShardedWPTIndex.syncEvictRuns, if_pos hempty]⟩
  refine Or.inr ⟨hempty, ?_⟩
  -- the LRU knows the runs of the index, so it is not empty either
  have hkeys : i.lru.values.keys ≠ ∅ := by
    rw [h.lru]
    intro hnone
    refine hempty (Finmap.ext_lookup fun id => ?_)
    rw [Finmap.lookup_empty, Finmap.lookup_eq_none, ← Finmap.mem_keys, hnone]
    exact Finset.notMem_empty id
  have hvictims : i.victims percent entries ≠ [] := Lru.evictLRU_ne_nil hentries percent hkeys
  obtain ⟨hnodup, hmem⟩ := Lru.evictLRU_spec hentries percent
  refine ⟨hvictims, ?_⟩
  -- each victim is on every shard, so the loop meets no error
  have hloop := @evictLoop_spec (i.victims percent entries) hnodup
    { i with lru := (i.lru.evictLRU percent entries).2 } (by
      intro id hid shard hshard
      rw [← Finmap.mem_keys, h.results shard hshard, ← h.lru]
      exact hmem id hid)
  unfold ShardedWPTIndex.syncEvictRuns
  rw [if_neg hempty]
  simp only
  unfold ShardedWPTIndex.victims at hvictims hloop ⊢
  rw [if_neg hvictims, hloop]

/-- An evicted run leaves the index and every shard. -/
theorem Resident.syncEvictRuns {i : ShardedWPTIndex} (h : Resident i) (percent : Percent)
    {entries : List (Σ _ : Int, Int)} (hentries : i.lru.IsListing entries) :
    Resident (i.syncEvictRuns percent entries).1 := by
  rcases syncEvictRuns_spec h percent hentries with ⟨_, heq⟩ | ⟨_, _, heq⟩
  · rw [heq]
    exact h
  · rw [heq]
    constructor
    · rw [Lru.keys_evictLRU, GoMap.keys_eraseAll, h.lru]
      rfl
    · intro shard hshard
      obtain ⟨old, hold, rfl⟩ := List.mem_map.mp hshard
      simp only [WPTIndex.without, GoMap.keys_eraseAll, h.results old hold]

/-! ### Extraction

What is resident can be extracted: an index is made for each shard, with the results of each run,
and no error is met. -/

theorem syncMakeIndex_isOk {shard : WPTIndex} {ids : List RunID}
    {runResults : GoMap RunID RunResults} :
    (∃ idx, syncMakeIndex shard ids runResults = .ok idx) ↔ ∀ id ∈ ids, id ∈ shard.results := by
  induction ids generalizing runResults with
  | nil => exact iff_of_true ⟨_, rfl⟩ (by simp)
  | cons id ids ih =>
    rw [syncMakeIndex, List.forall_mem_cons, Finmap.mem_iff]
    cases shard.results.lookup id with
    | none => simp
    | some rrs => simpa using ih

/-- A list is mapped without an error if each of its elements is. -/
theorem mapM_isOk {α β ε : Type} {f : α → Except ε β} {as : List α} :
    (∃ bs, as.mapM f = .ok bs) ↔ ∀ a ∈ as, ∃ b, f a = .ok b := by
  induction as with
  | nil => exact iff_of_true ⟨[], rfl⟩ (by simp)
  | cons a as ih =>
    rw [List.mapM_cons, List.forall_mem_cons, ← ih]
    cases f a with
    | error err => simp [bind, Except.bind]
    | ok b =>
      cases as.mapM f with
      | error err => simp [bind, Except.bind]
      | ok bs => simp [bind, Except.bind, pure, Except.pure]

/-- An extraction finds every run or fails on the first shard. -/
theorem syncExtractRuns_isOk {i : ShardedWPTIndex} (h : Resident i) (hshards : i.shards ≠ [])
    (ids : List RunID) (now : RunID → Int) :
    (∃ idxs, (i.syncExtractRuns ids now).2 = .ok idxs) ↔ ∀ id ∈ ids, id ∈ i.runs := by
  have hresult : (∃ idxs, (i.syncExtractRuns ids now).2 = .ok idxs) ↔
      ∃ idxs, i.shards.mapM (fun shard => syncMakeIndex shard ids ∅) = .ok idxs := by
    unfold ShardedWPTIndex.syncExtractRuns
    cases i.shards.mapM fun shard => syncMakeIndex shard ids ∅ with
    | error err => simp
    | ok idxs => simp
  rw [hresult, mapM_isOk]
  constructor
  · intro hall id hid
    obtain ⟨shard, hshard⟩ := List.exists_mem_of_ne_nil _ hshards
    have hmem := syncMakeIndex_isOk.mp (hall shard hshard) id hid
    rwa [← Finmap.mem_keys, h.results shard hshard, Finmap.mem_keys] at hmem
  · intro hall shard hshard
    refine syncMakeIndex_isOk.mpr fun id hid => ?_
    rw [← Finmap.mem_keys, h.results shard hshard, Finmap.mem_keys]
    exact hall id hid

/-- An extraction changes times of accesses only. -/
theorem syncExtractRuns_spec {i : ShardedWPTIndex} (h : Resident i) (hshards : i.shards ≠ [])
    (ids : List RunID) (now : RunID → Int) :
    ∃ lru, (i.syncExtractRuns ids now).1 = { i with lru } ∧ lru.values.keys = i.runs.keys := by
  by_cases hids : ∃ idxs, (i.syncExtractRuns ids now).2 = .ok idxs
  · have hmem := (syncExtractRuns_isOk h hshards ids now).mp hids
    refine ⟨(i.syncExtractRuns ids now).1.lru, ?_, ?_⟩
    · unfold ShardedWPTIndex.syncExtractRuns
      cases i.shards.mapM fun shard => syncMakeIndex shard ids ∅ <;> rfl
    · unfold ShardedWPTIndex.syncExtractRuns
      cases i.shards.mapM fun shard => syncMakeIndex shard ids ∅ with
      | error err => exact h.lru
      | ok idxs =>
        simp only
        rw [Lru.keys_foldl_access _ _ (by simpa [h.lru, Finmap.mem_keys] using hmem), h.lru]
  · refine ⟨i.lru, ?_, h.lru⟩
    unfold ShardedWPTIndex.syncExtractRuns at hids ⊢
    cases hmap : i.shards.mapM fun shard => syncMakeIndex shard ids ∅ with
    | error err => rfl
    | ok idxs => exact absurd ⟨idxs, by rw [hmap]⟩ hids

/-- Binding succeeds exactly when all runs of the query are in the index. -/
theorem bind_isOk {i : ShardedWPTIndex} (h : Resident i) (hshards : i.shards ≠ [])
    (cases : CaseMapping) {runs : List TestRun} (hruns : runs ≠ []) (q : ConcreteQuery)
    (now : RunID → Int) :
    (∃ plan, (i.bind cases runs (some q) now).2 = .ok plan) ↔ ∀ run ∈ runs, run.id ∈ i.runs := by
  have hresult : (∃ plan, (i.bind cases runs (some q) now).2 = .ok plan) ↔
      ∃ idxs, (i.syncExtractRuns (runs.map TestRun.id) now).2 = .ok idxs := by
    rw [ShardedWPTIndex.bind, if_neg hruns]
    simp only
    cases (i.syncExtractRuns (runs.map TestRun.id) now).2 with
    | error err => simp [Except.map]
    | ok idxs => simp [Except.map]
  rw [hresult, syncExtractRuns_isOk h hshards]
  simp

theorem bind_index_spec {i : ShardedWPTIndex} (h : Resident i) (hshards : i.shards ≠ [])
    (cases : CaseMapping) (runs : List TestRun) (q : Option ConcreteQuery) (now : RunID → Int) :
    ∃ lru, (i.bind cases runs q now).1 = { i with lru } ∧ lru.values.keys = i.runs.keys := by
  unfold ShardedWPTIndex.bind
  split_ifs
  · exact ⟨i.lru, rfl, h.lru⟩
  · cases q with
    | none => exact ⟨i.lru, rfl, h.lru⟩
    | some q => exact syncExtractRuns_spec h hshards _ now

end WptFyi.Cache
