import WptFyi.Cache.Search

/-!
# Searches that run while the index changes

A plan has its own results of the runs it was bound to, but the names of the tests are those of
the shards, which other calls add to. Each shard is searched when its turn comes, in whatever
state the index is in then.

So a plan is half a snapshot. It holds the maps of results that the shards had when it was bound;
an eviction only takes such a map out of the shard and does not change it, so the plan keeps what it
has. The tests are the shard's own map, read under the shard's lock when the shard is searched: by
then it may have more rows. These belong to runs that were ingested later, and are unknown in all
runs of the plan, hence not selected, while rows that were there still are, since no step removes a
test (`later_of_step`).

- `Later`, `later_of_step`: names are only added;
- `System.Keyed`: runs are under their IDs, which a request relies on;
- `shard_results_later`: a shard gives the answer it would have given when the plan was bound.
-/

namespace WptFyi.Cache

open Lib Query Shared

/-- The shards know every test that they knew. -/
def Later (s s' : System) : Prop :=
  ∀ (j : Nat) (shard : WPTIndex), s.index.shards[j]? = some shard →
    ∃ shard' : WPTIndex, s'.index.shards[j]? = some shard' ∧ ∀ t ∈ shard.tests, t ∈ shard'.tests

/-- Runs are under their IDs. -/
def System.Keyed (s : System) : Prop := ∀ id run, s.index.runs.lookup id = some run → run.id = id

namespace Later

variable {s s' s'' : System}

theorem of_eq (h : s'.index.shards = s.index.shards) : Later s s' :=
  fun _ shard hshard => ⟨shard, h ▸ hshard, fun _ ht => ht⟩

theorem trans (h : Later s s') (h' : Later s' s'') : Later s s'' := by
  intro j shard hshard
  obtain ⟨shard', hshard', htests⟩ := h j shard hshard
  obtain ⟨shard'', hshard'', htests'⟩ := h' j shard' hshard'
  exact ⟨shard'', hshard'', fun t ht => htests' t (htests t ht)⟩

end Later

section Step

variable {fingerprint64 : String → UInt64} {cases : CaseMapping} {numShards : Nat} {s s' : System}

theorem shards_mark (s : System) (c : Nat) (run : TestRun) :
    (s.mark c run).index.shards = s.index.shards ∧ (s.mark c run).index.runs = s.index.runs := by
  unfold System.mark ShardedWPTIndex.syncMarkInProgress
  split_ifs <;> exact ⟨rfl, rfl⟩

theorem index_load (s : System) (c : Nat) (run : TestRun) (outcome : Except String Report)
    (order : String → RangeOrder String) :
    (s.load fingerprint64 c run outcome order).index = s.index := by
  unfold System.load
  cases outcome with
  | error message => rfl
  | ok report =>
    dsimp only
    split <;> rfl

theorem shards_clear (s : System) (c : Nat) (run : TestRun) (err : Option IndexError) :
    (s.clear c run err).index.shards = s.index.shards ∧
      (s.clear c run err).index.runs = s.index.runs := by
  unfold System.clear ShardedWPTIndex.syncClearInProgress
  split_ifs <;> exact ⟨rfl, rfl⟩

/-- **Step**: a run that is stored is there afterwards, and nothing else changes for those who have
a plan. -/
theorem store_spec (hinv : s.Invariant numShards) {c : Nat} {run : TestRun} {report : Report}
    {data : List ShardData} (hc : s.calls.lookup c = some (.storing run report data)) (now : Int) :
    Later s (s.store c run report data now) ∧
      (s.store c run report data now).index.runs = s.index.runs.insert run.id run := by
  have hrun : run.id ∉ s.index.runs := hinv.pending hc rfl
  have hlen : data.length = s.index.shards.length := (hinv.data hc).trans hinv.shards.symm
  rw [System.store, syncStoreRun_spec hinv.resident hrun hlen]
  refine ⟨fun j shard hshard => ?_, rfl⟩
  obtain ⟨shardData, hdata⟩ : ∃ shardData, data[j]? = some shardData := by
    refine ⟨data.get ⟨j, ?_⟩, List.getElem?_eq_getElem _⟩
    rw [hlen]
    exact (List.getElem?_eq_some_iff.mp hshard).1
  have hnew : run.id ∉ shard.results := by
    rw [← Finmap.mem_keys, hinv.resident.results shard (List.mem_of_getElem? hshard),
      Finmap.mem_keys]
    exact hrun
  refine ⟨_, List.getElem?_zipWith_eq_some.mpr ⟨shard, shardData, hshard, hdata, rfl⟩,
    fun t ht => ?_⟩
  rw [syncStoreRunOnShard_of_notMem hnew]
  exact Finmap.mem_union.mpr (.inr ht)

/-- **Step**: an eviction only takes runs away. -/
theorem evict_spec (hinv : s.Invariant numShards) (percent : Percent)
    {entries : List (Σ _ : Int, Int)} (hentries : s.index.lru.IsListing entries) :
    Later s (s.evict percent entries) ∧
      ∀ id run, (s.evict percent entries).index.runs.lookup id = some run →
        s.index.runs.lookup id = some run := by
  rcases syncEvictRuns_spec hinv.resident percent hentries with ⟨-, heq⟩ | ⟨-, -, heq⟩
  · rw [System.evict, heq]
    exact ⟨Later.of_eq rfl, fun _ _ h => h⟩
  · rw [System.evict, heq]
    refine ⟨fun j shard hshard => ⟨shard.without (s.index.victims percent entries), ?_,
      fun t ht => ht⟩, fun id run hrun => ?_⟩
    · change (s.index.shards.map (·.without (s.index.victims percent entries)))[j]? = _
      rw [List.getElem?_map, hshard]
      rfl
    · rw [GoMap.lookup_eraseAll] at hrun
      split_ifs at hrun
      exact hrun

theorem bind_spec (hinv : s.Invariant numShards) (hpos : 1 ≤ numShards) (runs : List TestRun)
    (q : Option ConcreteQuery) (now : RunID → Int) :
    (s.index.bind cases runs q now).1.shards = s.index.shards ∧
      (s.index.bind cases runs q now).1.runs = s.index.runs := by
  have hshards : s.index.shards ≠ [] := by
    rw [← List.length_pos_iff, hinv.shards]
    exact hpos
  obtain ⟨lru, heq, -⟩ := bind_index_spec hinv.resident hshards cases runs q now
  rw [heq]
  exact ⟨rfl, rfl⟩

/-- Names are only added, and runs come under their IDs. -/
theorem later_of_step (hpos : 1 ≤ numShards) (hinv : s.Invariant numShards) {label : Label}
    (hstep : s.step fingerprint64 cases label = some s') : Later s s' ∧ (s.Keyed → s'.Keyed) := by
  -- most steps touch neither the shards nor the runs
  have hsame : s'.index.shards = s.index.shards ∧ s'.index.runs = s.index.runs →
      Later s s' ∧ (s.Keyed → s'.Keyed) := fun ⟨hshards, hruns⟩ =>
    ⟨Later.of_eq hshards, fun hkeyed id run hrun => hkeyed id run (hruns ▸ hrun)⟩
  cases System.moves_of_step hstep with
  | @mark c run hc => exact hsame (shards_mark s c run)
  | load hc outcome order => exact hsame (by rw [index_load]; exact ⟨rfl, rfl⟩)
  | @store c run report data hc now =>
    obtain ⟨hlater, hruns⟩ := store_spec hinv hc now
    refine ⟨hlater, fun hkeyed id run' hrun' => ?_⟩
    rw [hruns, GoMap.lookup_insert_eq_ite] at hrun'
    split_ifs at hrun' with hid
    · cases hrun'
      exact hid.symm
    · exact hkeyed id run' hrun'
  | clear hc => exact hsame (shards_clear s _ _ _)
  | evict percent hentries =>
    obtain ⟨hlater, hruns⟩ := evict_spec hinv percent hentries
    exact ⟨hlater, fun hkeyed id run hrun => hkeyed id run (hruns id run hrun)⟩
  | bind runs q now => exact hsame (bind_spec hinv hpos runs q now)

end Step

/-! ## A shard, later -/

section Results

variable {fingerprint64 : String → UInt64} {names : Set TestName} {cases : CaseMapping}
  {numShards : Nat} {s s' : System} {ids : List RunID} {q : ConcreteQuery}

/-- The index of a plan, with the names that its shard has by now. -/
def Index.withTests (idx : Index) (shard : WPTIndex) : Index := { idx with tests := shard.tests }

/-- **A shard that is searched later** gives its part of the naive answer over the reports that
there were when its index was taken: what was ingested or evicted since does not show. -/
theorem shard_results_later (hsep : Separates fingerprint64 names)
    (hrep : Represents fingerprint64 names numShards s)
    (hrep' : Represents fingerprint64 names numShards s') (hlater : Later s s')
    (hresident : ∀ id ∈ ids, id ∈ s.index.runs) (hq : ∀ id ∈ q.runIDs, id ∈ ids)
    {j : Nat} {shard shard' : WPTIndex} {idx : Index} (hshard : s.index.shards[j]? = some shard)
    (hidx : syncMakeIndex shard ids ∅ = .ok idx) (hshard' : s'.index.shards[j]? = some shard')
    (opts : AggregationOpts) (order : RangeOrder TestID) :
    ∃ results, syncRunFilter order ids opts (idx.withTests shard',
        newFilter cases (idx.withTests shard') (prepareUserQuery ids q)) = some results ∧
      results.map unordered =
        shardSearch fingerprint64 numShards cases s.reports ids q opts j := by
  obtain ⟨-, hruns⟩ := syncMakeIndex_spec hidx
  have hold := hrep.shard j shard hshard
  -- the names of now with the results of then
  have htaken : TakenFrom fingerprint64 names numShards s.reports ids j
      { shard with tests := shard'.tests } (idx.withTests shard') := by
    refine ⟨rfl, fun id => ?_, ⟨(hrep'.shard j shard' hshard').tests, fun id report hreport => ?_⟩,
      hsep, fun id hid => ?_⟩
    · exact (hruns id).trans (by rw [Finmap.lookup_empty])
    · obtain ⟨rrs, hrrs, hresults, htests⟩ := hold.stored id report hreport
      refine ⟨rrs, hrrs, hresults, fun t ht => ?_⟩
      obtain ⟨shard'', hshard'', hgrown⟩ := hlater j shard hshard
      cases hshard''.symm.trans hshard'
      exact hgrown t (htests t ht)
    · have hkey := Finmap.mem_keys.mpr (hresident id hid)
      rw [← hrep.keys, Finmap.mem_keys] at hkey
      obtain ⟨report, hreport⟩ := Finmap.mem_iff.mp hkey
      exact ⟨report, hreport, hrep.named id report hreport⟩
  exact htaken.shard_results hq order

end Results

end WptFyi.Cache
