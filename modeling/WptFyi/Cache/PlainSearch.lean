import WptFyi.Cache.EmptyNames
import WptFyi.Cache.Search

/-!
# An index of plain names

The index that ingests reports runs like one that ingests their plain ones: every step of
it is the same step there, with plain names in the shards. A search by test name finds the
same on both.

The relation between the two is a function, `System.plain`, so the simulation is an equation for
each step (`step_plain`): a step of the one is the step of the other with the plain report. Only a
load and a store see the names at all; the rest of the index handles identifiers and results, which
are the same. A search for a test by its name does not ask for the subtest name of a row, so it
does not see the difference that is left. This is what makes the comparison with the summaries of
runs possible without assuming that reports have no empty names.

- `Label.plain`, `System.plain`: the steps and the states of the other index;
- `step_plain`, `run_plain`: the steps, and the histories, of the two;
- `search_testNamePattern`: so a search by test name gives the naive answer for the plain
  reports, whatever the subtests are called.
-/

namespace WptFyi.Cache

open Lib Query Shared

def WPTIndex.plain (shard : WPTIndex) : WPTIndex :=
  { shard with tests := shard.tests.mapValues TestName.plain }

def ShardedWPTIndex.plain (i : ShardedWPTIndex) : ShardedWPTIndex :=
  { i with shards := i.shards.map WPTIndex.plain }

def IngestCall.plain : IngestCall → IngestCall
  | loading run => .loading run
  | storing run report data => .storing run report.plain (data.map plainData)
  | clearing run err => .clearing run err
  | returned err => .returned err

def System.plain (s : System) : System where
  index := s.index.plain
  calls := s.calls.mapValues IngestCall.plain
  reports := s.reports.mapValues Report.plain

/-- The step that loads the plain report. -/
def Label.plain : Label → Label
  | .load c outcome order => .load c (outcome.map Report.plain) order
  | label => label

/-! ## The operations of the index

Each operation on the index, on the plain one: it goes by IDs and results, which are the same
there, so it commutes with making the names plain. -/

namespace ShardedWPTIndex

variable (i : ShardedWPTIndex)

theorem plain_new (numShards : Nat) : (new numShards).plain = new numShards := by
  rw [plain, new, List.map_replicate]
  rfl

theorem syncMarkInProgress_plain (run : TestRun) :
    i.plain.syncMarkInProgress run =
      ((i.syncMarkInProgress run).1.plain, (i.syncMarkInProgress run).2) := by
  unfold syncMarkInProgress
  show (if run.id ∈ i.runs then _ else if run.id ∈ i.inFlight then _ else _) = _
  split_ifs <;> rfl

theorem syncClearInProgress_plain (run : TestRun) :
    i.plain.syncClearInProgress run =
      ((i.syncClearInProgress run).1.plain, (i.syncClearInProgress run).2) := by
  unfold syncClearInProgress
  show (if run.id ∈ i.inFlight then _ else _) = _
  split_ifs <;> rfl

/-- Storing a run on a shard does not look at messages, so leaving them out before or after is the
same. -/
theorem syncStoreRunOnShard_plain (shard : WPTIndex) (id : RunID) (data : ShardData) :
    syncStoreRunOnShard shard.plain id (plainData data) =
      ((syncStoreRunOnShard shard id data).1.plain, (syncStoreRunOnShard shard id data).2) := by
  have htests : (plainData data).mapValues TestData.toTestName ∪ shard.plain.tests =
      (data.mapValues TestData.toTestName ∪ shard.tests).mapValues TestName.plain := by
    rw [GoMap.mapValues_union]
    congr 1
    refine Finmap.ext_lookup fun t => ?_
    simp only [plainData, GoMap.lookup_mapValues, Option.map_map]
    rfl
  have hresults : (plainData data).mapValues TestData.result = data.mapValues TestData.result := by
    refine Finmap.ext_lookup fun t => ?_
    simp only [plainData, GoMap.lookup_mapValues, Option.map_map]
    rfl
  unfold syncStoreRunOnShard
  rw [htests, hresults, show shard.plain.results = shard.results from rfl]
  cases addResults shard.results id (data.mapValues TestData.result) <;> rfl

/-- On all shards, up to the first error. -/
theorem storeOnShards_plain (id : RunID) (shards : List WPTIndex) (data : List ShardData) :
    storeOnShards id (shards.map WPTIndex.plain) (data.map plainData) =
      ((storeOnShards id shards data).1.map WPTIndex.plain, (storeOnShards id shards data).2) := by
  induction shards generalizing data with
  | nil => cases data <;> rfl
  | cons shard shards ih =>
    cases data with
    | nil => rfl
    | cons shardData data =>
      rw [List.map_cons, List.map_cons, storeOnShards, storeOnShards, syncStoreRunOnShard_plain,
        ih data]
      obtain ⟨stored, err⟩ := syncStoreRunOnShard shard id shardData
      cases err <;> rfl

theorem syncStoreRun_plain (run : TestRun) (data : List ShardData) (now : Int) :
    i.plain.syncStoreRun run (data.map plainData) now =
      ((i.syncStoreRun run data now).1.plain, (i.syncStoreRun run data now).2) := by
  unfold syncStoreRun
  rw [plain, storeOnShards_plain]
  obtain ⟨shards, err⟩ := storeOnShards run.id i.shards data
  cases err <;> rfl

theorem onShards_plain {f : WPTIndex → WPTIndex × Option IndexError}
    (hf : ∀ shard, f shard.plain = ((f shard).1.plain, (f shard).2)) (shards : List WPTIndex) :
    onShards f (shards.map WPTIndex.plain) =
      ((onShards f shards).1.map WPTIndex.plain, (onShards f shards).2) := by
  induction shards with
  | nil => rfl
  | cons shard shards ih =>
    rw [List.map_cons, onShards, onShards, hf, ih]
    obtain ⟨shard', err⟩ := f shard
    cases err <;> rfl

theorem syncDeleteResultsFromShard_plain (shard : WPTIndex) (id : RunID) :
    syncDeleteResultsFromShard shard.plain id = ((syncDeleteResultsFromShard shard id).1.plain,
      (syncDeleteResultsFromShard shard id).2) := by
  unfold syncDeleteResultsFromShard
  rw [show shard.plain.results = shard.results from rfl]
  cases deleteResults shard.results id <;> rfl

theorem evictLoop_plain (ids : List RunID) :
    evictLoop ids i.plain = ((evictLoop ids i).1.plain, (evictLoop ids i).2) := by
  induction ids generalizing i with
  | nil => rfl
  | cons id ids ih =>
    rw [evictLoop, evictLoop, plain, onShards_plain fun shard =>
      syncDeleteResultsFromShard_plain shard id]
    obtain ⟨shards, err⟩ := onShards (syncDeleteResultsFromShard · id) i.shards
    cases err with
    | some err => rfl
    | none => exact ih { i with shards, runs := i.runs.erase id }

/-- Which runs an eviction takes depends on the times of the LRU alone. -/
theorem syncEvictRuns_plain (percent : Percent) (entries : List (Σ _ : Int, Int)) :
    i.plain.syncEvictRuns percent entries =
      ((i.syncEvictRuns percent entries).1.plain, (i.syncEvictRuns percent entries).2) := by
  unfold syncEvictRuns
  show (if i.runs = ∅ then _ else _) = _
  rw [show i.plain.lru = i.lru from rfl]
  obtain ⟨ids, lru⟩ := i.lru.evictLRU percent entries
  have hloop := evictLoop_plain { i with lru } ids
  split_ifs with hruns
  · rfl
  · by_cases hids : ids = []
    · simp only [hids, if_true]
      rfl
    · simp only [hids, if_false]
      rw [show ({ i.plain with lru := lru } : ShardedWPTIndex) =
        ({ i with lru := lru } : ShardedWPTIndex).plain from rfl, hloop]
      obtain ⟨i', err⟩ := evictLoop ids { i with lru }
      cases err <;> rfl

end ShardedWPTIndex

def Index.plain (idx : Index) : Index := { idx with tests := idx.tests.mapValues TestName.plain }

theorem syncMakeIndex_plain (shard : WPTIndex) (ids : List RunID)
    (runResults : GoMap RunID RunResults) :
    syncMakeIndex shard.plain ids runResults =
      (syncMakeIndex shard ids runResults).map Index.plain := by
  induction ids generalizing runResults with
  | nil => rfl
  | cons id ids ih =>
    rw [syncMakeIndex, syncMakeIndex, show shard.plain.results = shard.results from rfl]
    cases shard.results.lookup id with
    | none => rfl
    | some rrs => exact ih _

theorem mapM_syncMakeIndex_plain (shards : List WPTIndex) (ids : List RunID) :
    (shards.map WPTIndex.plain).mapM (fun shard => syncMakeIndex shard ids ∅) =
      (shards.mapM fun shard => syncMakeIndex shard ids ∅).map (List.map Index.plain) := by
  induction shards with
  | nil => rfl
  | cons shard shards ih =>
    rw [List.map_cons, List.mapM_cons, List.mapM_cons, ih, syncMakeIndex_plain]
    cases syncMakeIndex shard ids ∅ with
    | error err => rfl
    | ok idx => cases shards.mapM fun shard => syncMakeIndex shard ids ∅ <;> rfl

theorem ShardedWPTIndex.syncExtractRuns_plain (i : ShardedWPTIndex) (ids : List RunID)
    (now : RunID → Int) :
    i.plain.syncExtractRuns ids now = ((i.syncExtractRuns ids now).1.plain,
      (i.syncExtractRuns ids now).2.map (List.map Index.plain)) := by
  unfold syncExtractRuns
  rw [show i.plain.shards = i.shards.map WPTIndex.plain from rfl, mapM_syncMakeIndex_plain]
  cases i.shards.mapM fun shard => syncMakeIndex shard ids ∅ <;> rfl

theorem ShardedWPTIndex.bind_plain (cases : CaseMapping) (i : ShardedWPTIndex)
    (runs : List TestRun) (q : Option ConcreteQuery) (now : RunID → Int) :
    (i.plain.bind cases runs q now).1 = (i.bind cases runs q now).1.plain := by
  unfold bind
  split_ifs
  · rfl
  · cases q with
    | none => rfl
    | some q =>
      simp only [syncExtractRuns_plain]

/-! ## Steps

The operations put together: a run of the system is one of the plain system, with plain reports. -/

namespace System

variable (s : System)

theorem plain_start (numShards : Nat) : (start numShards).plain = start numShards := by
  rw [plain, start, ShardedWPTIndex.plain_new]
  congr 1

theorem setCall_plain (c : Nat) (call : IngestCall) :
    (s.setCall c call).plain = s.plain.setCall c call.plain := by
  rw [plain, setCall, GoMap.mapValues_insert]
  rfl

theorem lookup_calls_plain (c : Nat) :
    s.plain.calls.lookup c = (s.calls.lookup c).map IngestCall.plain :=
  GoMap.lookup_mapValues _ _ _

theorem mark_plain (c : Nat) (run : TestRun) : (s.mark c run).plain = s.plain.mark c run := by
  unfold mark
  rw [show s.plain.index = s.index.plain from rfl, ShardedWPTIndex.syncMarkInProgress_plain]
  split_ifs
  · exact s.setCall_plain c _
  · obtain ⟨index, err⟩ := s.index.syncMarkInProgress run
    cases err with
    | none => exact setCall_plain { s with index } c _
    | some err => exact setCall_plain { s with index } c _

/-- **Step**: storing a run. -/
theorem store_plain (c : Nat) (run : TestRun) (report : Report) (data : List ShardData)
    (now : Int) : (s.store c run report data now).plain =
      s.plain.store c run report.plain (data.map plainData) now := by
  unfold store
  rw [show s.plain.index = s.index.plain from rfl, ShardedWPTIndex.syncStoreRun_plain]
  obtain ⟨index, err⟩ := s.index.syncStoreRun run data now
  cases err with
  | some err => exact setCall_plain { s with index } c _
  | none =>
    refine (setCall_plain { s with index, reports := s.reports.insert run.id report } c _).trans ?_
    rw [plain, GoMap.mapValues_insert]
    rfl

theorem clear_plain (c : Nat) (run : TestRun) (err : Option IndexError) :
    (s.clear c run err).plain = s.plain.clear c run err := by
  unfold clear
  rw [show s.plain.index = s.index.plain from rfl, ShardedWPTIndex.syncClearInProgress_plain]
  exact setCall_plain { s with index := (s.index.syncClearInProgress run).1 } c _

theorem evict_plain (percent : Percent) (entries : List (Σ _ : Int, Int)) :
    (s.evict percent entries).plain = s.plain.evict percent entries := by
  unfold evict
  rw [show s.plain.index = s.index.plain from rfl, ShardedWPTIndex.syncEvictRuns_plain, plain,
    GoMap.mapValues_eraseAll]
  rfl

end System

section Runs

variable {fingerprint64 : String → UInt64} {cases : CaseMapping} {names : Set TestName}
  {s s' : System}

/-- **Step**: loading a report. Its tests are distinct and no subtest is without a name, so no
message decides which row is written. -/
theorem load_plain (hsep : Separates fingerprint64 names) {c : Nat} {run : TestRun}
    {outcome : Except String Report} {order : String → RangeOrder String}
    (hloads : (Label.load c outcome order).plain.Loads names) :
    (s.load fingerprint64 c run outcome order).plain =
      s.plain.load fingerprint64 c run (outcome.map Report.plain) order := by
  cases outcome with
  | error message => exact s.setCall_plain c _
  | ok report =>
    obtain ⟨data, hdata, hplain⟩ := shardReport_plain hloads.1 hloads.2 hsep order
      s.index.shards.length
    unfold System.load
    simp only [Except.map]
    rw [hdata, show s.plain.index.shards.length = s.index.shards.length from List.length_map _,
      hplain]
    exact s.setCall_plain c _

/-- **Every step** is a step of the index of plain names. -/
theorem step_plain (hsep : Separates fingerprint64 names) {label : Label}
    (hloads : label.plain.Loads names) (hstep : s.step fingerprint64 cases label = some s') :
    s.plain.step fingerprint64 cases label.plain = some s'.plain := by
  cases System.moves_of_step hstep with
  | @mark c run hc =>
    -- leaving messages out does not change which calls there are
    have hc' : c ∉ s.plain.calls := fun h => hc (GoMap.mem_mapValues.mp h)
    show s.plain.step fingerprint64 cases (.mark c run) = _
    rw [System.step, if_neg hc', s.mark_plain]
  | @load c run hcall outcome order =>
    show s.plain.step fingerprint64 cases (.load c (outcome.map Report.plain) order) = _
    rw [System.step, s.lookup_calls_plain, hcall]
    exact congrArg some (load_plain hsep hloads).symm
  | @store c run report data hcall now =>
    show s.plain.step fingerprint64 cases (.store c now) = _
    rw [System.step, s.lookup_calls_plain, hcall, s.store_plain]
    rfl
  | @clear c run err hcall =>
    show s.plain.step fingerprint64 cases (.clear c) = _
    rw [System.step, s.lookup_calls_plain, hcall, s.clear_plain]
    rfl
  | @evict percent entries hentries =>
    show s.plain.step fingerprint64 cases (.evict percent entries) = _
    rw [System.step, s.evict_plain]
    exact if_pos hentries
  | bind runs q now =>
    show some { s.plain with index := (s.plain.index.bind cases runs q now).1 } = _
    rw [show s.plain.index = s.index.plain from rfl, ShardedWPTIndex.bind_plain]
    rfl

/-- **Every history** of calls is one of the index of plain names. -/
theorem run_plain (hsep : Separates fingerprint64 names) {labels : List Label}
    (hloads : ∀ label ∈ labels, label.plain.Loads names)
    (hrun : run (System.step fingerprint64 cases) s labels = some s') :
    run (System.step fingerprint64 cases) s.plain (labels.map Label.plain) = some s'.plain := by
  have hstep : ∀ {s : System} {label : Label} {s' t : System}, t = s.plain →
      label.plain.Loads names → s.step fingerprint64 cases label = some s' →
      ∃ t', t.step fingerprint64 cases label.plain = some t' ∧ t' = s'.plain := by
    rintro s label s' _ rfl hlabel hstep
    exact ⟨_, step_plain hsep hlabel hstep, rfl⟩
  obtain ⟨_, ht, rfl⟩ := Run.simulates (R := fun s t => t = s.plain) hstep hloads rfl hrun
  exact ht

end Runs

/-! ## A search by test name

A pattern only looks at the name of the test, which a plain name keeps, so a search finds the same
tests with the same counts. -/

section Search

variable {cases : CaseMapping} {idx : Index} {ids : List RunID} {opts : AggregationOpts}

theorem lookup_tests_plain (idx : Index) (t : TestID) :
    idx.plain.tests.lookup t = (idx.tests.lookup t).map TestName.plain :=
  GoMap.lookup_mapValues _ _ _

theorem nameFilter_plain {p : TestName → Bool} (hp : ∀ n : TestName, p n.plain = p n) :
    nameFilter idx.plain p = nameFilter idx p := by
  funext t
  unfold nameFilter
  rw [lookup_tests_plain]
  cases idx.tests.lookup t with
  | none => rfl
  | some n => exact congrArg some (hp n)

/-- A filter by test name does not see names of subtests. -/
theorem newFilter_plain (pattern : String) :
    newFilter cases idx.plain (prepareUserQuery ids (.testNamePattern pattern)) =
      newFilter cases idx (prepareUserQuery ids (.testNamePattern pattern)) := by
  have hbase : filters cases idx.plain
      (ids.map fun id => .runTestStatusNeq id TestStatus.unknown) =
        filters cases idx (ids.map fun id => .runTestStatusNeq id TestStatus.unknown) := by
    induction ids with
    | nil => rfl
    | cons id ids ih =>
      rw [List.map_cons, filters, filters, ih]
      rfl
  show andFilter [orFilter (filters cases idx.plain _), nameFilter idx.plain _] =
    andFilter [orFilter (filters cases idx _), nameFilter idx _]
  rw [hbase, nameFilter_plain fun n => rfl]

/-- Nor does the aggregator, where no subtests are asked for. -/
theorem add_plain (hopts : opts.includeSubtests = false) (agg : GoMap UInt64 SearchResult)
    (t : TestID) : add idx.plain ids opts agg t = add idx ids opts agg t := by
  have hrow : ∀ (r : SearchResult) (sub sub' : Option String) (statuses : List ResultID),
      addRow opts r sub statuses = addRow opts r sub' statuses := by
    intro r sub sub' statuses
    unfold addRow
    simp only [hopts]
    rfl
  unfold add
  rw [lookup_tests_plain]
  cases idx.tests.lookup t with
  | none => rfl
  | some n =>
    simp only [Option.map_some, hrow _ n.plain.subName n.subName]
    rfl

theorem syncRunFilter_plain (hopts : opts.includeSubtests = false) (order : RangeOrder TestID)
    (f : Filter) :
    syncRunFilter order ids opts (idx.plain, f) = syncRunFilter order ids opts (idx, f) := by
  have hkeys : idx.plain.tests.keys = idx.tests.keys := by
    ext t
    rw [Finmap.mem_keys, Finmap.mem_keys]
    exact GoMap.mem_mapValues
  unfold syncRunFilter
  simp only [add_plain hopts]
  rw [hkeys]

/-- So the plans for a search by test name find the same. -/
theorem execute_plain {i : ShardedWPTIndex} {runs : List TestRun} {pattern : String}
    {now : RunID → Int} {plan : ShardedFilter}
    (h : (i.plain.bind cases runs
      (some (prepareUserQuery (runs.map TestRun.id) (.testNamePattern pattern))) now).2 = .ok plan)
    (hopts : opts.includeSubtests = false) (order : RangeOrder TestID) :
    ∃ plan', (i.bind cases runs
        (some (prepareUserQuery (runs.map TestRun.id) (.testNamePattern pattern))) now).2 =
          .ok plan' ∧ execute order plan' runs opts = execute order plan runs opts := by
  unfold ShardedWPTIndex.bind at h ⊢
  split_ifs at h ⊢ with hruns
  simp only [ShardedWPTIndex.syncExtractRuns_plain] at h ⊢
  cases hidxs : (i.syncExtractRuns (runs.map TestRun.id) now).2 with
  | error err =>
    rw [hidxs] at h
    cases h
  | ok idxs =>
    rw [hidxs] at h
    cases h
    refine ⟨_, rfl, congrArg (Option.map List.sum) ?_⟩
    clear hidxs
    induction idxs with
    | nil => rfl
    | cons idx idxs ih =>
      simp only [List.map_cons, List.mapM_cons, syncRunFilter_plain hopts, newFilter_plain] at ih ⊢
      rw [ih]

end Search

/-- **A search by test name** gives the naive answer for the plain reports. -/
theorem search_testNamePattern {numShards : Nat} (hpos : 1 ≤ numShards)
    (fingerprint64 : String → UInt64) (cases : CaseMapping) {labels : List Label} {s : System}
    (hrun : run (System.step fingerprint64 cases) (System.start numShards) labels = some s)
    (hnodup : ∀ c report order, Label.load c (.ok report) order ∈ labels →
      (report.results.map TestResults.test).Nodup)
    (hsep : Separates fingerprint64 (loadedNames (labels.map Label.plain))) {runs : List TestRun}
    (hruns : runs ≠ []) (hresident : ∀ run ∈ runs, run.id ∈ s.index.runs) (pattern : String)
    {opts : AggregationOpts} (hopts : opts.includeSubtests = false) (now : RunID → Int)
    (order : RangeOrder TestID) :
    ∃ plan results,
      (s.index.bind cases runs
        (some (prepareUserQuery (runs.map TestRun.id) (.testNamePattern pattern))) now).2 =
          .ok plan ∧
      execute order plan runs opts = some results ∧
      results.map unordered =
        naiveSearch cases s.plain.reports (runs.map TestRun.id)
          (.testNamePattern pattern) opts := by
  have hvalid : ∀ c report order, Label.load c (.ok report) order ∈ labels.map Label.plain →
      report.Valid := by
    intro c report order hmem
    obtain ⟨label, hlabel, heq⟩ := List.mem_map.mp hmem
    cases label with
    | load c' outcome order' =>
      cases outcome with
      | error message => cases heq
      | ok raw =>
        cases heq
        exact Report.valid_plain (hnodup _ _ _ hlabel)
    | _ => cases heq
  -- the same history on plain reports, which are valid, answers for this one
  have hplain := run_plain hsep (fun label hlabel => loads_of_valid hvalid _
    (List.mem_map_of_mem hlabel)) hrun
  rw [System.plain_start] at hplain
  obtain ⟨hinv, hrep⟩ := represents_of_run hpos hsep (loads_of_valid hvalid) hplain
  obtain ⟨plan, results, hplan, hresults, hanswer⟩ := bind_execute hpos hsep hinv hrep hruns
    hresident (q := .testNamePattern pattern) nofun opts now order
  obtain ⟨plan', hplan', hsame⟩ := execute_plain hplan hopts order
  exact ⟨plan', results, hplan', hsame.trans hresults, hanswer⟩

end WptFyi.Cache
