import WptFyi.Cache.IngestRun

/-!
# What is ingested can be read again

Every row of a report is to be found in the index afterwards, in one shard, under its
`TestID`, with its name and its status, and nothing else is.

The statement is about what can be read through the maps of the shards, not about how they were
filled. That all rows have distinct identifiers is part of it (`Lossless.distinct`), since otherwise
two rows would share an entry. With names that the fingerprint tells apart there is one way for
this to fail: `computeTestID` takes an empty subtest name for none, so a subtest without a name has
the identifier of its test and is stored over it. Duplicates of a subtest name do no harm, as only
the first is stored.

- `Lossless`: that, for one run and its report;
- `syncStoreRun_lossless`: it holds after the store when no subtest name is empty;
- `not_distinct_of_not_named`: and not when one is;
- `ingestRun_lossless_iff`: so it holds exactly then, after any call that returns no error, and the
  index is one from which the next call starts.
-/

namespace WptFyi.Cache

open Lib Query Shared

/-- A row of a report: a test, or one with the name of one of its subtests. -/
def Report.IsRow (report : Report) (n : TestName) : Prop := ∃ re, report.find n = some re

/-- No subtest has the empty name. -/
def Report.Named (report : Report) : Prop :=
  ∀ res ∈ report.results, ∀ sub ∈ res.subtests, sub.name ≠ ""

/-- Shard `j` has a row of the run under the identifier `t`, and no other shard does. -/
structure RowAt (i : ShardedWPTIndex) (id : RunID) (t : TestID) (n : TestName) (re : ResultID)
    (j : Nat) : Prop where
  here : ∃ shard rrs, i.shards[j]? = some shard ∧ shard.tests.lookup t = some n ∧
    shard.results.lookup id = some rrs ∧ t ∈ rrs ∧ rrs.getResult t = re
  elsewhere : ∀ j' shard rrs, j' ≠ j → i.shards[j']? = some shard →
    shard.results.lookup id = some rrs → t ∉ rrs

/-- The index has the rows of a report, and for the run no others. -/
structure Lossless (fingerprint64 : String → UInt64) (i : ShardedWPTIndex) (id : RunID)
    (report : Report) : Prop where
  resident : id ∈ i.runs
  distinct : ∀ n n', report.IsRow n → report.IsRow n' →
    computeTestID fingerprint64 n.name n.subName = computeTestID fingerprint64 n'.name n'.subName →
    n = n'
  /-- The shard of a row is that of its test. -/
  rows : ∃ home : String → Nat, ∀ n re, report.find n = some re →
    ∃ t, computeTestID fingerprint64 n.name n.subName = some t ∧ RowAt i id t n re (home n.name)
  others : ∀ t, (∀ n, report.IsRow n → computeTestID fingerprint64 n.name n.subName ≠ some t) →
    ∀ shard ∈ i.shards, ∀ rrs, shard.results.lookup id = some rrs →
      rrs.getResult t = TestStatus.unknown

section Rows

variable {fingerprint64 : String → UInt64} {order : String → RangeOrder String}
  {report : Report}

/-- The identifier that is computed for a row. -/
theorem computeTestID_of_isRow (hvalid : report.Valid)
    (hsep : Separates fingerprint64 {n | report.IsRow n}) {n : TestName} (hn : report.IsRow n) :
    computeTestID fingerprint64 n.name n.subName = some (idOf fingerprint64 n) := by
  obtain ⟨name, subName⟩ := n
  cases subName with
  | none => rfl
  | some sub =>
    have hnonzero : fingerprint64 sub ≠ 0 := hsep.nonzero _ hn sub rfl
    obtain ⟨re, hre⟩ := hn
    obtain ⟨res, hres, -, hfind⟩ := (Report.find_eq_some_iff hvalid).mp hre
    obtain ⟨first, hfirst, -⟩ := Option.map_eq_some_iff.mp hfind
    have hname : first.name = sub := by simpa using List.find?_some hfirst
    have hne : sub ≠ "" := hname ▸ hvalid.subtests res hres first (List.mem_of_find?_eq_some hfirst)
    unfold computeTestID
    simp only
    rw [if_neg hne, if_neg hnonzero]
    rfl

/-- A shard after the store, from the shard and the data it is given. -/
theorem getElem?_stored {i : ShardedWPTIndex} (hresident : Resident i) {id : RunID}
    (hid : id ∉ i.runs) {data : List ShardData} {j : Nat} {stored : WPTIndex} :
    (List.zipWith (fun shard shardData => (syncStoreRunOnShard shard id shardData).1)
        i.shards data)[j]? = some stored ↔
      ∃ shard shardData, i.shards[j]? = some shard ∧ data[j]? = some shardData ∧
        stored = { tests := shardData.mapValues TestData.toTestName ∪ shard.tests,
                   results := shard.results.insert id (shardData.mapValues TestData.result) } := by
  have hstore : ∀ shard, i.shards[j]? = some shard → ∀ shardData,
      (syncStoreRunOnShard shard id shardData).1 =
        { tests := shardData.mapValues TestData.toTestName ∪ shard.tests,
          results := shard.results.insert id (shardData.mapValues TestData.result) } := by
    intro shard hshard shardData
    have hnew : id ∉ shard.results := by
      rw [← Finmap.mem_keys, hresident.results shard (List.mem_of_getElem? hshard), Finmap.mem_keys]
      exact hid
    rw [syncStoreRunOnShard_of_notMem hnew]
  rw [List.getElem?_zipWith_eq_some]
  constructor
  · rintro ⟨shard, shardData, hshard, hdata, rfl⟩
    exact ⟨shard, shardData, hshard, hdata, hstore shard hshard shardData⟩
  · rintro ⟨shard, shardData, hshard, hdata, rfl⟩
    exact ⟨shard, shardData, hshard, hdata, hstore shard hshard shardData⟩

/-- **The store** of a report that was cut, at any time the records of residency agree. -/
theorem syncStoreRun_lossless {i : ShardedWPTIndex} (hresident : Resident i)
    (hshards : i.shards ≠ []) {run : TestRun} (hrun : run.id ∉ i.runs) (hvalid : report.Valid)
    (hsep : Separates fingerprint64 {n | report.IsRow n}) {data : List ShardData}
    (hcut : shardReport fingerprint64 order report.results (List.replicate i.shards.length ∅) =
      .ok data) (now : Int) :
    Lossless fingerprint64 (i.syncStoreRun run data now).1 run.id report := by
  have hlen : data.length = i.shards.length := by
    rw [length_shardReport hcut, List.length_replicate]
  have hid : ∀ {n}, report.IsRow n →
      computeTestID fingerprint64 n.name n.subName = some (idOf fingerprint64 n) :=
    fun hn => computeTestID_of_isRow hvalid hsep hn
  have hholds : ∀ j shardData, data[j]? = some shardData →
      HoldsReport fingerprint64 i.shards.length report j shardData := by
    intro j shardData hdata
    obtain ⟨hj, -⟩ := List.getElem?_eq_some_iff.mp hdata
    have hwithin : ∀ n re, report.find n = some re → n ∈ {n | report.IsRow n} :=
      fun n re hre => ⟨re, hre⟩
    have hcuts := lookup_shardReport hvalid hwithin hsep hcut (hlen ▸ hj)
    rwa [List.getD_eq_getElem?_getD, hdata, Option.getD_some] at hcuts
  rw [syncStoreRun_spec hresident hrun hlen]
  constructor
  · exact Finmap.mem_insert.mpr (Or.inl rfl)
  · intro n n' hn hn' heq
    rw [hid hn, hid hn', Option.some_inj] at heq
    exact hsep.idOf_injOn hn hn' heq
  · refine ⟨fun test => shardIdx i.shards.length ⟨fingerprint64 test, 0⟩, fun n re hre =>
      ⟨_, hid ⟨re, hre⟩, ?_, ?_⟩⟩
    · -- the shard the code chooses has the row
      have hj : shardIdx i.shards.length (idOf fingerprint64 n) < i.shards.length :=
        Nat.mod_lt _ (List.length_pos_iff.mpr hshards)
      have hj' : shardIdx i.shards.length (idOf fingerprint64 n) < data.length := by
        rw [hlen]
        exact hj
      have hdata := List.getElem?_eq_getElem hj'
      have hrow := (hholds _ _ hdata (idOf fingerprint64 n) { n with result := re }).mpr
        ⟨hre, rfl, rfl⟩
      refine ⟨_, _, (getElem?_stored hresident hrun).mpr
        ⟨_, _, List.getElem?_eq_getElem hj, hdata, rfl⟩, ?_, Finmap.lookup_insert _, ?_, ?_⟩
      · refine Finmap.mem_lookup_union.mpr (Or.inl ?_)
        rw [Option.mem_def, GoMap.lookup_mapValues, hrow]
        rfl
      · refine Finmap.mem_iff.mpr ⟨re, ?_⟩
        rw [GoMap.lookup_mapValues, hrow]
        rfl
      · rw [RunResults.getResult, GoMap.lookup_mapValues, hrow]
        rfl
    · -- and no other
      intro j shard rrs hne hshard hrrs ht
      obtain ⟨old, shardData, -, hdata, rfl⟩ := (getElem?_stored hresident hrun).mp hshard
      rw [Finmap.lookup_insert, Option.some_inj] at hrrs
      subst hrrs
      obtain ⟨re', hre'⟩ := Finmap.mem_iff.mp ht
      rw [GoMap.lookup_mapValues, Option.map_eq_some_iff] at hre'
      obtain ⟨td, htd, -⟩ := hre'
      exact hne ((hholds j shardData hdata _ td).mp htd).2.2.symm
  · intro t hnot shard hshard rrs hrrs
    obtain ⟨j, hj⟩ := List.mem_iff_getElem?.mp hshard
    obtain ⟨old, shardData, -, hdata, rfl⟩ := (getElem?_stored hresident hrun).mp hj
    rw [Finmap.lookup_insert, Option.some_inj] at hrrs
    subst hrrs
    have hnone : shardData.lookup t = none := by
      cases htd : shardData.lookup t with
      | none => rfl
      | some td =>
        obtain ⟨hfind, rfl, -⟩ := (hholds j shardData hdata t td).mp htd
        exact absurd (hid ⟨_, hfind⟩) (hnot _ ⟨_, hfind⟩)
    rw [RunResults.getResult, GoMap.lookup_mapValues, hnone]
    rfl

/-- What is read of an index does not depend on what is in flight. -/
theorem Lossless.clear {i : ShardedWPTIndex} {id : RunID} (h : Lossless fingerprint64 i id report)
    (run : TestRun) : Lossless fingerprint64 (i.syncClearInProgress run).1 id report := by
  unfold ShardedWPTIndex.syncClearInProgress
  split_ifs
  · obtain ⟨home, hrows⟩ := h.rows
    refine ⟨h.resident, h.distinct, ⟨home, fun n re hre => ?_⟩, h.others⟩
    obtain ⟨t, ht, hrow⟩ := hrows n re hre
    exact ⟨t, ht, hrow.here, hrow.elsewhere⟩
  · exact h

/-- A subtest with the empty name has the identifier of its test. -/
theorem not_distinct_of_not_named (hnodup : (report.results.map TestResults.test).Nodup)
    (h : ¬ report.Named) : ∃ n n', report.IsRow n ∧ report.IsRow n' ∧ n ≠ n' ∧
      computeTestID fingerprint64 n.name n.subName =
        computeTestID fingerprint64 n'.name n'.subName := by
  simp only [Report.Named, not_forall, not_not] at h
  obtain ⟨res, hres, sub, hsub, hname⟩ := h
  have hfind : (report.results.find? fun res' => res'.test = res.test) = some res :=
    find?_of_nodup_map hnodup hres
  refine ⟨⟨res.test, none⟩, ⟨res.test, some ""⟩, ?_, ?_, by simp, rfl⟩
  · exact ⟨_, by rw [Report.find, hfind]; rfl⟩
  · obtain ⟨first, hfirst⟩ :
        ∃ first, (res.subtests.find? fun sub' => sub'.name = "") = some first := by
      cases hfirst : res.subtests.find? fun sub' => sub'.name = "" with
      | none => exact absurd (by simpa using hname) (List.find?_eq_none.mp hfirst sub hsub)
      | some first => exact ⟨first, rfl⟩
    refine ⟨TestStatus.testStatusValueFromString first.status, ?_⟩
    rw [Report.find, hfind]
    show (res.subtests.find? fun sub' => sub'.name = "").map _ = _
    rw [hfirst]
    rfl

end Rows

/-- **Ingestion.** However the index came about, a call of `IngestRun` that returns no
error, for a report with distinct test names that the fingerprint tells apart, leaves all
its rows to be read exactly when no subtest has the empty name. The index comes about, so the next
call is one of these, too. -/
theorem ingestRun_lossless_iff {fingerprint64 : String → UInt64} {cases : CaseMapping}
    {numShards : Nat} (hpos : 1 ≤ numShards) {s : System}
    (hs : Reachable (System.step fingerprint64 cases) (System.start numShards) s)
    (order : String → RangeOrder String) (now : Int) {run : TestRun} {loaded : Loaded}
    {report : Report} (hloaded : loaded.report = some report)
    (hok : (s.index.ingestRun fingerprint64 order now run loaded).2 = .returned none)
    (hnodup : (report.results.map TestResults.test).Nodup)
    (hsep : Separates fingerprint64 {n | report.IsRow n}) :
    (Lossless fingerprint64 (s.index.ingestRun fingerprint64 order now run loaded).1 run.id report ↔
      report.Named) ∧
    ∃ s', Reachable (System.step fingerprint64 cases) (System.start numShards) s' ∧
      s'.index = (s.index.ingestRun fingerprint64 order now run loaded).1 := by
  have hinv := System.Invariant.reachable hpos hs
  have hshards : s.index.shards ≠ [] := by
    rw [← List.length_pos_iff, hinv.shards]
    exact hpos
  refine ⟨⟨?_, ?_⟩, reachable_ingestRun hs order now hshards hloaded⟩
  · intro h
    -- a subtest without a name and its test would share a row
    by_contra hnamed
    obtain ⟨n, n', hn, hn', hne, heq⟩ := not_distinct_of_not_named hnodup hnamed
    exact hne (h.distinct n n' hn hn' heq)
  · intro hnamed
    obtain ⟨hmark, report', data, hreport', -, hcut, hindex⟩ := ShardedWPTIndex.ingestRun_ok hok
    rw [hloaded] at hreport'
    cases hreport'
    -- marking a run leaves LRU and shards alone, so storing it is all that matters
    have hresident : Resident (s.index.marked run) := ⟨hinv.resident.lru, hinv.resident.results⟩
    rw [hindex]
    exact (syncStoreRun_lossless hresident hshards hmark.absent ⟨hnodup, hnamed⟩ hsep hcut
      now).clear run

/-- Names of one test with subtests of one name are told apart. -/
theorem separates_of_forall {fingerprint64 : String → UInt64} {names : Set TestName}
    {test subtest : String} (h : ∀ n ∈ names, n.name = test ∧
      ∀ sub, n.subName = some sub → sub = subtest) (hnonzero : fingerprint64 subtest ≠ 0) :
    Separates fingerprint64 names where
  tests n hn n' hn' _ := by rw [(h n hn).1, (h n' hn').1]
  subtests n hn n' hn' sub sub' hsub hsub' _ := by rw [(h n hn).2 sub hsub, (h n' hn').2 sub' hsub']
  nonzero n hn sub hsub := by
    rw [(h n hn).2 sub hsub]
    exact hnonzero

/-- The fingerprints of `/a.html`, of `loads` and of the empty name. -/
def threeFingerprints (s : String) : UInt64 :=
  if s = "/a.html" then 7909594790716167635
  else if s = "loads" then 16587641761806658803
  else 11160318154034397263

/-- A test with two subtests of one name. -/
def twoLoads : Report := ⟨[⟨"/a.html", "OK", [⟨"loads", "PASS"⟩, ⟨"loads", "FAIL"⟩]⟩]⟩

/-- The first of them is what is read. -/
theorem lossless_twoLoads :
    Lossless threeFingerprints ((System.start 3).index.ingestRun threeFingerprints
        (fun _ => sortedOrder id Function.injective_id) 5 { id := 1, browserName := "chrome" }
        ⟨some twoLoads, none⟩).1 1 twoLoads := by
  have hnodup : (twoLoads.results.map TestResults.test).Nodup := List.nodup_singleton _
  have hsubs : ∀ res ∈ twoLoads.results, ∀ sub ∈ res.subtests, sub.name = "loads" := by
    simp [twoLoads]
  have hnames : ∀ n ∈ {n | twoLoads.IsRow n}, n.name = "/a.html" ∧
      ∀ sub, n.subName = some sub → sub = "loads" := by
    rintro n ⟨re, hre⟩
    have hvalid : twoLoads.Valid := ⟨hnodup, fun res hres sub hsub => by
      rw [hsubs res hres sub hsub]
      decide⟩
    obtain ⟨res, hres, hname, hfind⟩ := (Report.find_eq_some_iff hvalid).mp hre
    refine ⟨by rw [← hname, List.mem_singleton.mp hres], fun sub hsub => ?_⟩
    rw [hsub] at hfind
    obtain ⟨first, hfirst, -⟩ := Option.map_eq_some_iff.mp hfind
    have hname : first.name = sub := by simpa using List.find?_some hfirst
    rw [← hname, hsubs res hres first (List.mem_of_find?_eq_some hfirst)]
  refine (@ingestRun_lossless_iff threeFingerprints ⟨id, (· == ·)⟩ 3 (by decide) (System.start 3)
    ⟨[], rfl⟩ _ _ _ ⟨some twoLoads, none⟩ _ rfl ?_ hnodup
    (separates_of_forall hnames (by decide))).1.mpr fun res hres sub hsub => by
      rw [hsubs res hres sub hsub]
      decide
  · refine ShardedWPTIndex.ingestRun_of_good ⟨by decide, Finmap.notMem_empty, Finset.notMem_empty _⟩
      ⟨fun _ => nofun, rfl, fun hnil => absurd hnil (List.cons_ne_nil _ _), ?_⟩
    intro res hres sub hsub hzero
    rw [SubTest.ZeroID, hsubs res hres sub hsub] at hzero
    exact absurd hzero.2 (by decide)

/-- A subtest without a name takes the place of its test. -/
theorem not_lossless_emptyName : ¬ ∀ (fingerprint64 : String → UInt64) (cases : CaseMapping)
    (numShards : Nat) (s : System) (order : String → RangeOrder String) (now : Int) (run : TestRun)
    (report : Report), 1 ≤ numShards →
    Reachable (System.step fingerprint64 cases) (System.start numShards) s →
    (s.index.ingestRun fingerprint64 order now run ⟨some report, none⟩).2 = .returned none →
    (report.results.map TestResults.test).Nodup →
    Separates fingerprint64 {n | report.IsRow n} →
    Lossless fingerprint64 (s.index.ingestRun fingerprint64 order now run ⟨some report, none⟩).1
      run.id report := by
  intro hall
  let report : Report := ⟨[⟨"/a.html", "OK", [⟨"", "FAIL"⟩]⟩]⟩
  have hnodup : (report.results.map TestResults.test).Nodup := List.nodup_singleton _
  have hnames : ∀ n ∈ {n | report.IsRow n}, n.name = "/a.html" ∧
      ∀ sub, n.subName = some sub → sub = "" := by
    rintro ⟨name, subName⟩ ⟨re, hre⟩
    obtain ⟨res, hres, hfind⟩ := Option.bind_eq_some_iff.mp hre
    have hname : res.test = name := by simpa using List.find?_some hres
    have hres := List.mem_singleton.mp (List.mem_of_find?_eq_some hres)
    subst hres
    refine ⟨hname.symm, ?_⟩
    rintro sub ⟨⟩
    obtain ⟨first, hfirst, -⟩ := Option.map_eq_some_iff.mp hfind
    have hsub : first.name = sub := by simpa using List.find?_some hfirst
    rw [← hsub, List.mem_singleton.mp (List.mem_of_find?_eq_some hfirst)]
  have hlossless := hall threeFingerprints ⟨id, (· == ·)⟩ 1 (System.start 1)
    (fun _ => sortedOrder id Function.injective_id) 5 { id := 1, browserName := "chrome" } report
    (by decide) ⟨[], rfl⟩ ?_ hnodup (separates_of_forall hnames (by decide))
  -- an empty subtest name counts as none, and the two rows share their ID
  · have hrows := hlossless.distinct ⟨"/a.html", none⟩ ⟨"/a.html", some ""⟩ ⟨_, rfl⟩ ⟨_, rfl⟩ rfl
    cases hrows
  · refine ShardedWPTIndex.ingestRun_of_good ⟨by decide, Finmap.notMem_empty, Finset.notMem_empty _⟩
      ⟨fun _ => nofun, rfl, fun hnil => absurd hnil (List.cons_ne_nil _ _), ?_⟩
    intro res hres sub hsub hzero
    rw [List.mem_singleton.mp hres] at hsub
    rw [List.mem_singleton.mp hsub] at hzero
    exact hzero.1 rfl

end WptFyi.Cache
