import WptFyi.Cache.Interleaving
import WptFyi.Cache.Reports

/-!
# What the index holds of the reports it ingested

The tests of a shard are never removed, so after some history a shard knows rows
of runs that are gone as well as of those that are there. `Represents` relates
the shards to the reports of the resident runs all the same: every name sits
under its `TestID` in its shard, and the results of a resident run are what its
report says of the rows of that shard.

It is a relation and not a function of the reports: the tests of a shard depend on the whole
history, and only an inclusion is needed of them. What it adds to the invariant of `Interleaving`
is the content of the maps. A store is the only step that changes it, and there `lookup_shardReport`
says what the data is; an eviction takes the results of its victims and leaves the tests; marks,
clears and searches change neither. The reports have to be valid and the fingerprint must tell
apart all names that were ever loaded (`names`), those of evicted runs too, since their rows are
still in the tests.

- `Represents.step`: every step keeps it, as long as what is loaded is valid and
  the fingerprint tells the names apart;
- `represents_of_run`: so it holds after every run from a new index.
-/

namespace WptFyi.Cache

open Lib Query Shared

/-- Every row that a report has a status for is among the names. -/
def Report.Within (r : Report) (names : Set TestName) : Prop :=
  ∀ n re, r.find n = some re → n ∈ names

/-- What is loaded is valid, and its rows are among the names. -/
def Label.Loads (names : Set TestName) : Label → Prop
  | .load _ (.ok report) _ => report.Valid ∧ report.Within names
  | _ => True

section Represents

variable (fingerprint64 : String → UInt64) (names : Set TestName) (numShards : Nat)

/-- The results of a run in shard `j` are what the report says of its rows. -/
def ResultsOf (report : Report) (j : Nat) (rrs : RunResults) : Prop :=
  ∀ t re, rrs.lookup t = some re ↔
    ∃ n, report.find n = some re ∧ t = idOf fingerprint64 n ∧ shardIdx numShards t = j

/-- Shard `j`: names under their identifiers, and the results of the reports. -/
structure ShardRepresents (reports : GoMap RunID Report) (j : Nat) (shard : WPTIndex) : Prop where
  tests : ∀ t n, shard.tests.lookup t = some n →
    n ∈ names ∧ t = idOf fingerprint64 n ∧ shardIdx numShards t = j
  stored : ∀ id report, reports.lookup id = some report → ∃ rrs,
    shard.results.lookup id = some rrs ∧ ResultsOf fingerprint64 numShards report j rrs ∧
      ∀ t ∈ rrs, t ∈ shard.tests

/-- The index represents the reports of its runs. -/
structure Represents (s : System) : Prop where
  shard : ∀ j shard, s.index.shards[j]? = some shard →
    ShardRepresents fingerprint64 names numShards s.reports j shard
  keys : s.reports.keys = s.index.runs.keys
  named : ∀ id report, s.reports.lookup id = some report → report.Within names
  /-- A call that is about to store has cut its report right. -/
  storing : ∀ c run report data, s.calls.lookup c = some (.storing run report data) →
    report.Within names ∧
      ∀ j < numShards, HoldsReport fingerprint64 numShards report j (data.getD j ∅)

end Represents

section Shards

variable {fingerprint64 : String → UInt64} {names : Set TestName} {numShards j : Nat}
  {reports : GoMap RunID Report} {shard : WPTIndex}

/-- Storing a run on a shard. -/
theorem ShardRepresents.store (h : ShardRepresents fingerprint64 names numShards reports j shard)
    {id : RunID} {report : Report} {data : ShardData}
    (hdata : HoldsReport fingerprint64 numShards report j data) (hwithin : report.Within names) :
    ShardRepresents fingerprint64 names numShards (reports.insert id report) j
      { tests := data.mapValues TestData.toTestName ∪ shard.tests,
        results := shard.results.insert id (data.mapValues TestData.result) } where
  tests t n hn := by
    rcases Finmap.mem_lookup_union.mp hn with hnew | ⟨_, hold⟩
    · rw [Option.mem_def, GoMap.lookup_mapValues, Option.map_eq_some_iff] at hnew
      obtain ⟨td, htd, rfl⟩ := hnew
      obtain ⟨hfind, hid, hidx⟩ := (hdata t td).mp htd
      exact ⟨hwithin _ _ hfind, hid, hidx⟩
    · exact h.tests t n hold
  stored id' report' hreport' := by
    rw [GoMap.lookup_insert_eq_ite] at hreport'
    rw [GoMap.lookup_insert_eq_ite]
    split_ifs at hreport' ⊢ with hid
    · cases hreport'
      refine ⟨_, rfl, ?_, ?_⟩
      · intro t re
        rw [GoMap.lookup_mapValues, Option.map_eq_some_iff]
        constructor
        · rintro ⟨td, htd, rfl⟩
          obtain ⟨hfind, hid, hidx⟩ := (hdata t td).mp htd
          exact ⟨td.toTestName, hfind, hid, hidx⟩
        -- the name that was found has the result on this shard
        · rintro ⟨n, hfind, hid, hidx⟩
          exact ⟨{ n with result := re }, (hdata t _).mpr ⟨hfind, hid, hidx⟩, rfl⟩
      · intro t ht
        obtain ⟨re, hre⟩ := Finmap.mem_iff.mp ht
        rw [GoMap.lookup_mapValues, Option.map_eq_some_iff] at hre
        obtain ⟨td, htd, _⟩ := hre
        -- the results of a shard are of tests that it has a name for
        refine Finmap.mem_union.mpr (Or.inl (Finmap.mem_iff.mpr ⟨td.toTestName, ?_⟩))
        rw [GoMap.lookup_mapValues, htd]
        rfl
    · obtain ⟨rrs, hrrs, hresults, htests⟩ := h.stored id' report' hreport'
      exact ⟨rrs, hrrs, hresults, fun t ht => Finmap.mem_union.mpr (Or.inr (htests t ht))⟩

/-- Removing runs from a shard. -/
theorem ShardRepresents.without (h : ShardRepresents fingerprint64 names numShards reports j shard)
    (ids : List RunID) :
    ShardRepresents fingerprint64 names numShards (reports.eraseAll ids) j (shard.without ids) where
  tests := h.tests
  stored id report hreport := by
    rw [GoMap.lookup_eraseAll] at hreport
    split_ifs at hreport with hid
    obtain ⟨rrs, hrrs, hrest⟩ := h.stored id report hreport
    refine ⟨rrs, ?_, hrest⟩
    rw [WPTIndex.without, GoMap.lookup_eraseAll, if_neg hid, hrrs]

end Shards

namespace Represents

variable {fingerprint64 : String → UInt64} {cases : CaseMapping} {names : Set TestName}
  {numShards : Nat} {s : System}

theorem start (fingerprint64 : String → UInt64) (names : Set TestName) (numShards : Nat) :
    Represents fingerprint64 names numShards (System.start numShards) where
  shard j shard hshard := by
    have hnew : shard = ⟨∅, ∅⟩ := List.eq_of_mem_replicate (List.mem_of_getElem? hshard)
    subst hnew
    exact ⟨by simp, by simp [System.start]⟩
  keys := rfl
  named := by simp [System.start]
  storing := by simp [System.start]

/-- A step of a call that changes neither the shards nor the reports. -/
theorem setCall (h : Represents fingerprint64 names numShards s) {index : ShardedWPTIndex}
    (hshards : index.shards = s.index.shards) (hruns : index.runs = s.index.runs) {c : Nat}
    {next : IngestCall}
    (hnext : ∀ run report data, next = .storing run report data → report.Within names ∧
      ∀ j < numShards, HoldsReport fingerprint64 numShards report j (data.getD j ∅)) :
    Represents fingerprint64 names numShards
      { index, calls := s.calls.insert c next, reports := s.reports } where
  shard := by
    rw [hshards]
    exact h.shard
  keys := by
    rw [hruns]
    exact h.keys
  named := h.named
  storing c' run report data hcall := by
    simp only [GoMap.lookup_insert_eq_ite] at hcall
    split_ifs at hcall
    · exact hnext run report data (Option.some_inj.mp hcall)
    · exact h.storing c' run report data hcall

theorem mark (h : Represents fingerprint64 names numShards s) (c : Nat) (run : TestRun) :
    Represents fingerprint64 names numShards (s.mark c run) := by
  unfold System.mark ShardedWPTIndex.syncMarkInProgress
  split_ifs
  all_goals
    refine h.setCall ?_ ?_ ?_
    · rfl
    · rfl
    · rintro _ _ _ ⟨⟩

/-- **Step**: the data of a run that is loaded represents its report. -/
theorem load (h : Represents fingerprint64 names numShards s)
    (hsep : Separates fingerprint64 names) (hshards : s.index.shards.length = numShards) (c : Nat)
    (run : TestRun) {outcome : Except String Report} {order : String → RangeOrder String}
    (hloads : (Label.load c outcome order).Loads names) :
    Represents fingerprint64 names numShards (s.load fingerprint64 c run outcome order) := by
  unfold System.load
  cases outcome with
  | error message => exact h.setCall rfl rfl (by simp)
  | ok report =>
    simp only
    split
    · exact h.setCall rfl rfl (by simp)
    · next data hdata =>
      refine h.setCall rfl rfl ?_
      rintro run' report' data' heq
      cases heq
      rw [hshards] at hdata
      exact ⟨hloads.2, fun j hj => lookup_shardReport hloads.1 hloads.2 hsep hdata hj⟩

/-- **Step**: a run that is stored has its report, in each shard the part that belongs there. -/
theorem store (h : Represents fingerprint64 names numShards s) (hinv : s.Invariant numShards)
    {c : Nat} {run : TestRun} {report : Report} {data : List ShardData}
    (hc : s.calls.lookup c = some (.storing run report data)) (now : Int) :
    Represents fingerprint64 names numShards (s.store c run report data now) := by
  have hrun : run.id ∉ s.index.runs := hinv.pending hc rfl
  have hlen : data.length = s.index.shards.length := (hinv.data hc).trans hinv.shards.symm
  obtain ⟨hwithin, hholds⟩ := h.storing c run report data hc
  rw [System.store, syncStoreRun_spec hinv.resident hrun hlen]
  constructor
  · intro j shard hshard
    -- each shard is stored to on its own, with its part of the data
    have hzip : (List.zipWith (fun shard shardData =>
        (syncStoreRunOnShard shard run.id shardData).1) s.index.shards data)[j]? = some shard :=
      hshard
    rw [List.getElem?_zipWith_eq_some] at hzip
    obtain ⟨old, shardData, hold, hshardData, rfl⟩ := hzip
    have hj : j < numShards := by
      rw [← hinv.shards]
      exact (List.getElem?_eq_some_iff.mp hold).1
    -- the run was marked and not resident, so no shard has results of it
    have hnew : run.id ∉ old.results := by
      rw [← Finmap.mem_keys, hinv.resident.results old (List.mem_of_getElem? hold), Finmap.mem_keys]
      exact hrun
    have hdata := hholds j hj
    rw [List.getD_eq_getElem?_getD, hshardData, Option.getD_some] at hdata
    rw [syncStoreRunOnShard_of_notMem hnew]
    exact (h.shard j old hold).store hdata hwithin
  · show (s.reports.insert run.id report).keys = (s.index.runs.insert run.id run).keys
    rw [GoMap.keys_insert, GoMap.keys_insert, h.keys]
  · intro id report' hreport'
    have hlookup : (s.reports.insert run.id report).lookup id = some report' := hreport'
    rw [GoMap.lookup_insert_eq_ite] at hlookup
    split_ifs at hlookup
    · cases hlookup
      exact hwithin
    · exact h.named id report' hlookup
  · intro c' run' report' data' hcall'
    have hlookup : (s.calls.insert c (.clearing run none)).lookup c' =
        some (.storing run' report' data') := hcall'
    rw [GoMap.lookup_insert_eq_ite] at hlookup
    split_ifs at hlookup
    · cases hlookup
    · exact h.storing c' run' report' data' hlookup

theorem clear (h : Represents fingerprint64 names numShards s) (c : Nat) (run : TestRun)
    (err : Option IndexError) : Represents fingerprint64 names numShards (s.clear c run err) := by
  unfold System.clear ShardedWPTIndex.syncClearInProgress
  split_ifs
  all_goals
    refine h.setCall ?_ ?_ ?_
    · rfl
    · rfl
    · rintro _ _ _ ⟨⟩

/-- **Step**: the other runs keep their reports. -/
theorem evict (h : Represents fingerprint64 names numShards s) (hinv : s.Invariant numShards)
    (percent : Percent) {entries : List (Σ _ : Int, Int)}
    (hentries : s.index.lru.IsListing entries) :
    Represents fingerprint64 names numShards (s.evict percent entries) := by
  have herase : ∀ id report, (s.reports.eraseAll (s.index.victims percent entries)).lookup id =
      some report → s.reports.lookup id = some report := by
    intro id report hreport
    rw [GoMap.lookup_eraseAll] at hreport
    split_ifs at hreport
    exact hreport
  rcases syncEvictRuns_spec hinv.resident percent hentries with ⟨hempty, heq⟩ | ⟨_, _, heq⟩
  · -- nothing to evict: there are no reports either
    rw [System.evict, heq]
    refine ⟨fun j shard hshard => ⟨(h.shard j shard hshard).tests, fun id report hreport => ?_⟩,
      ?_, fun id report hreport => h.named id report (herase id report hreport), h.storing⟩
    · exact (h.shard j shard hshard).stored id report (herase id report hreport)
    · show (s.reports.eraseAll (s.index.victims percent entries)).keys = s.index.runs.keys
      rw [GoMap.keys_eraseAll, h.keys, hempty]
      exact Finset.empty_sdiff _
  · rw [System.evict, heq]
    refine ⟨?_, ?_, fun id report hreport => h.named id report (herase id report hreport),
      h.storing⟩
    · intro j shard hshard
      rw [List.getElem?_map, Option.map_eq_some_iff] at hshard
      obtain ⟨old, hold, rfl⟩ := hshard
      exact (h.shard j old hold).without _
    · show (s.reports.eraseAll (s.index.victims percent entries)).keys =
        (s.index.runs.eraseAll (s.index.victims percent entries)).keys
      rw [GoMap.keys_eraseAll, GoMap.keys_eraseAll, h.keys]

theorem bind (h : Represents fingerprint64 names numShards s) (hinv : s.Invariant numShards)
    (hpos : 1 ≤ numShards) (runs : List TestRun) (q : Option ConcreteQuery) (now : RunID → Int) :
    Represents fingerprint64 names numShards
      { s with index := (s.index.bind cases runs q now).1 } := by
  have hshards : s.index.shards ≠ [] := by
    rw [← List.length_pos_iff, hinv.shards]
    exact hpos
  obtain ⟨lru, heq, _⟩ := bind_index_spec hinv.resident hshards cases runs q now
  rw [heq]
  exact ⟨h.shard, h.keys, h.named, h.storing⟩

/-- **One step** keeps the representation. -/
theorem step (hpos : 1 ≤ numShards) (hsep : Separates fingerprint64 names) {label : Label}
    {s' : System} (h : Represents fingerprint64 names numShards s) (hinv : s.Invariant numShards)
    (hloads : label.Loads names) (hstep : s.step fingerprint64 cases label = some s') :
    Represents fingerprint64 names numShards s' := by
  cases System.moves_of_step hstep with
  | mark hc => exact h.mark _ _
  | load hc outcome order => exact h.load hsep hinv.shards _ _ hloads
  | store hc now => exact h.store hinv hc now
  | clear hc => exact h.clear _ _ _
  | evict percent hentries => exact h.evict hinv percent hentries
  | bind runs q now => exact h.bind hinv hpos runs q now

end Represents

/-- **Every history** of calls leaves an index that represents the reports of its
runs. -/
theorem represents_of_run {fingerprint64 : String → UInt64} {cases : CaseMapping}
    {names : Set TestName} {numShards : Nat} (hpos : 1 ≤ numShards)
    (hsep : Separates fingerprint64 names) {labels : List Label}
    (hloads : ∀ label ∈ labels, label.Loads names) {s : System}
    (hrun : run (System.step fingerprint64 cases) (System.start numShards) labels = some s) :
    s.Invariant numShards ∧ Represents fingerprint64 names numShards s := by
  refine @Run.invariant_of_forall _ _ _
    (fun s => s.Invariant numShards ∧ Represents fingerprint64 names numShards s)
      (Label.Loads names)
    ?_ labels hloads _ s ⟨.start numShards, .start fingerprint64 names numShards⟩ hrun
  intro s label s' h hlabel hstep
  exact ⟨h.1.step hpos hstep, h.2.step hpos hsep h.1 hlabel hstep⟩

end WptFyi.Cache
