import WptFyi.Cache.Interleaving
import WptFyi.Cache.Reports

/-!
# One call of `IngestRun` (`cache/index/index.go`)

`ingestRun` is the whole function, from the check of the ID to the deferred clear, with
nothing else in between. What it shares with other goroutines is in `Interleaving`;
`exists_run_ingestRun` says that the call is a run of that system, and `reachable_ingestRun` that
the index it leaves is one that the system reaches.

The function has many ways to fail and changes the index at three places, so the question is which
failures come after which change. The mark comes first and is taken back by the deferred clear on
every way out. The report is cut into the data of the shards before anything is stored; a subtest
whose fingerprint is zero makes that fail, at whatever position it is, and then nothing was stored.
After that only the store can fail, and its error is logged and not returned. So a call that returns
an error has left the index as it was, and the errors can be listed by what the call was given:
`Refused`. A nil report without an error, or an index without shards, is a panic and not an error
(`Unreadable`).

- `ingestMarked_cases`: what a call does after its mark;
- `shardReport_isOk_iff`: a report is cut unless a subtest's fingerprint is 0;
- `Refused`: the calls that return an error, and `ingestRun_of_refused`: they leave
  nothing behind;
- `ingestRun_error_iff`: these are all, and a later call goes as if they had not been made.
-/

namespace WptFyi.Cache

open Lib Shared

/-! ## The call -/

/-- An error of a loader; `errEmptyReport` is told apart from all others. -/
inductive LoadError where
  | emptyReport
  | other (message : String)
deriving DecidableEq

/-- What `ReportLoader.Load` returns: a report, which may be nil, and an error. -/
structure Loaded where
  report : Option Report
  err : Option LoadError
deriving DecidableEq

/-- How a call ends. -/
inductive CallEnd where
  | returned (err : Option IndexError)
  /-- On a nil report that is read, or a remainder by no shards. -/
  | panicked
deriving DecidableEq

namespace ShardedWPTIndex

variable (fingerprint64 : String → UInt64)

/-- `IngestRun` between the mark and the deferred clear. An error of the store is only
logged. -/
def ingestMarked (order : String → RangeOrder String) (now : Int) (i : ShardedWPTIndex)
    (run : TestRun) (loaded : Loaded) : ShardedWPTIndex × CallEnd :=
  match loaded.err with
  | some (.other message) => (i, .returned (some (.loadFailed message)))
  | _ =>
    match loaded.report with
    | none => (i, .panicked)
    | some report =>
      if i.shards = [] ∧ report.results ≠ [] then (i, .panicked)
      else
        match shardReport fingerprint64 order report.results
            (List.replicate i.shards.length ∅) with
        | .error err => (i, .returned (some err))
        | .ok data => ((i.syncStoreRun run data now).1, .returned none)

/-- `IngestRun`, where the loader returns `loaded` and the store is at the time `now`. -/
def ingestRun (order : String → RangeOrder String) (now : Int) (i : ShardedWPTIndex)
    (run : TestRun) (loaded : Loaded) : ShardedWPTIndex × CallEnd :=
  if run.id = 0 then (i, .returned (some .zeroRun))
  else
    match i.syncMarkInProgress run with
    | (i, some err) => (i, .returned (some err))
    | (i, none) =>
      -- the deferred clear also runs when the rest panics
      let (i, ending) := i.ingestMarked fingerprint64 order now run loaded
      ((i.syncClearInProgress run).1, ending)

end ShardedWPTIndex

/-! ## Reports that are cut

A report is cut unless a subtest has the fingerprint zero, at whatever place it is. The fingerprint
of a test alone is not looked at. -/

section Cutting

variable {fingerprint64 : String → UInt64} {order : String → RangeOrder String}

/-- The subtest gets no identifier: 0 is that of no subtest. -/
def SubTest.ZeroID (fingerprint64 : String → UInt64) (sub : SubTest) : Prop :=
  sub.name ≠ "" ∧ fingerprint64 sub.name = 0

/-- No subtest of the report is without an identifier. -/
def Report.Identified (fingerprint64 : String → UInt64) (report : Report) : Prop :=
  ∀ res ∈ report.results, ∀ sub ∈ res.subtests, ¬ sub.ZeroID fingerprint64

theorem computeTestID_eq_none_iff (test : String) {sub : SubTest} :
    computeTestID fingerprint64 test (some sub.name) = none ↔ sub.ZeroID fingerprint64 := by
  unfold computeTestID SubTest.ZeroID
  simp only
  split_ifs with hempty hzero
  · exact iff_of_false (by simp) fun h => h.1 hempty
  · exact iff_of_true rfl ⟨hempty, hzero⟩
  · exact iff_of_false (by simp) fun h => hzero h.2

/-- The loop over subtests fails at the first one whose hash is zero. -/
theorem addSubtests_isOk_iff {test : String} {subs : GoMap String SubTest} {keys : List String}
    {data : ShardData} :
    (∃ data', addSubtests fingerprint64 test subs keys data = .ok data') ↔
      ∀ key ∈ keys, ∀ sub, subs.lookup key = some sub → ¬ sub.ZeroID fingerprint64 := by
  induction keys generalizing data with
  | nil => exact iff_of_true ⟨data, rfl⟩ (by simp)
  | cons key keys ih =>
    rw [addSubtests, List.forall_mem_cons]
    cases hsub : subs.lookup key with
    | none => simp [ih]
    | some sub =>
      simp only [Option.some.injEq, forall_eq']
      rw [← computeTestID_eq_none_iff test]
      cases hid : computeTestID fingerprint64 test (some sub.name) with
      | none => simp
      | some t => simp [ih]

/-- So the results of a test can be added when no hash of a subtest is zero. -/
theorem addTestResults_isOk_iff {res : TestResults} (data : ShardData) :
    (∃ data', addTestResults fingerprint64 order res data = .ok data') ↔
      ∀ sub ∈ res.subtests, ¬ sub.ZeroID fingerprint64 := by
  rw [addTestResults, addSubtests_isOk_iff]
  constructor
  · intro h sub hsub hzero
    -- the first subtest of the name is visited instead
    cases hfirst : res.subtests.find? fun sub' => sub'.name = sub.name with
    | none => exact absurd (by simp) (List.find?_eq_none.mp hfirst sub hsub)
    | some first =>
      have hname : first.name = sub.name := by simpa using List.find?_some hfirst
      have hlookup : (dedupSubtests res.subtests).lookup sub.name = some first := by
        rw [lookup_dedupSubtests, hfirst]
      refine h sub.name ?_ first hlookup ?_
      · rw [mem_rangeOrder, Finmap.mem_keys]
        exact Finmap.mem_of_lookup_eq_some hlookup
      · rw [SubTest.ZeroID, hname]
        exact hzero
  · intro h key _ sub hsub
    rw [lookup_dedupSubtests] at hsub
    exact h sub (List.mem_of_find?_eq_some hsub)

/-- **A report is cut** unless a subtest at some place has no identifier. -/
theorem shardReport_isOk_iff {results : List TestResults} {shardData : List ShardData} :
    (∃ data, shardReport fingerprint64 order results shardData = .ok data) ↔
      ∀ res ∈ results, ∀ sub ∈ res.subtests, ¬ sub.ZeroID fingerprint64 := by
  induction results generalizing shardData with
  | nil => exact iff_of_true ⟨shardData, rfl⟩ (by simp)
  | cons res results ih =>
    rw [shardReport, List.forall_mem_cons]
    generalize shardIdx shardData.length ⟨fingerprint64 res.test, 0⟩ = idx
    rw [← @addTestResults_isOk_iff fingerprint64 order res (shardData.getD idx ∅)]
    cases addTestResults fingerprint64 order res (shardData.getD idx ∅) with
    | error err => simp
    | ok data => simp [ih]

end Cutting

/-! ## Calls that are refused

A call ends early because its run has no ID, is there already or is being loaded, or since its
report cannot be read or cut. In each case the index is afterwards what it was before, but for the
mark, which is taken back. -/

namespace ShardedWPTIndex

variable {fingerprint64 : String → UInt64} {order : String → RangeOrder String} {now : Int}
  {i : ShardedWPTIndex} {run : TestRun} {loaded : Loaded} {report : Report}

/-- The ID can be marked. -/
structure Markable (i : ShardedWPTIndex) (run : TestRun) : Prop where
  nonzero : run.id ≠ 0
  absent : run.id ∉ i.runs
  idle : run.id ∉ i.inFlight

/-- The loader gives the report, and it can be cut. -/
structure Good (fingerprint64 : String → UInt64) (i : ShardedWPTIndex) (loaded : Loaded)
    (report : Report) : Prop where
  noErr : ∀ message, loaded.err ≠ some (.other message)
  loads : loaded.report = some report
  shards : i.shards = [] → report.results = []
  identified : report.Identified fingerprint64

/-- An error of the loader, or a subtest without an identifier in what it gives. -/
def Rejected (fingerprint64 : String → UInt64) (i : ShardedWPTIndex) (loaded : Loaded) : Prop :=
  (∃ message, loaded.err = some (.other message)) ∨
    ∃ report, loaded.report = some report ∧ i.shards ≠ [] ∧ ¬ report.Identified fingerprint64

/-- The report is nil, or there is no shard to put its results into. -/
structure Unreadable (i : ShardedWPTIndex) (loaded : Loaded) : Prop where
  noErr : ∀ message, loaded.err ≠ some (.other message)
  noShard : ∀ report, loaded.report = some report → i.shards = [] ∧ report.results ≠ []

/-- The calls that return an error: on a zero ID, a run that is there, one that is being
loaded, an error of the loader other than an empty report, and a subtest without an
identifier anywhere in the report. -/
def Refused (fingerprint64 : String → UInt64) (i : ShardedWPTIndex) (run : TestRun)
    (loaded : Loaded) : Prop :=
  run.id = 0 ∨ run.id ∈ i.runs ∨ run.id ∈ i.inFlight ∨ Rejected fingerprint64 i loaded

theorem Good.not_rejected (h : Good fingerprint64 i loaded report) :
    ¬ Rejected fingerprint64 i loaded := by
  rintro (⟨message, herr⟩ | ⟨report', hreport', _, hzero⟩)
  · exact h.noErr message herr
  · rw [h.loads] at hreport'
    cases hreport'
    exact hzero h.identified

theorem Good.not_unreadable (h : Good fingerprint64 i loaded report) : ¬ Unreadable i loaded := by
  intro hunreadable
  obtain ⟨hshards, hresults⟩ := hunreadable.noShard report h.loads
  exact hresults (h.shards hshards)

theorem Unreadable.not_rejected (h : Unreadable i loaded) : ¬ Rejected fingerprint64 i loaded := by
  rintro (⟨message, herr⟩ | ⟨report', hreport', hshards, _⟩)
  · exact h.noErr message herr
  · exact hshards (h.noShard report' hreport').1

/-- **After the mark** a call is rejected, panics or stores; only the last changes the
index, and then there is no error. -/
theorem ingestMarked_cases (fingerprint64 : String → UInt64) (order : String → RangeOrder String)
    (now : Int) (i : ShardedWPTIndex) (run : TestRun) (loaded : Loaded) :
    (Rejected fingerprint64 i loaded ∧ ∃ err,
      i.ingestMarked fingerprint64 order now run loaded = (i, .returned (some err))) ∨
    (Unreadable i loaded ∧
      i.ingestMarked fingerprint64 order now run loaded = (i, .panicked)) ∨
    ∃ report data, Good fingerprint64 i loaded report ∧
      shardReport fingerprint64 order report.results (List.replicate i.shards.length ∅) = .ok data ∧
      i.ingestMarked fingerprint64 order now run loaded =
        ((i.syncStoreRun run data now).1, .returned none) := by
  unfold ingestMarked
  split
  · next message herr => exact Or.inl ⟨Or.inl ⟨message, herr⟩, _, rfl⟩
  · next hother =>
    have hnoErr : ∀ message, loaded.err ≠ some (.other message) := hother
    -- the error for an empty report is passed over, and a nil report read
    cases hreport : loaded.report with
    | none => exact Or.inr (Or.inl ⟨⟨hnoErr, fun _ h => by rw [hreport] at h; cases h⟩, rfl⟩)
    | some report =>
      simp only
      split_ifs with hshards
      · refine Or.inr (Or.inl ⟨⟨hnoErr, fun _ h => ?_⟩, rfl⟩)
        rw [hreport] at h
        cases h
        exact hshards
      · have hgood : i.shards = [] → report.results = [] := fun hnil =>
          by_contra fun hresults => hshards ⟨hnil, hresults⟩
        cases hcut : shardReport fingerprint64 order report.results
            (List.replicate i.shards.length ∅) with
        | error err =>
          -- cutting fails only at an ID of zero, which needs a shard to be cut for
          have hzero : ¬ report.Identified fingerprint64 := fun hall => by
            obtain ⟨data, hdata⟩ := shardReport_isOk_iff.mpr hall
            rw [hcut] at hdata
            cases hdata
          have hne : i.shards ≠ [] := fun hnil => by
            rw [hgood hnil] at hcut
            cases hcut
          exact Or.inl ⟨Or.inr ⟨report, hreport, hne, hzero⟩, _, rfl⟩
        | ok data =>
          exact Or.inr (Or.inr ⟨report, data,
            ⟨hnoErr, hreport, hgood, shardReport_isOk_iff.mp ⟨data, hcut⟩⟩, hcut, rfl⟩)

/-- A run that is marked is cleared again. -/
theorem syncClearInProgress_mark (h : run.id ∉ i.inFlight) :
    (syncClearInProgress { i with inFlight := insert run.id i.inFlight } run).1 = i := by
  rw [syncClearInProgress, if_pos (Finset.mem_insert_self _ _)]
  show { i with inFlight := (insert run.id i.inFlight).erase run.id } = i
  rw [Finset.erase_insert h]

theorem ingestRun_of_not_markable (h : ¬ i.Markable run) :
    ∃ err, i.ingestRun fingerprint64 order now run loaded = (i, .returned (some err)) := by
  unfold ingestRun syncMarkInProgress
  split_ifs with hzero hexists hloading
  · exact ⟨_, rfl⟩
  · exact ⟨_, rfl⟩
  · exact ⟨_, rfl⟩
  · exact absurd ⟨hzero, hexists, hloading⟩ h

/-- The index with the run marked. -/
def marked (i : ShardedWPTIndex) (run : TestRun) : ShardedWPTIndex :=
  { i with inFlight := insert run.id i.inFlight }

theorem ingestRun_of_markable (h : i.Markable run) :
    i.ingestRun fingerprint64 order now run loaded =
      ((((i.marked run).ingestMarked fingerprint64 order now run loaded).1.syncClearInProgress
        run).1,
        ((i.marked run).ingestMarked fingerprint64 order now run loaded).2) := by
  rw [ingestRun, if_neg h.nonzero, syncMarkInProgress, if_neg h.absent, if_neg h.idle]
  rfl

/-- A call refuses its run when it may not be marked or its report is rejected. -/
theorem refused_iff : Refused fingerprint64 i run loaded ↔
    ¬ i.Markable run ∨ Rejected fingerprint64 i loaded := by
  constructor
  · rintro (hzero | hexists | hloading | hrejected)
    · exact Or.inl fun h => h.nonzero hzero
    · exact Or.inl fun h => h.absent hexists
    · exact Or.inl fun h => h.idle hloading
    · exact Or.inr hrejected
  · rintro (hmark | hrejected)
    · by_contra hrefused
      simp only [Refused, not_or] at hrefused
      exact hmark ⟨hrefused.1, hrefused.2.1, hrefused.2.2.1⟩
    · exact Or.inr (Or.inr (Or.inr hrejected))

/-- **A refused call** returns an error and leaves the index as it was. -/
theorem ingestRun_of_refused (order : String → RangeOrder String) (now : Int)
    (h : Refused fingerprint64 i run loaded) :
    ∃ err, i.ingestRun fingerprint64 order now run loaded = (i, .returned (some err)) := by
  by_cases hmark : i.Markable run
  · have hrejected : Rejected fingerprint64 (i.marked run) loaded :=
      (refused_iff.mp h).resolve_left (not_not_intro hmark)
    rw [ingestRun_of_markable hmark]
    rcases ingestMarked_cases fingerprint64 order now (i.marked run) run loaded with
      ⟨_, err, heq⟩ | ⟨hunreadable, _⟩ | ⟨report, data, hgood, _⟩
    · rw [heq]
      exact ⟨err, by rw [marked, syncClearInProgress_mark hmark.idle]⟩
    · exact absurd hrejected hunreadable.not_rejected
    · exact absurd hrejected hgood.not_rejected
  · exact ingestRun_of_not_markable hmark

/-- A call that can be marked and whose report can be cut returns without an error. -/
theorem ingestRun_of_good (hmark : i.Markable run) (h : Good fingerprint64 i loaded report) :
    (i.ingestRun fingerprint64 order now run loaded).2 = .returned none := by
  have hgood : Good fingerprint64 (i.marked run) loaded report :=
    ⟨h.noErr, h.loads, h.shards, h.identified⟩
  rw [ingestRun_of_markable hmark]
  rcases ingestMarked_cases fingerprint64 order now (i.marked run) run loaded with
    ⟨hrejected, _⟩ | ⟨hunreadable, _⟩ | ⟨report', data, _, _, heq⟩
  · exact absurd hrejected hgood.not_rejected
  · exact absurd hunreadable hgood.not_unreadable
  · rw [heq]

/-- **A call that returns no error** has cut its report and was at the store. -/
theorem ingestRun_ok (h : (i.ingestRun fingerprint64 order now run loaded).2 = .returned none) :
    i.Markable run ∧ ∃ report data, loaded.report = some report ∧
      (i.shards = [] → report.results = []) ∧
      shardReport fingerprint64 order report.results (List.replicate i.shards.length ∅) = .ok data ∧
      (i.ingestRun fingerprint64 order now run loaded).1 =
        (((i.marked run).syncStoreRun run data now).1.syncClearInProgress run).1 := by
  by_cases hmark : i.Markable run
  · rw [ingestRun_of_markable hmark] at h ⊢
    refine ⟨hmark, ?_⟩
    rcases ingestMarked_cases fingerprint64 order now (i.marked run) run loaded with
      ⟨_, err, heq⟩ | ⟨_, heq⟩ | ⟨report, data, hgood, hcut, heq⟩
    · rw [heq] at h
      cases h
    · rw [heq] at h
      cases h
    · rw [heq]
      exact ⟨report, data, hgood.loads, hgood.shards, hcut, rfl⟩
  · obtain ⟨err, heq⟩ := @ingestRun_of_not_markable fingerprint64 order now i run loaded hmark
    rw [heq] at h
    cases h

/-- What returns an error was refused. -/
theorem refused_of_error {err : IndexError}
    (h : (i.ingestRun fingerprint64 order now run loaded).2 = .returned (some err)) :
    Refused fingerprint64 i run loaded := by
  rw [refused_iff]
  by_contra hrefused
  obtain ⟨hmark, hrejected⟩ := not_or.mp hrefused
  rw [not_not] at hmark
  have hnot : ¬ Rejected fingerprint64 (i.marked run) loaded := hrejected
  rw [ingestRun_of_markable hmark] at h
  -- marking changes neither the shards nor what the loader gives
  rcases ingestMarked_cases fingerprint64 order now (i.marked run) run loaded with
    ⟨hbad, _⟩ | ⟨_, heq⟩ | ⟨report', data, _, _, heq⟩
  · exact hnot hbad
  · rw [heq] at h
    cases h
  · rw [heq] at h
    cases h

end ShardedWPTIndex

/-! ## The call among others

The same call, taken apart into the steps of the system, reaches the same state, so what holds in
every reachable state holds when a call returns. -/

/-- What the calls of `Interleaving` take from a loader; nothing of a nil report. -/
def Loaded.outcome (loaded : Loaded) : Option (Except String Report) :=
  match loaded.err with
  | some (.other message) => some (.error message)
  | _ => loaded.report.map .ok

section Interleaved

variable {fingerprint64 : String → UInt64} {cases : CaseMapping} {s : System} {c : Nat}
  {run : TestRun} {loaded : Loaded}

/-- A call that is about to clear does so and returns. -/
theorem run_clear {labels : List Label} {t : System} {err : Option IndexError}
    (hrun : Lib.run (System.step fingerprint64 cases) s labels = some t)
    (hc : t.calls.lookup c = some (.clearing run err)) :
    ∃ labels s', Lib.run (System.step fingerprint64 cases) s labels = some s' ∧
      s'.index = (t.index.syncClearInProgress run).1 ∧
      s'.calls.lookup c = some (.returned err) := by
  refine ⟨labels ++ [.clear c], t.clear c run err, ?_, rfl, Finmap.lookup_insert _⟩
  rw [run_snoc, hrun]
  show t.step fingerprint64 cases (.clear c) = _
  rw [System.step, hc]

/-- A call that is loading its report can be run to its end by itself: it stores the run or refuses
it, and then clears its mark. -/
theorem run_loading (order : String → RangeOrder String) (now : Int)
    (hc : s.calls.lookup c = some (.loading run)) (hshards : s.index.shards ≠ [])
    {outcome : Except String Report} (hloaded : loaded.outcome = some outcome) :
    ∃ labels s' err, Lib.run (System.step fingerprint64 cases) s labels = some s' ∧
      s'.index =
        ((s.index.ingestMarked fingerprint64 order now run loaded).1.syncClearInProgress run).1 ∧
      (s.index.ingestMarked fingerprint64 order now run loaded).2 = .returned err ∧
      s'.calls.lookup c = some (.returned err) := by
  have hload : Lib.run (System.step fingerprint64 cases) s [.load c outcome order] =
      some (s.load fingerprint64 c run outcome order) := by
    rw [run_cons]
    show (s.step fingerprint64 cases (.load c outcome order)).bind some = _
    rw [System.step, hc]
    rfl
  -- the branches of the call, each with the steps it makes
  unfold Loaded.outcome at hloaded
  unfold ShardedWPTIndex.ingestMarked
  split at hloaded
  · next message herr =>
    cases hloaded
    obtain ⟨labels, s', hrun, hindex, hreturned⟩ := run_clear hload (Finmap.lookup_insert _)
    exact ⟨labels, s', _, hrun, hindex, rfl, hreturned⟩
  · obtain ⟨report, hreport, rfl⟩ := Option.map_eq_some_iff.mp hloaded
    rw [hreport]
    simp only
    rw [if_neg fun h => hshards h.1]
    cases hcut : shardReport fingerprint64 order report.results
        (List.replicate s.index.shards.length ∅) with
    | error err =>
      have hclearing : s.load fingerprint64 c run (.ok report) order =
          s.setCall c (.clearing run (some err)) := by
        rw [System.load]
        simp only [hcut]
      rw [hclearing] at hload
      obtain ⟨labels, s', hrun, hindex, hreturned⟩ := run_clear hload (Finmap.lookup_insert _)
      exact ⟨labels, s', _, hrun, hindex, rfl, hreturned⟩
    | ok data =>
      have hstoring : s.load fingerprint64 c run (.ok report) order =
          s.setCall c (.storing run report data) := by
        rw [System.load]
        simp only [hcut]
      have hstore : Lib.run (System.step fingerprint64 cases) s
          [.load c (.ok report) order, .store c now] =
            some ((s.setCall c (.storing run report data)).store c run report data now) := by
        rw [← List.singleton_append, run_append, hload, hstoring]
        show ((s.setCall c _).step fingerprint64 cases (.store c now)).bind some = _
        rw [System.step, System.setCall, Finmap.lookup_insert]
        rfl
      -- stored or not, the call goes on to clear its mark
      have hstored : ((s.setCall c (.storing run report data)).store c run report data now).index =
          (s.index.syncStoreRun run data now).1 ∧
          ((s.setCall c (.storing run report data)).store c run report data now).calls.lookup c =
            some (.clearing run none) := by
        unfold System.store System.setCall
        rcases s.index.syncStoreRun run data now with ⟨index, _ | err⟩
        · exact ⟨rfl, Finmap.lookup_insert _⟩
        · exact ⟨rfl, Finmap.lookup_insert _⟩
      obtain ⟨labels, s', hrun, hindex, hreturned⟩ := run_clear hstore hstored.2
      rw [hstored.1] at hindex
      exact ⟨labels, s', _, hrun, hindex, rfl, hreturned⟩

/-- **The call as a run** of the system, none of whose other calls moves meanwhile. -/
theorem exists_run_ingestRun (order : String → RangeOrder String) (now : Int) (hc : c ∉ s.calls)
    (hshards : s.index.shards ≠ []) {outcome : Except String Report}
    (hloaded : loaded.outcome = some outcome) :
    ∃ labels s' err, Lib.run (System.step fingerprint64 cases) s labels = some s' ∧
      s.index.ingestRun fingerprint64 order now run loaded = (s'.index, .returned err) ∧
      s'.calls.lookup c = some (.returned err) := by
  have hmark : Lib.run (System.step fingerprint64 cases) s [.mark c run] = some (s.mark c run) := by
    rw [run_cons]
    show (s.step fingerprint64 cases (.mark c run)).bind some = _
    rw [System.step, if_neg hc]
    rfl
  by_cases hmarkable : s.index.Markable run
  · have hmarked : s.mark c run =
        { s with index := s.index.marked run }.setCall c (.loading run) := by
      rw [System.mark, if_neg hmarkable.nonzero, ShardedWPTIndex.syncMarkInProgress,
        if_neg hmarkable.absent, if_neg hmarkable.idle]
      rfl
    rw [hmarked] at hmark
    obtain ⟨labels, s', err, hrun, hindex, hending, hreturned⟩ :=
      @run_loading fingerprint64 cases
        ({ s with index := s.index.marked run }.setCall c (.loading run)) c run loaded order now
        (Finmap.lookup_insert _) hshards outcome hloaded
    refine ⟨.mark c run :: labels, s', err, ?_, ?_, hreturned⟩
    · rw [← List.singleton_append, run_append, hmark]
      exact hrun
    · rw [ShardedWPTIndex.ingestRun_of_markable hmarkable, hindex, ← hending]
      rfl
  -- what cannot be marked returns at once, in one step
  · have hrefused : ∃ err, s.mark c run = s.setCall c (.returned (some err)) ∧
        s.index.ingestRun fingerprint64 order now run loaded =
          (s.index, .returned (some err)) := by
      unfold System.mark ShardedWPTIndex.ingestRun ShardedWPTIndex.syncMarkInProgress
      split_ifs with hzero hexists hloading
      · exact ⟨_, rfl, rfl⟩
      · exact ⟨_, rfl, rfl⟩
      · exact ⟨_, rfl, rfl⟩
      · exact absurd ⟨hzero, hexists, hloading⟩ hmarkable
    obtain ⟨err, hcall, hingest⟩ := hrefused
    rw [hcall] at hmark
    exact ⟨_, _, some err, hmark, hingest, Finmap.lookup_insert _⟩

/-- So the index that a call leaves is one of the system again. -/
theorem reachable_ingestRun {numShards : Nat}
    (hs : Reachable (System.step fingerprint64 cases) (System.start numShards) s)
    (order : String → RangeOrder String) (now : Int) (hshards : s.index.shards ≠ [])
    {report : Report} (hloaded : loaded.report = some report) :
    ∃ s', Reachable (System.step fingerprint64 cases) (System.start numShards) s' ∧
      s'.index = (s.index.ingestRun fingerprint64 order now run loaded).1 := by
  obtain ⟨labels, hlabels⟩ := hs
  obtain ⟨c, hc⟩ := Infinite.exists_notMem_finset s.calls.keys
  have houtcome : ∃ outcome, loaded.outcome = some outcome := by
    rw [Loaded.outcome, hloaded]
    split
    · exact ⟨_, rfl⟩
    · exact ⟨_, rfl⟩
  obtain ⟨outcome, houtcome⟩ := houtcome
  obtain ⟨more, s', err, hrun, hcall, -⟩ := @exists_run_ingestRun fingerprint64 cases s c run loaded
    order now (fun h => hc (Finmap.mem_keys.mpr h)) hshards outcome houtcome
  refine ⟨s', ⟨labels ++ more, ?_⟩, by rw [hcall]⟩
  rw [run_append, hlabels]
  exact hrun

end Interleaved

/-- **Calls that return an error** are the refused ones. Such a call leaves the index as
it was, and a later call goes as if it had not been; with an ID that can be marked and a
good report it returns no error. -/
theorem ingestRun_error_iff (fingerprint64 : String → UInt64) (order : String → RangeOrder String)
    (now : Int) (i : ShardedWPTIndex) (run : TestRun) (loaded : Loaded) :
    ((∃ err, (i.ingestRun fingerprint64 order now run loaded).2 = .returned (some err)) ↔
      i.Refused fingerprint64 run loaded) ∧
    (i.Refused fingerprint64 run loaded →
      (i.ingestRun fingerprint64 order now run loaded).1 = i ∧
      ∀ order' now' loaded',
        (i.ingestRun fingerprint64 order now run loaded).1.ingestRun fingerprint64 order' now' run
            loaded' = i.ingestRun fingerprint64 order' now' run loaded' ∧
        ∀ report, i.Markable run → i.Good fingerprint64 loaded' report →
          ((i.ingestRun fingerprint64 order now run loaded).1.ingestRun fingerprint64 order' now'
            run
            loaded').2 = .returned none) := by
  refine ⟨⟨fun ⟨err, herr⟩ => ShardedWPTIndex.refused_of_error herr, fun h => ?_⟩, fun h => ?_⟩
  · obtain ⟨err, heq⟩ := ShardedWPTIndex.ingestRun_of_refused order now h
    exact ⟨err, congrArg Prod.snd heq⟩
  · obtain ⟨err, heq⟩ := ShardedWPTIndex.ingestRun_of_refused order now h
    rw [heq]
    exact ⟨rfl, fun order' now' loaded' =>
      ⟨rfl, fun report hmark hgood => ShardedWPTIndex.ingestRun_of_good hmark hgood⟩⟩

/-- Only the fingerprints of subtests are looked at: a report with the result of a test
whose fingerprint is 0 is stored. -/
theorem not_refused_zeroTest : ¬ ∀ (fingerprint64 : String → UInt64)
    (order : String → RangeOrder String) (now : Int) (i : ShardedWPTIndex) (run : TestRun)
    (report : Report),
    (∃ res ∈ report.results, fingerprint64 res.test = 0 ∨
      ∃ sub ∈ res.subtests, fingerprint64 sub.name = 0) →
    ∃ err, i.ingestRun fingerprint64 order now run ⟨some report, none⟩ =
      (i, .returned (some err)) := by
  intro hall
  let name := "/zero/dhmpibkzfgiiq@@(:1UQHdpIv."
  obtain ⟨err, heq⟩ := hall (fun s => if s = name then 0 else 1)
    (fun _ => sortedOrder id Function.injective_id) 0 (.new 1) { id := 1, browserName := "chrome" }
    ⟨[⟨name, "OK", []⟩]⟩ ⟨_, List.mem_singleton_self _, Or.inl (if_pos rfl)⟩
  have hgood : (ShardedWPTIndex.new 1).Good (fun s => if s = name then 0 else 1)
      ⟨some ⟨[⟨name, "OK", []⟩]⟩, none⟩ ⟨[⟨name, "OK", []⟩]⟩ := by
    refine ⟨fun _ => nofun, rfl, fun hnil => absurd hnil (List.cons_ne_nil _ _), ?_⟩
    intro res hres sub hsub
    rw [List.mem_singleton.mp hres] at hsub
    exact absurd hsub List.not_mem_nil
  have hmark : (ShardedWPTIndex.new 1).Markable { id := 1, browserName := "chrome" } :=
    ⟨by decide, Finmap.notMem_empty, Finset.notMem_empty _⟩
  have hnone := congrArg Prod.snd heq
  rw [ShardedWPTIndex.ingestRun_of_good hmark hgood] at hnone
  cases hnone

end WptFyi.Cache
