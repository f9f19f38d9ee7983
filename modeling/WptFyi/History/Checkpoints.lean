import WptFyi.History.Collisions

/-!
# Checkpoints

`main` asks for one aligned run set after the other, processes it, and commits a
checkpoint now and then: the date from which a later process goes on, and the
statuses JSON of each browser. A run set is processed by four threads; each has a
browser of its own, so they are taken in some order.

What has to agree at a checkpoint is the stored JSON of a browser and the entries of that browser in
Datastore, which are read again only through the JSON. In the normal mode every call goes through
the process's cache: the first call of a browser loads its JSON into it, later calls use it, and a
flush writes it back. `Tracked` says that the dict that would be used next is the replay of the
entries, cached or not; it is kept by every call and every flush, whatever the order of the threads.
The mode that generates new statuses is different: it starts from no statuses at all, takes one run
set and never fills the cache, so its flushes find nothing to write.

- `mainLoop`, `main`: the states right after each `commit_checkpoint`;
- `Tracked`: while the normal mode runs, the cached dict of a browser, or its stored
  JSON until there is one, is what the entries stand for;
- `processCall_generate`: the mode that generates new statuses writes entries and
  leaves cache and bucket alone;
- `main_agrees_iff`: when the stored JSON agrees with the entries at every checkpoint.
-/

namespace WptFyi.History

open Lib Lib.DeltaLog

def checkpointInterval : Nat := 20

/-- The browsers of `commit_checkpoint`. -/
def processedBrowsers : List String := ["chrome", "edge", "firefox", "safari"]

/-- Four aligned runs, one of each browser. -/
structure AlignedRunSet where
  calls : List RunCall
  aligned : (calls.map fun call => call.run.browserName).Perm processedBrowsers

/-- What `get_aligned_run_info` found, beside the next date. -/
inductive AlignedRunInfo where
  /-- `None`: the processing is up-to-date -/
  | upToDate
  /-- the empty list: no runs in the interval, or the request timed out -/
  | noRuns
  | runs (runSet : AlignedRunSet)

/-- One turn of the loop of `main`: the answer, and whether the soft timeout has
passed after its run set. -/
structure Turn where
  info : AlignedRunInfo
  nextDate : String
  timedOut : Bool := false

/-- What is stored, and the cache of the process. -/
structure JobState where
  /-- `MostRecentHistoryProcessed.Date` -/
  date : String
  /-- the entries put so far, in order -/
  entries : List TestHistoryEntry
  bucket : StatusesBucket
  cache : StatusesCache

/-- The command-line arguments of `main`. -/
structure MainArgs extends Args where
  force : Bool := false

/-- The variables of `main`. -/
structure LoopState where
  currentDate : String
  runSetsProcessed : Nat := 0
  revisionsSinceCheckpoint : Nat := 0

section Main

variable (sha256 : String → String) (args : Args)

/-- `process_single_run` in its thread. -/
def processCall (s : JobState) (call : RunCall) : Option JobState :=
  let out := processSingleRun sha256 args s.bucket s.cache call
  match out.exception with
  | some _ => none
  | none => some { s with
      cache := out.cache
      entries := s.entries ++ (putBatches out.trace).flatten }

/-- `process_runs`; none when it raises. -/
def processRuns (s : JobState) (calls : List RunCall) : Option JobState :=
  calls.foldlM (processCall sha256 args) s

/-- `flush_previous_statuses_to_gcs`. -/
def flushPreviousStatuses (s : JobState) (browserName : String) : JobState :=
  match s.cache.lookup browserName with
  | none => s
  | some statuses => { s with bucket := s.bucket.insert browserName statuses }

/-- `commit_checkpoint`. -/
def commitCheckpoint (newDate : String) (s : JobState) : JobState :=
  processedBrowsers.foldl flushPreviousStatuses { s with date := newDate }

/-- The condition of the `while` loop: new statuses are generated from one run set. -/
def goesOn (loop : LoopState) : Bool :=
  !args.generateNewStatusesJson || loop.runSetsProcessed == 0

/-- The loop of `main` and the final commit: the states right after the checkpoints
of these turns, none when processing raises. -/
def mainLoop : List Turn → JobState → LoopState → Option (List JobState)
  | [], s, loop => if goesOn args loop then some [] else some [commitCheckpoint loop.currentDate s]
  | turn :: turns, s, loop =>
    if goesOn args loop then
      match turn.info with
      | .upToDate => some [commitCheckpoint turn.nextDate s]
      | .noRuns => mainLoop turns s
          { loop with
            currentDate := turn.nextDate
            revisionsSinceCheckpoint := loop.revisionsSinceCheckpoint + 1 }
      | .runs runSet => do
        let s ← processRuns sha256 args s runSet.calls
        let loop : LoopState :=
          { currentDate := turn.nextDate
            runSetsProcessed := loop.runSetsProcessed + 1
            revisionsSinceCheckpoint := loop.revisionsSinceCheckpoint + 1 }
        if loop.revisionsSinceCheckpoint ≥ checkpointInterval then
          let s := commitCheckpoint loop.currentDate s
          if turn.timedOut then return [s, commitCheckpoint loop.currentDate s]
          let later ← mainLoop turns s { loop with revisionsSinceCheckpoint := 0 }
          return s :: later
        else
          if turn.timedOut then return [commitCheckpoint loop.currentDate s]
          mainLoop turns s loop
    else some [commitCheckpoint loop.currentDate s]

end Main

/-- `main`, from the stored date on. -/
def main (sha256 : String → String) (args : MainArgs) (s : JobState) (turns : List Turn) :
    Option (List JobState) :=
  -- `check_if_db_empty`
  if args.generateNewStatusesJson ∧ ¬args.force ∧ s.entries ≠ [] then none
  else mainLoop sha256 args.toArgs turns s { currentDate := s.date }

/-! ## What is stored -/

/-- The entries of a browser. -/
def entriesOf (browserName : String) (entries : List TestHistoryEntry) : List TestHistoryEntry :=
  entries.filter fun entry => entry.browserName = browserName

/-- **The stored JSON agrees with the entries** of a browser: it has the latest status
of every key. -/
def Agrees (s : JobState) (browserName : String) : Prop :=
  s.bucket.lookup browserName = some (replayEntries (entriesOf browserName s.entries))

/-! ## Entries and the dict

The dict of previous statuses follows the entries as they are written: a status is put into it
exactly when an entry is written for the key, by the turn that writes the entry. So the dict is a
replay of the entries. -/

/-- While a report is walked, the dict is the replay of the entries created, which
are all of the browser. -/
structure WalkInv (run : RunMetadata) (statuses : Statuses) (s : RunState) : Prop where
  dict : s.prevTestStatuses =
    replay statuses (s.written.map fun entry => (entry.key, entry.status))
  browser : ∀ entry ∈ s.written, entry.browserName = run.browserName

theorem walkInv_startState (run : RunMetadata) (statuses : Statuses) :
    WalkInv run statuses (startState statuses) where
  dict := rfl
  browser _ hentry := absurd hentry List.not_mem_nil

/-- **Step**: one observed status of a run. -/
theorem WalkInv.applyObservation {run : RunMetadata} {statuses : Statuses} {s : RunState}
    (h : WalkInv run statuses s) (sha256 : String → String) (o : TestKey × String) :
    WalkInv run statuses (History.applyObservation sha256 run s o) := by
  by_cases hknown : o.1 ∈ s.uniqueEntitiesToWrite ∨ s.prevTestStatuses.lookup o.1 = some o.2
  · rwa [applyObservation_of_known sha256 run hknown]
  · have hprev := (applyObservation_of_changed sha256 run hknown).1
    have hwritten : (History.applyObservation sha256 run s o).written =
        s.written ++ [entryFor sha256 run o] := by
      rw [History.applyObservation, if_neg hknown, written_push, written_recordStatus]
    refine ⟨?_, fun entry hentry => ?_⟩
    · rw [hprev, hwritten, List.map_append, h.dict]
      exact (replay_snoc ..).symm
    · rw [hwritten, List.mem_append, List.mem_singleton] at hentry
      rcases hentry with hentry | rfl
      · exact h.browser entry hentry
      · rfl

theorem walkInv_walked (sha256 : String → String) (call : RunCall) (report : Report)
    (statuses : Statuses) : WalkInv call.run statuses (walked sha256 call report statuses) := by
  have hfold : ∀ (obs : List (TestKey × String)) (s : RunState), WalkInv call.run statuses s →
      WalkInv call.run statuses (obs.foldl (applyObservation sha256 call.run) s) := by
    intro obs
    induction obs with
    | nil => exact fun _ h => h
    | cons o obs ih => exact fun s h => ih _ (h.applyObservation sha256 o)
  exact hfold _ _ (walkInv_startState call.run statuses)

/-- A call that raised nothing had a report and statuses to compare it with. -/
theorem exists_of_exception_none {sha256 : String → String} {args : Args}
    {bucket : StatusesBucket} {cache : StatusesCache} {call : RunCall}
    (hok : (processSingleRun sha256 args bucket cache call).exception = none) :
    ∃ report statuses cache₁, call.fetched = some report ∧
      populatePreviousStatuses args bucket cache call.run.browserName = .ok (statuses, cache₁) := by
  cases hfetched : call.fetched with
  | none => simp [processSingleRun, hfetched] at hok
  | some report =>
    cases hpopulate : populatePreviousStatuses args bucket cache call.run.browserName with
    | error msg => simp [processSingleRun, hfetched, hpopulate] at hok
    | ok loaded => exact ⟨report, loaded.1, loaded.2, rfl, rfl⟩

/-- **One call**: its entries are all of its browser and replay to the dict that the
walk leaves. -/
theorem processCall_spec {sha256 : String → String} {args : Args} {s s' : JobState}
    {call : RunCall} (h : processCall sha256 args s call = some s') :
    ∃ report statuses cache₁, call.fetched = some report ∧
      populatePreviousStatuses args s.bucket s.cache call.run.browserName =
        .ok (statuses, cache₁) ∧
      ∃ written : List TestHistoryEntry,
        s' = { s with
          cache := if args.generateNewStatusesJson then cache₁
            else cache₁.insert call.run.browserName
              (walked sha256 call report statuses).prevTestStatuses
          entries := s.entries ++ written } ∧
        (∀ entry ∈ written, entry.browserName = call.run.browserName) ∧
        (walked sha256 call report statuses).prevTestStatuses =
          replay statuses (written.map fun entry => (entry.key, entry.status)) := by
  unfold processCall at h
  cases hexception : (processSingleRun sha256 args s.bucket s.cache call).exception with
  | some msg => simp [hexception] at h
  | none =>
    simp only [hexception] at h
    obtain ⟨report, statuses, cache₁, hfetched, hstatuses⟩ := exists_of_exception_none hexception
    obtain ⟨hcache, hbatches⟩ := processSingleRun_walked hfetched hstatuses hexception
    have hinv := walkInv_walked sha256 call report statuses
    obtain ⟨hflush, hempty⟩ := written_flushRest (walked sha256 call report statuses)
    -- what was put is what the walk has written, the last batch included
    have hwritten : (putBatches (walked sha256 call report statuses).flushRest.trace).flatten =
        (walked sha256 call report statuses).written := by
      rw [← hflush, RunState.written, hempty, List.append_nil]
    refine ⟨report, statuses, cache₁, hfetched, hstatuses, _, ?_, hinv.browser, hinv.dict⟩
    cases h
    rw [hcache, hbatches, hwritten]

theorem entriesOf_append_own {browserName : String} {entries written : List TestHistoryEntry}
    (h : ∀ entry ∈ written, entry.browserName = browserName) :
    entriesOf browserName (entries ++ written) = entriesOf browserName entries ++ written := by
  rw [entriesOf, List.filter_append]
  congr 1
  exact List.filter_eq_self.mpr fun entry hentry => decide_eq_true (h entry hentry)

theorem entriesOf_append_other {browserName other : String}
    {entries written : List TestHistoryEntry}
    (h : ∀ entry ∈ written, entry.browserName = other) (hne : browserName ≠ other) :
    entriesOf browserName (entries ++ written) = entriesOf browserName entries := by
  have hnil : written.filter (fun entry => entry.browserName = browserName) = [] :=
    List.filter_eq_nil_iff.mpr fun entry hentry => by
      rw [h entry hentry, decide_eq_true_iff]
      exact hne.symm
  rw [entriesOf, List.filter_append, hnil, List.append_nil]
  rfl

theorem replayEntries_append (entries written : List TestHistoryEntry) :
    replayEntries (entries ++ written) =
      replay (replayEntries entries) (written.map fun entry => (entry.key, entry.status)) := by
  rw [replayEntries, List.map_append, replay_append]
  rfl

/-! ## The normal mode

The bucket has a dict for each browser, and with it the dict agrees with the entries written for
the browser so far. A call keeps this, whichever runs it is given. -/

/-- The statuses that a process has for a browser, from the cache or else from the
bucket, are what the entries stand for. -/
def Tracked (s : JobState) (browserName : String) : Prop :=
  ∃ cache, populatePreviousStatuses {} s.bucket s.cache browserName =
    .ok (replayEntries (entriesOf browserName s.entries), cache)

/-- The two places the statuses can come from. -/
theorem tracked_iff {s : JobState} {browserName : String} :
    Tracked s browserName ↔
      s.cache.lookup browserName = some (replayEntries (entriesOf browserName s.entries)) ∨
        s.cache.lookup browserName = none ∧ Agrees s browserName := by
  rw [Tracked, populatePreviousStatuses, if_neg Bool.false_ne_true, Agrees]
  cases s.cache.lookup browserName with
  | some statuses => simp
  | none =>
    cases s.bucket.lookup browserName with
    | none => simp
    | some statuses => simp

/-- Loading the statuses of one browser leaves the others in the cache alone. -/
theorem lookup_of_populate {args : Args} {bucket : StatusesBucket} {cache cache₁ : StatusesCache}
    {browserName other : String} {statuses : Statuses}
    (h : populatePreviousStatuses args bucket cache browserName = .ok (statuses, cache₁))
    (hne : other ≠ browserName) : cache₁.lookup other = cache.lookup other := by
  unfold populatePreviousStatuses at h
  split at h
  · cases h
    rfl
  · split at h
    · cases h
      rfl
    · split at h
      · cases h
      · cases h
        exact Finmap.lookup_insert_of_ne _ hne

/-- A call of `process_single_run` leaves the other browsers' statuses and entries alone. -/
theorem Tracked.processCall {sha256 : String → String} {s s' : JobState} {call : RunCall}
    {browserName : String} (h : Tracked s browserName) (hcall : Tracked s call.run.browserName)
    (hstep : History.processCall sha256 {} s call = some s') : Tracked s' browserName := by
  obtain ⟨report, statuses, cache₁, hfetched, hstatuses, written, rfl, hbrowser, hdict⟩ :=
    processCall_spec hstep
  obtain ⟨_, hloaded⟩ := hcall
  rw [hstatuses] at hloaded
  have hstart : statuses = replayEntries (entriesOf call.run.browserName s.entries) := by
    cases hloaded
    rfl
  rw [tracked_iff]
  -- the statuses of the own browser follow its entries, those of another one stay
  by_cases hown : browserName = call.run.browserName
  · refine Or.inl ?_
    subst hown
    show (Finmap.insert call.run.browserName _ cache₁).lookup call.run.browserName =
      some (replayEntries (entriesOf call.run.browserName (s.entries ++ written)))
    rw [Finmap.lookup_insert, entriesOf_append_own hbrowser, replayEntries_append, ← hstart, hdict]
  · have hcache : (Finmap.insert call.run.browserName
        (walked sha256 call report statuses).prevTestStatuses cache₁).lookup browserName =
        s.cache.lookup browserName := by
      rw [Finmap.lookup_insert_of_ne _ hown, lookup_of_populate hstatuses hown]
    have hentries : entriesOf browserName (s.entries ++ written) =
        entriesOf browserName s.entries :=
      entriesOf_append_other hbrowser hown
    rw [tracked_iff] at h
    rcases h with hcached | ⟨hnone, hagrees⟩
    · refine Or.inl (hcache.trans ?_)
      show _ = some (replayEntries (entriesOf browserName (s.entries ++ written)))
      rw [hentries, hcached]
    · refine Or.inr ⟨hcache.trans hnone, ?_⟩
      show s.bucket.lookup browserName =
        some (replayEntries (entriesOf browserName (s.entries ++ written)))
      rw [hentries]
      exact hagrees

/-- All four browsers are tracked. -/
def AllTracked (s : JobState) : Prop := ∀ browserName ∈ processedBrowsers, Tracked s browserName

/-- What is run in the normal mode keeps all browsers tracked. -/
theorem AllTracked.processRuns {sha256 : String → String} {calls : List RunCall}
    (hcalls : ∀ call ∈ calls, call.run.browserName ∈ processedBrowsers) {s s' : JobState}
    (h : AllTracked s) (hrun : History.processRuns sha256 {} s calls = some s') :
    AllTracked s' := by
  induction calls generalizing s with
  | nil =>
    cases hrun
    exact h
  | cons call calls ih =>
    obtain ⟨s₁, hstep, hrest⟩ := Option.bind_eq_some_iff.mp hrun
    refine ih (fun c hc => hcalls c (List.mem_cons_of_mem _ hc)) ?_ hrest
    exact fun b hb => (h b hb).processCall (h _ (hcalls call List.mem_cons_self)) hstep

/-! ### Commits

A commit writes the cached dict of each browser to the bucket and keeps it in the cache. A browser
without one has its dict in the bucket as it was. -/

theorem flushPreviousStatuses_cache (s : JobState) (browserName : String) :
    (flushPreviousStatuses s browserName).cache = s.cache := by
  unfold flushPreviousStatuses
  split <;> rfl

theorem flushPreviousStatuses_entries (s : JobState) (browserName : String) :
    (flushPreviousStatuses s browserName).entries = s.entries := by
  unfold flushPreviousStatuses
  split <;> rfl

/-- A flush writes the JSON of its browser only. -/
theorem flushPreviousStatuses_bucket_of_ne (s : JobState) {browserName other : String}
    (hne : other ≠ browserName) :
    (flushPreviousStatuses s browserName).bucket.lookup other = s.bucket.lookup other := by
  unfold flushPreviousStatuses
  split
  · rfl
  · exact Finmap.lookup_insert_of_ne _ hne

theorem Tracked.flush_agrees {s : JobState} {browserName : String} (h : Tracked s browserName) :
    Agrees (flushPreviousStatuses s browserName) browserName := by
  rw [Agrees, flushPreviousStatuses_entries]
  rcases tracked_iff.mp h with hcached | ⟨hnone, hagrees⟩
  · rw [flushPreviousStatuses, hcached]
    exact Finmap.lookup_insert _
  · rw [flushPreviousStatuses, hnone]
    exact hagrees

theorem Tracked.flush {s : JobState} {browserName : String} (h : Tracked s browserName)
    (flushed : String) : Tracked (flushPreviousStatuses s flushed) browserName := by
  rw [tracked_iff, flushPreviousStatuses_cache, flushPreviousStatuses_entries]
  rcases tracked_iff.mp h with hcached | ⟨hnone, hagrees⟩
  · exact Or.inl hcached
  · refine Or.inr ⟨hnone, ?_⟩
    by_cases hown : browserName = flushed
    · exact hown ▸ h.flush_agrees
    · rw [Agrees, flushPreviousStatuses_bucket_of_ne s hown, flushPreviousStatuses_entries]
      exact hagrees

/-- **The flushes of a commit** bring the JSON of each flushed browser up to date. -/
theorem Tracked.foldl_flush {s : JobState} {browserName : String} (h : Tracked s browserName)
    (flushed : List String) (hflushed : browserName ∈ flushed ∨ Agrees s browserName) :
    Tracked (flushed.foldl flushPreviousStatuses s) browserName ∧
      Agrees (flushed.foldl flushPreviousStatuses s) browserName := by
  induction flushed generalizing s with
  | nil => exact ⟨h, hflushed.resolve_left List.not_mem_nil⟩
  | cons b flushed ih =>
    refine ih (h.flush b) ?_
    by_cases hown : browserName = b
    · exact Or.inr (hown ▸ h.flush_agrees)
    · rcases hflushed with hmem | hagrees
      · exact Or.inl ((List.mem_cons.mp hmem).resolve_left hown)
      · refine Or.inr ?_
        rw [Agrees, flushPreviousStatuses_bucket_of_ne s hown, flushPreviousStatuses_entries]
        exact hagrees

/-- After a commit every browser's JSON agrees, and all are tracked still. -/
theorem AllTracked.commit {s : JobState} (h : AllTracked s) (newDate : String) :
    AllTracked (commitCheckpoint newDate s) ∧
      ∀ browserName ∈ processedBrowsers, Agrees (commitCheckpoint newDate s) browserName := by
  have hdate : ∀ b ∈ processedBrowsers, Tracked { s with date := newDate } b := h
  exact ⟨fun b hb => ((hdate b hb).foldl_flush processedBrowsers (Or.inl hb)).1,
    fun b hb => ((hdate b hb).foldl_flush processedBrowsers (Or.inl hb)).2⟩

/-! ### The loop

The loop takes one set of aligned runs after the other until there is none, the time is up or the
mode has enough, and commits after some of them. -/

theorem AlignedRunSet.browser_mem (runSet : AlignedRunSet) {call : RunCall}
    (h : call ∈ runSet.calls) : call.run.browserName ∈ processedBrowsers :=
  runSet.aligned.subset (List.mem_map.mpr ⟨call, h, rfl⟩)

/-- **A turn with a run set**: its runs are processed, a checkpoint is committed if it
is time for one, and the loop ends with another or goes on. -/
theorem mainLoop_runs {sha256 : String → String} {args : Args} {turn : Turn} {turns : List Turn}
    {s : JobState} {loop : LoopState} {commits : List JobState} {runSet : AlignedRunSet}
    (hgoes : goesOn args loop) (hinfo : turn.info = .runs runSet)
    (h : mainLoop sha256 args (turn :: turns) s loop = some commits) :
    ∃ s' loop', processRuns sha256 args s runSet.calls = some s' ∧
      loop'.runSetsProcessed = loop.runSetsProcessed + 1 ∧
      ((∃ later, commits = commitCheckpoint turn.nextDate s' :: later ∧
          (later = [commitCheckpoint turn.nextDate (commitCheckpoint turn.nextDate s')] ∨
            mainLoop sha256 args turns (commitCheckpoint turn.nextDate s') loop' = some later)) ∨
        commits = [commitCheckpoint turn.nextDate s'] ∨
        mainLoop sha256 args turns s' loop' = some commits) := by
  rw [mainLoop, if_pos hgoes, hinfo] at h
  obtain ⟨s', hruns, h⟩ := Option.bind_eq_some_iff.mp h
  dsimp only at h
  -- a checkpoint may be due, and then the time may be over
  split at h
  · split at h
    · cases h
      exact ⟨s', ⟨turn.nextDate, loop.runSetsProcessed + 1, 0⟩, hruns, rfl,
        Or.inl ⟨_, rfl, Or.inl rfl⟩⟩
    · obtain ⟨later, hlater, h⟩ := Option.bind_eq_some_iff.mp h
      cases h
      exact ⟨s', _, hruns, rfl, Or.inl ⟨later, rfl, Or.inr hlater⟩⟩
  · split at h
    · cases h
      exact ⟨s', ⟨turn.nextDate, loop.runSetsProcessed + 1, 0⟩, hruns, rfl, Or.inr (Or.inl rfl)⟩
    · exact ⟨s', _, hruns, rfl, Or.inr (Or.inr h)⟩

theorem goesOn_normal (loop : LoopState) : goesOn {} loop = true := rfl

/-- **In the normal mode** the stored JSON agrees at every checkpoint. -/
theorem mainLoop_normal {sha256 : String → String} {turns : List Turn} {s : JobState}
    {loop : LoopState} {commits : List JobState} (h : AllTracked s)
    (hrun : mainLoop sha256 {} turns s loop = some commits) :
    ∀ c ∈ commits, ∀ browserName ∈ processedBrowsers, Agrees c browserName := by
  induction turns generalizing s loop commits with
  | nil =>
    cases hrun
    exact fun c hc => absurd hc List.not_mem_nil
  | cons turn turns ih =>
    cases hinfo : turn.info with
    | upToDate =>
      rw [mainLoop, if_pos (goesOn_normal loop), hinfo] at hrun
      cases hrun
      intro c hc
      rw [List.mem_singleton.mp hc]
      exact (h.commit turn.nextDate).2
    | noRuns =>
      rw [mainLoop, if_pos (goesOn_normal loop), hinfo] at hrun
      exact ih h hrun
    | runs runSet =>
      obtain ⟨s', loop', hruns, -, hcommits⟩ := mainLoop_runs rfl hinfo hrun
      have hs' := h.processRuns (fun call hcall => runSet.browser_mem hcall) hruns
      obtain ⟨hcommit, hagree⟩ := hs'.commit turn.nextDate
      -- after the run set: a commit and more, a last commit, or no commit yet
      rcases hcommits with ⟨later, rfl, rfl | hlater⟩ | rfl | hlater
      · intro c hc
        rcases List.mem_cons.mp hc with rfl | hc
        · exact hagree
        · rw [List.mem_singleton.mp hc]
          exact (hcommit.commit turn.nextDate).2
      · intro c hc
        rcases List.mem_cons.mp hc with rfl | hc
        · exact hagree
        · exact ih hcommit hlater c hc
      · intro c hc
        rw [List.mem_singleton.mp hc]
        exact hagree
      · exact ih hs' hlater

/-! ## Generating new statuses

In this mode the dict starts empty and is not put into the cache. Entries are written, one for each
key and with its first status, but a commit finds nothing to flush and stores the date only. -/

/-- The first status that a report has for a key. -/
def firstStatus (report : Report) (key : TestKey) : Option String :=
  (rowsOf key (observations report)).head?

/-- From an empty dict the walk records first statuses. -/
theorem walked_empty_lookup (sha256 : String → String) (call : RunCall) (report : Report)
    (key : TestKey) :
    (walked sha256 call report ∅).prevTestStatuses.lookup key = firstStatus report key := by
  by_cases hkey : key ∈ reportKeys report
  · rw [walked_lookup, rowsOf_allObservations_of_mem hkey, Finmap.lookup_empty, recordedStatus,
      Option.or_none, firstStatus]
    cases rowsOf key (observations report) with
    | nil => rfl
    | cons status rows => rfl
  · have hnil : rowsOf key (observations report) = [] := by
      rw [List.eq_nil_iff_forall_not_mem]
      exact fun status hstatus => hkey (List.mem_map.mpr ⟨_, mem_rowsOf.mp hstatus, rfl⟩)
    rw [walked_lookup_of_notMem sha256 call ∅ hkey, if_neg Finmap.notMem_empty, firstStatus, hnil]
    rfl

/-- **One call in the generating mode**: cache and bucket stay, and the entries of its
browser are overwritten by the report's first statuses. -/
theorem processCall_generate {sha256 : String → String} {s s' : JobState} {call : RunCall}
    (h : processCall sha256 { generateNewStatusesJson := true } s call = some s') :
    s'.cache = s.cache ∧ s'.bucket = s.bucket ∧
      ∃ report, call.fetched = some report ∧ ∀ browserName key,
        (replayEntries (entriesOf browserName s'.entries)).lookup key =
          if browserName = call.run.browserName then
            (firstStatus report key).or
              ((replayEntries (entriesOf browserName s.entries)).lookup key)
          else (replayEntries (entriesOf browserName s.entries)).lookup key := by
  obtain ⟨report, statuses, cache₁, hfetched, hstatuses, written, rfl, hbrowser, hdict⟩ :=
    processCall_spec h
  cases hstatuses
  refine ⟨rfl, rfl, report, hfetched, fun browserName key => ?_⟩
  show (replayEntries (entriesOf browserName (s.entries ++ written))).lookup key = _
  split
  · next hown =>
    subst hown
    rw [entriesOf_append_own hbrowser, replayEntries_append, lookup_replay, ← hdict,
      walked_empty_lookup]
  · next hown => rw [entriesOf_append_other hbrowser hown]

/-- A set of runs of distinct browsers, when statuses are generated anew: cache and bucket stay as
they are, and the entries of each browser replay to what its report says, or to what was there. -/
theorem processRuns_generate {sha256 : String → String} {calls : List RunCall}
    (hnodup : (calls.map fun call => call.run.browserName).Nodup) {s s' : JobState}
    (h : processRuns sha256 { generateNewStatusesJson := true } s calls = some s') :
    s'.cache = s.cache ∧ s'.bucket = s.bucket ∧
      (∀ browserName key, browserName ∉ calls.map (fun call => call.run.browserName) →
        (replayEntries (entriesOf browserName s'.entries)).lookup key =
          (replayEntries (entriesOf browserName s.entries)).lookup key) ∧
      ∀ call ∈ calls, ∃ report, call.fetched = some report ∧ ∀ key,
        (replayEntries (entriesOf call.run.browserName s'.entries)).lookup key =
          (firstStatus report key).or
            ((replayEntries (entriesOf call.run.browserName s.entries)).lookup key) := by
  induction calls generalizing s with
  | nil =>
    cases h
    exact ⟨rfl, rfl, fun _ _ _ => rfl, fun call hcall => absurd hcall List.not_mem_nil⟩
  | cons call calls ih =>
    obtain ⟨hfresh, hnodup⟩ := List.nodup_cons.mp hnodup
    obtain ⟨s₁, hstep, hrest⟩ := Option.bind_eq_some_iff.mp h
    obtain ⟨hcache, hbucket, report, hfetched, hown⟩ := processCall_generate hstep
    obtain ⟨hcache', hbucket', hothers, hcalls⟩ := ih hnodup hrest
    -- the browsers are distinct, so a later call leaves the entries of this one
    refine ⟨hcache'.trans hcache, hbucket'.trans hbucket, ?_, ?_⟩
    · intro browserName key hnot
      rw [List.map_cons, List.mem_cons, not_or] at hnot
      rw [hothers browserName key hnot.2, hown, if_neg hnot.1]
    · intro c hc
      rcases List.mem_cons.mp hc with rfl | hc
      · refine ⟨report, hfetched, fun key => ?_⟩
        rw [hothers _ key hfresh, hown, if_pos rfl]
      · obtain ⟨report', hfetched', hlookup⟩ := hcalls c hc
        have hne : c.run.browserName ≠ call.run.browserName :=
          fun heq => hfresh (List.mem_map.mpr ⟨c, hc, heq⟩)
        refine ⟨report', hfetched', fun key => ?_⟩
        rw [hlookup, hown, if_neg hne]

/-- The first answer that ends the loop of the generating mode. -/
def firstAnswer : List Turn → Option AlignedRunInfo
  | [] => none
  | turn :: turns =>
    match turn.info with
    | .noRuns => firstAnswer turns
    | info => some info

/-- Without a cache a commit stores the date only. -/
theorem commitCheckpoint_of_empty {s : JobState} (h : s.cache = ∅) (newDate : String) :
    commitCheckpoint newDate s = { s with date := newDate } := by
  have hflush : ∀ browserName, flushPreviousStatuses { s with date := newDate } browserName =
      { s with date := newDate } := by
    intro browserName
    rw [flushPreviousStatuses]
    show (match s.cache.lookup browserName with | none => _ | some statuses => _) = _
    rw [h, Finmap.lookup_empty]
  unfold commitCheckpoint
  induction processedBrowsers with
  | nil => rfl
  | cons b browsers ih => rw [List.foldl_cons, hflush, ih]

theorem mainLoop_of_not_goesOn {sha256 : String → String} {args : Args} {turns : List Turn}
    {s : JobState} {loop : LoopState} (h : ¬goesOn args loop) :
    mainLoop sha256 args turns s loop = some [commitCheckpoint loop.currentDate s] := by
  cases turns with
  | nil => exact if_neg h
  | cons turn turns => exact if_neg h

/-- **The generating mode**: it commits what one run set left, or what was there. -/
theorem mainLoop_generate {sha256 : String → String} {turns : List Turn} {s : JobState}
    {loop : LoopState} {commits : List JobState} (hcache : s.cache = ∅)
    (hloop : loop.runSetsProcessed = 0)
    (hrun : mainLoop sha256 { generateNewStatusesJson := true } turns s loop = some commits) :
    match firstAnswer turns with
    | none => commits = []
    | some (.runs runSet) => ∃ s',
        processRuns sha256 { generateNewStatusesJson := true } s runSet.calls = some s' ∧
          commits ≠ [] ∧ ∀ c ∈ commits, c.bucket = s'.bucket ∧ c.entries = s'.entries
    | some _ => ∃ date, commits = [{ s with date }] := by
  have hgoes : ∀ loop : LoopState, loop.runSetsProcessed = 0 →
      goesOn { generateNewStatusesJson := true } loop = true := by
    intro loop hloop
    rw [goesOn, hloop]
    rfl
  induction turns generalizing loop with
  | nil =>
    rw [mainLoop, if_pos (hgoes loop hloop)] at hrun
    cases hrun
    rfl
  | cons turn turns ih =>
    rw [firstAnswer]
    cases hinfo : turn.info with
    | noRuns =>
      rw [mainLoop, if_pos (hgoes loop hloop), hinfo] at hrun
      refine ih ?_ hrun
      exact hloop
    | upToDate =>
      rw [mainLoop, if_pos (hgoes loop hloop), hinfo] at hrun
      cases hrun
      exact ⟨turn.nextDate, by rw [commitCheckpoint_of_empty hcache]⟩
    | runs runSet =>
      obtain ⟨s', loop', hruns, hcount, hcommits⟩ :=
        mainLoop_runs (hgoes loop hloop) hinfo hrun
      have hcache' : s'.cache = ∅ := by
        have hnodup : (runSet.calls.map fun call => call.run.browserName).Nodup :=
          runSet.aligned.nodup_iff.mpr (by decide)
        rw [(processRuns_generate hnodup hruns).1, hcache]
      -- one run set ends the loop, in whichever of the branches it commits
      have hstop : ¬goesOn { generateNewStatusesJson := true } loop' := by
        rw [goesOn, hcount]
        simp
      -- nothing is cached in this mode, so a commit stores the date only
      have hcommit : ∀ date, commitCheckpoint date s' = { s' with date } :=
        fun date => commitCheckpoint_of_empty hcache' date
      have hcommit' : ∀ date date' : String,
          commitCheckpoint date' { s' with date } = { s' with date := date' } :=
        fun date date' => commitCheckpoint_of_empty hcache' date'
      refine ⟨s', hruns, ?_⟩
      rcases hcommits with ⟨later, rfl, rfl | hlater⟩ | rfl | hlater
      · rw [hcommit, hcommit']
        simp
      · rw [mainLoop_of_not_goesOn hstop, hcommit, hcommit'] at hlater
        cases hlater
        rw [hcommit]
        simp
      · rw [hcommit]
        simp
      · rw [mainLoop_of_not_goesOn hstop, hcommit] at hlater
        cases hlater
        simp

/-! ## Both modes

What the loop is meant to leave in the bucket, and when it does: always in the normal mode, and in
the other only if there was nothing to be stored or it was there already. -/

/-- What the generating mode would have to find in the bucket: the statuses that the
entries stand for, once the first statuses of its run set are among them. -/
def StoredAlready (s : JobState) (turns : List Turn) : Prop :=
  match firstAnswer turns with
  | none => True
  | some (.runs runSet) => ∀ call ∈ runSet.calls, ∀ report, call.fetched = some report →
      ∃ statuses, s.bucket.lookup call.run.browserName = some statuses ∧ ∀ key,
        statuses.lookup key = (firstStatus report key).or
          ((replayEntries (entriesOf call.run.browserName s.entries)).lookup key)
  | some _ => ∀ browserName ∈ processedBrowsers, Agrees s browserName

/-- When statuses are generated anew, all commits agree with the entries exactly if what is stored
already does. -/
theorem mainLoop_generate_agrees_iff {sha256 : String → String} {turns : List Turn} {s : JobState}
    {loop : LoopState} {commits : List JobState} (hcache : s.cache = ∅)
    (hloop : loop.runSetsProcessed = 0)
    (hrun : mainLoop sha256 { generateNewStatusesJson := true } turns s loop = some commits) :
    (∀ c ∈ commits, ∀ browserName ∈ processedBrowsers, Agrees c browserName) ↔
      StoredAlready s turns := by
  have hcommits := mainLoop_generate hcache hloop hrun
  unfold StoredAlready
  match hanswer : firstAnswer turns with
  | none =>
    rw [hanswer] at hcommits
    obtain rfl := hcommits
    exact iff_of_true (fun c hc => absurd hc List.not_mem_nil) trivial
  | some .upToDate =>
    rw [hanswer] at hcommits
    obtain ⟨date, rfl⟩ := hcommits
    exact List.forall_mem_singleton
  | some .noRuns =>
    rw [hanswer] at hcommits
    obtain ⟨date, rfl⟩ := hcommits
    exact List.forall_mem_singleton
  | some (.runs runSet) =>
    rw [hanswer] at hcommits
    obtain ⟨s', hruns, hne, hall⟩ := hcommits
    have hnodup : (runSet.calls.map fun call => call.run.browserName).Nodup :=
      runSet.aligned.nodup_iff.mpr (by decide)
    obtain ⟨-, hbucket, -, hcalls⟩ := processRuns_generate hnodup hruns
    -- the bucket is the old one, the entries have the first statuses on top
    constructor
    · intro hagree call hcall report hfetched
      obtain ⟨c, hc⟩ := List.exists_mem_of_ne_nil commits hne
      have hstored := hagree c hc _ (runSet.browser_mem hcall)
      rw [Agrees, (hall c hc).1, (hall c hc).2, hbucket] at hstored
      obtain ⟨report', hfetched', hlookup⟩ := hcalls call hcall
      obtain rfl : report' = report := Option.some_inj.mp (hfetched'.symm.trans hfetched)
      exact ⟨_, hstored, hlookup⟩
    · intro hstored c hc browserName hbrowser
      obtain ⟨call, hcall, rfl⟩ := List.mem_map.mp (runSet.aligned.symm.subset hbrowser)
      obtain ⟨report, hfetched, hlookup⟩ := hcalls call hcall
      obtain ⟨statuses, hbucketed, hstatuses⟩ := hstored call hcall report hfetched
      rw [Agrees, (hall c hc).1, (hall c hc).2, hbucket, hbucketed]
      refine congrArg some (Finmap.ext_lookup fun key => ?_)
      rw [hstatuses, hlookup]

/-- **At every checkpoint of `main`** the stored JSON agrees with the entries exactly
when the mode is the normal one, or the generating mode finds it as it should be. -/
theorem main_agrees_iff {sha256 : String → String} {args : MainArgs} {s : JobState}
    {turns : List Turn} {commits : List JobState} (hfresh : s.cache = ∅)
    (hstart : args.generateNewStatusesJson = false →
      ∀ browserName ∈ processedBrowsers, Agrees s browserName)
    (hrun : main sha256 args s turns = some commits) :
    (∀ c ∈ commits, ∀ browserName ∈ processedBrowsers, Agrees c browserName) ↔
      args.generateNewStatusesJson = false ∨ StoredAlready s turns := by
  unfold main at hrun
  split at hrun
  · cases hrun
  · obtain ⟨⟨mode⟩, force⟩ := args
    cases mode with
    | false =>
      refine iff_of_true (mainLoop_normal (fun b hb => tracked_iff.mpr (Or.inr ⟨?_, ?_⟩)) hrun)
        (Or.inl rfl)
      · rw [hfresh, Finmap.lookup_empty]
      · exact hstart rfl b hb
    | true =>
      rw [mainLoop_generate_agrees_iff hfresh rfl hrun]
      exact ⟨Or.inr, fun h => h.resolve_left (by simp)⟩

/-- A run of some browser with one passing test. -/
def passingCall (browserName : String) : RunCall :=
  { chromeCall [{ test := "/a.html", status := "PASS", subtests := [] }] with
    run := { id := "1", browserName, timeStart := "2030-01-01T00:00:00Z" } }

def passingRunSet : AlignedRunSet where
  calls := processedBrowsers.map passingCall
  aligned := by decide

/-- No entries are stored yet. -/
def freshJob (bucket : StatusesBucket) : JobState :=
  { date := "2030-01-01T00:00:00Z", entries := [], bucket, cache := ∅ }

/-- An empty statuses JSON for each browser. -/
def emptyBucket : StatusesBucket :=
  processedBrowsers.foldl (fun bucket browserName => bucket.insert browserName ∅) ∅

/-- One run set, after which the processing is up-to-date. -/
def oneRunSet : List Turn :=
  [{ info := .runs passingRunSet, nextDate := "2030-01-02T00:00:00Z" },
    { info := .upToDate, nextDate := "2030-01-03T00:00:00Z" }]

theorem main_agrees_oneRunSet :
    ∃ commits, main paddedSha256 {} (freshJob emptyBucket) oneRunSet = some commits ∧
      ∀ c ∈ commits, ∀ browserName ∈ processedBrowsers, Agrees c browserName := by
  have hsome : (main paddedSha256 {} (freshJob emptyBucket) oneRunSet).isSome = true := by
    decide +kernel
  obtain ⟨commits, hrun⟩ := Option.isSome_iff_exists.mp hsome
  have hstart : ∀ browserName ∈ processedBrowsers, Agrees (freshJob emptyBucket) browserName := by
    unfold Agrees
    decide +kernel
  exact ⟨commits, hrun, (main_agrees_iff rfl (fun _ => hstart) hrun).mpr (Or.inl rfl)⟩

/-- Generating new statuses leaves the bucket without them. -/
theorem not_agrees_generate :
    ∃ commits, main paddedSha256 { generateNewStatusesJson := true } (freshJob ∅) oneRunSet =
        some commits ∧
      ¬∀ c ∈ commits, ∀ browserName ∈ processedBrowsers, Agrees c browserName := by
  have hbuckets : ∃ commits ∈ main paddedSha256 { generateNewStatusesJson := true } (freshJob ∅)
      oneRunSet, ∃ c ∈ commits, c.bucket.lookup "chrome" = none := by
    decide +kernel
  obtain ⟨commits, hrun, c, hc, hnone⟩ := hbuckets
  refine ⟨commits, hrun, fun hagree => ?_⟩
  have hchrome := hagree c hc "chrome" (by decide)
  rw [Agrees, hnone] at hchrome
  cases hchrome

end WptFyi.History
