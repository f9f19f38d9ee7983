import WptFyi.History.Checkpoints
import WptFyi.Lib.Redo
import WptFyi.Lib.Runs

/-!
# Invocations of the job, step by step

`main` as it runs in a cloud function: its invocations may end anywhere, and the next
one starts in a fresh process or in the same warm one, whose statuses cache is still
there. A step is what happens at once: one answer of the API, one update of a cached
dict, one write to Datastore or to the bucket.

In `Checkpoints` a call of `process_single_run` is one step, and an exception ends the run. Here
the calls are taken apart, since an interruption can fall between any two of their effects and the
four threads interleave. A thread's effects are computed from the statuses that it loads when it
starts: its list of effects is fixed then, and a step of the thread takes the first of them. What
the effects of a call come to does not depend on the order in which missing tests are visited
(`callStatuses`, `callRows`), which matters because a replayed call visits them in another one.

- `Feed`: the answers of the API by date; `Execution`, `step`: the job and what it does;
- `callStatuses`, `callRows`: what one run leaves in its browser's dict and in the rows,
  whatever the order of the missing tests;
- `ThreadInv`: what a thread has done so far and what it has still to do add up to that;
- `threadStep_spec`: a step of one thread keeps it and leaves the others alone.
-/

namespace WptFyi.History

open Lib Lib.DeltaLog

/-! ## The steps

A step is an answer of the API, one effect of a thread, the end of a wait or one write of a commit,
or else the end of the process, which may come at any time. -/

/-- What `get_aligned_run_info` answers for a date when its request does not time out.
The runs of an interval do not change. -/
structure Feed where
  answer : String → AlignedRunInfo × String
  /-- the date with which the job is up-to-date has no later runs -/
  upToDate : ∀ date, (answer date).1 = .upToDate → (answer (answer date).2).1 = .upToDate
  /-- the runs of a set are different runs -/
  distinct : ∀ date runSet, (answer date).1 = .runs runSet →
    (runSet.calls.map fun call => call.run.id).Nodup

/-- A thread of `process_runs`, and what it has still to do and to raise once it has
loaded the statuses. -/
structure Thread where
  call : RunCall
  todo : Option (List Effect × Option String) := none

/-- Where `main` goes on after a `commit_checkpoint`. -/
inductive AfterCommit where
  | checkTime
  | timedOut
  | finish
deriving DecidableEq

inductive Phase where
  /-- no invocation is running -/
  | stopped
  /-- at the head of the loop -/
  | loop (loop : LoopState)
  /-- in `process_runs` -/
  | processing (loop : LoopState) (nextDate : String) (threads : List Thread)
  /-- at the check for the soft timeout -/
  | checkTime (loop : LoopState)
  /-- in `commit_checkpoint` after the date update, with these browsers to flush -/
  | committing (loop : LoopState) (left : List String) (after : AfterCommit)
  /-- `main` returned with everything processed -/
  | finished

/-- What is stored, the cache of the process, and where `main` is. -/
structure Execution where
  job : JobState
  phase : Phase

/-- What may happen next, with the choices that are not the code's. -/
inductive Action where
  /-- the API answers; the threads will come upon missing tests in these orders -/
  | ask (orders : String → RangeOrder TestKey)
  | requestTimedOut
  /-- a thread does one thing -/
  | thread (i : Nat)
  /-- a thread raises -/
  | raise (i : Nat) (msg : String)
  /-- the threads have ended -/
  | join
  | time (timedOut : Bool)
  | flush
  /-- `main` is cut off, or raises -/
  | interrupt
  /-- `main` is invoked again -/
  | restart (warm : Bool)

/-- `update_recent_processed_date`, with the flushes still to come. -/
def beginCommit (loop : LoopState) (after : AfterCommit) (job : JobState) : Execution :=
  ⟨{ job with date := loop.currentDate }, .committing loop processedBrowsers after⟩

/-- An invocation starts at the stored date. -/
def invoke (job : JobState) : Execution := ⟨job, .loop { currentDate := job.date }⟩

/-- The job in a process that has cached nothing. -/
def JobState.fresh (job : JobState) : JobState := { job with cache := ∅ }

def RunCall.withOrder (call : RunCall) (order : RangeOrder TestKey) : RunCall :=
  { call with order }

/-- One change that `process_single_run` makes. -/
def applyEffect (browserName : String) (job : JobState) : Effect → JobState
  | .setStatus key status =>
    let statuses := (job.cache.lookup browserName).getD ∅
    { job with cache := job.cache.insert browserName (statuses.insert key status) }
  | .putMulti entities => { job with entries := job.entries ++ entities }

section Step

variable (sha256 : String → String)

/-- The report is fetched and the statuses are loaded, and cached. -/
def loadStatuses (job : JobState) (call : RunCall) : JobState :=
  match call.fetched, populatePreviousStatuses {} job.bucket job.cache call.run.browserName with
  | some _, .ok (_, cache) => { job with cache }
  | _, _ => job

/-- The next thing that a thread does. -/
def threadStep (job : JobState) (thread : Thread) : Option (JobState × Thread) :=
  match thread.todo with
  | none =>
    let out := processSingleRun sha256 {} job.bucket job.cache thread.call
    some (loadStatuses job thread.call, { thread with todo := some (out.trace, out.exception) })
  | some ([], _) => none
  | some (effect :: effects, exception) =>
    some (applyEffect thread.call.run.browserName job effect,
      { thread with todo := some (effects, exception) })

/-- How a thread has ended, once it has. -/
def Thread.ended (thread : Thread) : Option (Option String) :=
  match thread.todo with
  | some ([], exception) => some exception
  | _ => none

variable (feed : Feed)

def ask (e : Execution) (orders : String → RangeOrder TestKey) : Option Execution :=
  match e.phase with
  | .loop loop =>
    match feed.answer loop.currentDate with
    | (.upToDate, nextDate) =>
      some (beginCommit { loop with currentDate := nextDate } .finish e.job)
    | (.noRuns, nextDate) =>
      some { e with phase := .loop { loop with
        currentDate := nextDate
        revisionsSinceCheckpoint := loop.revisionsSinceCheckpoint + 1 } }
    | (.runs runSet, nextDate) =>
      let threads : List Thread := runSet.calls.map fun call =>
        { call := call.withOrder (orders call.run.browserName) }
      some { e with phase := .processing loop nextDate threads }
  | _ => none

/-- The empty list, and the date that was asked for. -/
def requestTimedOut (e : Execution) : Option Execution :=
  match e.phase with
  | .loop loop => some { e with phase := .loop { loop with
      revisionsSinceCheckpoint := loop.revisionsSinceCheckpoint + 1 } }
  | _ => none

def stepThread (e : Execution) (i : Nat) : Option Execution :=
  match e.phase with
  | .processing loop nextDate threads => do
    let thread ← threads[i]?
    let (job, thread) ← threadStep sha256 e.job thread
    return ⟨job, .processing loop nextDate (threads.set i thread)⟩
  | _ => none

def raiseThread (e : Execution) (i : Nat) (msg : String) : Option Execution :=
  match e.phase with
  | .processing loop nextDate threads => do
    let thread ← threads[i]?
    if thread.ended.isSome then none
    else
      let thread := { thread with todo := some ([], some msg) }
      return { e with phase := .processing loop nextDate (threads.set i thread) }
  | _ => none

/-- What follows `process_runs`: it raises when a thread did, and else a checkpoint may
be due. -/
def join (e : Execution) : Option Execution :=
  match e.phase with
  | .processing loop nextDate threads =>
    if threads.any fun thread => thread.ended.isNone then none
    else if threads.any fun thread => thread.ended ≠ some none then
      some { e with phase := .stopped }
    else
      let loop : LoopState :=
        { currentDate := nextDate
          runSetsProcessed := loop.runSetsProcessed + 1
          revisionsSinceCheckpoint := loop.revisionsSinceCheckpoint + 1 }
      if loop.revisionsSinceCheckpoint ≥ checkpointInterval then
        some (beginCommit loop .checkTime e.job)
      else some { e with phase := .checkTime loop }
  | _ => none

def checkTime (e : Execution) (timedOut : Bool) : Option Execution :=
  match e.phase with
  | .checkTime loop =>
    if timedOut then some (beginCommit loop .timedOut e.job)
    else some { e with phase := .loop loop }
  | _ => none

/-- The next flush of a `commit_checkpoint`, or its end. -/
def flush (e : Execution) : Option Execution :=
  match e.phase with
  | .committing loop (browserName :: left) after =>
    some ⟨flushPreviousStatuses e.job browserName, .committing loop left after⟩
  | .committing loop [] .checkTime =>
    some { e with phase := .checkTime { loop with revisionsSinceCheckpoint := 0 } }
  | .committing _ [] .timedOut => some { e with phase := .stopped }
  | .committing _ [] .finish => some { e with phase := .finished }
  | _ => none

/-- The statuses cache survives in a warm process only. -/
def restart (e : Execution) (warm : Bool) : Option Execution :=
  match e.phase with
  | .stopped => some (invoke (if warm then e.job else e.job.fresh))
  | _ => none

/-- One step of the job. -/
def step (e : Execution) : Action → Option Execution
  | .ask orders => ask feed e orders
  | .requestTimedOut => requestTimedOut e
  | .thread i => stepThread sha256 e i
  | .raise i msg => raiseThread e i msg
  | .join => join e
  | .time timedOut => checkTime e timedOut
  | .flush => flush e
  | .interrupt => some { e with phase := .stopped }
  | .restart warm => restart e warm

end Step

/-! ## What one run leaves -/

/-- What entries write: the statuses by key name. -/
def rowLog (entries : List TestHistoryEntry) : List (String × String) :=
  entries.map fun entry => (entry.keyName, entry.status)

/-- The stored rows: `put_multi` overwrites the row of its key. -/
def storedRows (entries : List TestHistoryEntry) : GoMap String String := replay ∅ (rowLog entries)

theorem storedRows_append (entries entries' : List TestHistoryEntry) :
    storedRows (entries ++ entries') = replay (storedRows entries) (rowLog entries') := by
  rw [storedRows, rowLog, List.map_append, replay_append]
  rfl

section Call

variable (sha256 : String → String)

/-- The dict after a run, from the one before. -/
def callStatuses (call : RunCall) (statuses : Statuses) : Statuses :=
  match call.fetched with
  | none => statuses
  | some report => (walked sha256 call report statuses).prevTestStatuses

/-- The rows that a run writes. -/
def callRows (call : RunCall) (statuses : Statuses) : GoMap String String :=
  match call.fetched with
  | none => ∅
  | some report => storedRows (walked sha256 call report statuses).written

/-! ### The order of the missing tests -/

theorem walked_withOrder_prevTestStatuses (call : RunCall) (order : RangeOrder TestKey)
    (report : Report) (statuses : Statuses) :
    (walked sha256 (call.withOrder order) report statuses).prevTestStatuses =
      (walked sha256 call report statuses).prevTestStatuses := by
  refine Finmap.ext_lookup fun key => ?_
  by_cases hkey : key ∈ reportKeys report
  · rw [walked_lookup, walked_lookup, rowsOf_allObservations_of_mem hkey,
      rowsOf_allObservations_of_mem hkey]
  · rw [walked_lookup_of_notMem sha256 _ statuses hkey,
      walked_lookup_of_notMem sha256 _ statuses hkey]

/-- The walk up to the missing tests. -/
def observed (run : RunMetadata) (report : Report) (statuses : Statuses) : RunState :=
  (observations report).foldl (applyObservation sha256 run) (startState statuses)

/-- Only keys of the report were written by then, and the batches are in order. -/
theorem foldl_applyObservation_written (run : RunMetadata) (obs : List (TestKey × String))
    {s : RunState} (hfull : s.BatchesFull) :
    let s' := obs.foldl (applyObservation sha256 run) s
    s'.BatchesFull ∧ ∀ key ∈ s'.uniqueEntitiesToWrite,
      key ∈ s.uniqueEntitiesToWrite ∨ key ∈ obs.map Prod.fst := by
  induction obs generalizing s with
  | nil => exact ⟨hfull, fun key hkey => Or.inl hkey⟩
  | cons o obs ih =>
    rw [List.foldl_cons, List.map_cons]
    by_cases hknown : o.1 ∈ s.uniqueEntitiesToWrite ∨ s.prevTestStatuses.lookup o.1 = some o.2
    · rw [applyObservation_of_known sha256 run hknown]
      obtain ⟨hfull', hunique⟩ := ih hfull
      exact ⟨hfull', fun key hkey => (hunique key hkey).imp_right (List.mem_cons_of_mem _)⟩
    · obtain ⟨-, -, hsub, hstep⟩ := applyObservation_spec sha256 run
        (not_or.mp hknown).1 hfull
      obtain ⟨hfull', hunique⟩ := ih hstep
      refine ⟨hfull', fun key hkey => ?_⟩
      rcases hunique key hkey with hkey | hkey
      · rcases Finset.mem_insert.mp (hsub hkey) with rfl | hkey
        · exact Or.inr List.mem_cons_self
        · exact Or.inl hkey
      · exact Or.inr (List.mem_cons_of_mem _ hkey)

/-- The tests that a call finds missing. -/
def missingKeys (call : RunCall) (report : Report) (statuses : Statuses) : List TestKey :=
  (call.order (statuses.keys \ ((observations report).map Prod.fst).toFinset)).1

theorem mem_missingKeys {call : RunCall} {report : Report} {statuses : Statuses} {key : TestKey} :
    key ∈ missingKeys call report statuses ↔ key ∈ statuses.keys ∧ key ∉ reportKeys report := by
  rw [missingKeys, mem_rangeOrder, Finset.mem_sdiff, List.mem_toFinset]
  rfl

/-- The entries of the tests that went missing. -/
def missingEntries (call : RunCall) (report : Report) (statuses : Statuses) :
    List TestHistoryEntry :=
  (deltas (observed sha256 call.run report statuses).prevTestStatuses
    ((missingKeys call report statuses).map fun key => (key, "MISSING"))).map
      (entryFor sha256 call.run)

/-- **The entries of a walk**: those of the report's rows, then those of missing tests. -/
theorem written_walked (call : RunCall) (report : Report) (statuses : Statuses) :
    (walked sha256 call report statuses).written =
      (observed sha256 call.run report statuses).written ++
        missingEntries sha256 call report statuses := by
  obtain ⟨hfull, hunique⟩ := foldl_applyObservation_written sha256 call.run (observations report)
    (batchesFull_startState statuses)
  have hkeys : ((missingKeys call report statuses).map fun key => (key, "MISSING")).map Prod.fst =
      missingKeys call report statuses := by
    rw [List.map_map]
    exact List.map_id _
  have hfresh : ∀ o ∈ (missingKeys call report statuses).map (fun key => (key, "MISSING")),
      o.1 ∉ (observed sha256 call.run report statuses).uniqueEntitiesToWrite := by
    intro o ho hmem
    obtain ⟨key, hkey, rfl⟩ := List.mem_map.mp ho
    rcases hunique key hmem with hstart | hreport
    · exact absurd hstart (Finset.notMem_empty _)
    · exact (mem_missingKeys.mp hkey).2 hreport
  have hnodup : (((missingKeys call report statuses).map fun key => (key, "MISSING")).map
      Prod.fst).Nodup := by
    rw [hkeys]
    exact (call.order _).2.1
  have hspec := (applied_spec sha256 call.run hnodup hfresh hfull).2.1
  rw [missingEntries, ← hspec, walked, allObservations, List.foldl_append]
  rfl

/-- What is written for missing tests is `MISSING`, for a set of keys that does not
depend on the order. -/
theorem rowLog_missingEntries (call : RunCall) (report : Report) (statuses : Statuses) :
    (∀ row ∈ rowLog (missingEntries sha256 call report statuses), row.2 = "MISSING") ∧
      ∀ k, k ∈ (rowLog (missingEntries sha256 call report statuses)).map Prod.fst ↔
        ∃ key, (key ∈ statuses.keys ∧ key ∉ reportKeys report) ∧
          (observed sha256 call.run report statuses).prevTestStatuses.lookup key ≠
            some "MISSING" ∧ entryKeyName sha256 call.run.id key.1 key.2 = k := by
  constructor
  · intro row hrow
    obtain ⟨entry, hentry, rfl⟩ := List.mem_map.mp hrow
    obtain ⟨o, ho, rfl⟩ := List.mem_map.mp hentry
    obtain ⟨key, -, rfl⟩ := List.mem_map.mp (mem_deltas.mp ho).1
    rfl
  · intro k
    rw [rowLog, missingEntries, List.map_map, List.map_map, List.mem_map]
    constructor
    · rintro ⟨o, ho, rfl⟩
      obtain ⟨hmem, hchanged⟩ := mem_deltas.mp ho
      obtain ⟨key, hkey, rfl⟩ := List.mem_map.mp hmem
      exact ⟨key, mem_missingKeys.mp hkey, hchanged, rfl⟩
    · rintro ⟨key, hkey, hchanged, rfl⟩
      refine ⟨(key, "MISSING"), mem_deltas.mpr ⟨?_, hchanged⟩, rfl⟩
      exact List.mem_map.mpr ⟨key, mem_missingKeys.mpr hkey, rfl⟩

/-- **The rows of a call do not depend on the order** in which missing tests come up. -/
theorem storedRows_withOrder (call : RunCall) (order : RangeOrder TestKey) (report : Report)
    (statuses : Statuses) :
    storedRows (walked sha256 (call.withOrder order) report statuses).written =
      storedRows (walked sha256 call report statuses).written := by
  obtain ⟨hstatus, hkeys⟩ := rowLog_missingEntries sha256 call report statuses
  obtain ⟨hstatus', hkeys'⟩ := rowLog_missingEntries sha256 (call.withOrder order) report statuses
  refine Finmap.ext_lookup fun k => ?_
  rw [written_walked, written_walked, storedRows_append, storedRows_append,
    lookup_replay_const _ hstatus, lookup_replay_const _ hstatus']
  exact if_congr ((hkeys' k).trans (hkeys k).symm) rfl rfl

theorem callStatuses_withOrder (call : RunCall) (order : RangeOrder TestKey)
    (statuses : Statuses) :
    callStatuses sha256 (call.withOrder order) statuses = callStatuses sha256 call statuses := by
  show (match call.fetched with | none => _ | some report => _) = _
  rw [callStatuses]
  cases call.fetched with
  | none => rfl
  | some report => exact walked_withOrder_prevTestStatuses sha256 call order report statuses

theorem callRows_withOrder (call : RunCall) (order : RangeOrder TestKey) (statuses : Statuses) :
    callRows sha256 (call.withOrder order) statuses = callRows sha256 call statuses := by
  show (match call.fetched with | none => _ | some report => _) = _
  rw [callRows]
  cases call.fetched with
  | none => rfl
  | some report => exact storedRows_withOrder sha256 call order report statuses

end Call

/-! ## Threads

A thread touches the dict and the rows of its own browser only. At every step, what it has done so
far and what it has still to do add up to one call. -/

/-- The dict updates of a trace. -/
def statusLog (effects : List Effect) : List (TestKey × String) :=
  effects.filterMap fun effect =>
    match effect with
    | .setStatus key status => some (key, status)
    | .putMulti _ => none

/-- The entries that a trace puts. -/
def putEntries (effects : List Effect) : List TestHistoryEntry := (putBatches effects).flatten

/-- A process has, or else would load, these statuses for a browser. -/
def Loads (job : JobState) (browserName : String) (statuses : Statuses) : Prop :=
  ∃ cache, populatePreviousStatuses {} job.bucket job.cache browserName = .ok (statuses, cache)

theorem loads_iff {job : JobState} {browserName : String} {statuses : Statuses} :
    Loads job browserName statuses ↔ job.cache.lookup browserName = some statuses ∨
      job.cache.lookup browserName = none ∧ job.bucket.lookup browserName = some statuses := by
  rw [Loads, populatePreviousStatuses, if_neg Bool.false_ne_true]
  cases job.cache.lookup browserName with
  | some statuses => simp
  | none =>
    cases job.bucket.lookup browserName with
    | none => simp
    | some statuses => simp

theorem loads_fresh_iff {job : JobState} {browserName : String} {statuses : Statuses} :
    Loads job.fresh browserName statuses ↔ job.bucket.lookup browserName = some statuses := by
  have hnone : job.fresh.cache.lookup browserName = none := Finmap.lookup_empty _
  rw [loads_iff, hnone, and_iff_right rfl, or_iff_right nofun]
  rfl

section Trace

variable (sha256 : String → String) (run : RunMetadata)

/-- Appending an entry leaves the dict and its updates alone. -/
theorem statusLog_push (s : RunState) (entity : TestHistoryEntry) :
    statusLog (s.push entity).trace = statusLog s.trace ∧
      (s.push entity).prevTestStatuses = s.prevTestStatuses := by
  unfold RunState.push
  dsimp only
  split
  · refine ⟨?_, rfl⟩
    show statusLog (s.trace ++ [.putMulti _]) = _
    rw [statusLog, List.filterMap_append]
    exact List.append_nil _
  · exact ⟨rfl, rfl⟩

theorem statusLog_flushRest (s : RunState) : statusLog s.flushRest.trace = statusLog s.trace := by
  unfold RunState.flushRest
  split
  · show statusLog (s.trace ++ [.putMulti _]) = _
    rw [statusLog, List.filterMap_append]
    exact List.append_nil _
  · rfl

/-- **The trace has all updates of the dict.** -/
theorem replay_statusLog_foldl {statuses : Statuses} (obs : List (TestKey × String)) {s : RunState}
    (h : replay statuses (statusLog s.trace) = s.prevTestStatuses) :
    replay statuses (statusLog (obs.foldl (applyObservation sha256 run) s).trace) =
      (obs.foldl (applyObservation sha256 run) s).prevTestStatuses := by
  induction obs generalizing s with
  | nil => exact h
  | cons o obs ih =>
    refine ih ?_
    by_cases hknown : o.1 ∈ s.uniqueEntitiesToWrite ∨ s.prevTestStatuses.lookup o.1 = some o.2
    · rwa [applyObservation_of_known sha256 run hknown]
    · rw [applyObservation, if_neg hknown]
      obtain ⟨hlog, hprev⟩ := statusLog_push (recordStatus s o) (entryFor sha256 run o)
      rw [hlog, hprev]
      show replay statuses (statusLog (s.trace ++ [.setStatus o.1 o.2])) = _
      rw [statusLog, List.filterMap_append, replay_append]
      show (replay statuses (statusLog s.trace)).insert o.1 o.2 = _
      rw [h]
      rfl

/-- A walk only adds entries. -/
theorem written_prefix_foldl (obs : List (TestKey × String)) (s : RunState) :
    s.written <+: (obs.foldl (applyObservation sha256 run) s).written := by
  induction obs generalizing s with
  | nil => exact List.prefix_rfl
  | cons o obs ih =>
    refine List.IsPrefix.trans ?_ (ih _)
    by_cases hknown : o.1 ∈ s.uniqueEntitiesToWrite ∨ s.prevTestStatuses.lookup o.1 = some o.2
    · rw [applyObservation_of_known sha256 run hknown]
    · rw [applyObservation, if_neg hknown, written_push, written_recordStatus]
      exact List.prefix_append _ _

/-- Every entry of a walk is that of an observation. -/
theorem mem_written_walked (call : RunCall) (report : Report) (statuses : Statuses)
    {entry : TestHistoryEntry} (h : entry ∈ (walked sha256 call report statuses).written) :
    ∃ o, entry = entryFor sha256 call.run o := by
  have hfold : ∀ (obs : List (TestKey × String)) (s : RunState),
      (∀ entry ∈ s.written, ∃ o, entry = entryFor sha256 call.run o) →
      ∀ entry ∈ (obs.foldl (applyObservation sha256 call.run) s).written,
        ∃ o, entry = entryFor sha256 call.run o := by
    intro obs
    induction obs with
    | nil => exact fun _ h => h
    | cons o obs ih =>
      refine fun s hs => ih _ fun entry hentry => ?_
      by_cases hknown : o.1 ∈ s.uniqueEntitiesToWrite ∨ s.prevTestStatuses.lookup o.1 = some o.2
      · rw [applyObservation_of_known sha256 call.run hknown] at hentry
        exact hs entry hentry
      · rw [applyObservation, if_neg hknown, written_push, written_recordStatus,
          List.mem_append, List.mem_singleton] at hentry
        exact hentry.elim (hs entry) fun heq => ⟨o, heq⟩
  exact hfold _ _ (fun _ hentry => absurd hentry List.not_mem_nil) entry h

/-- **The trace of a call**: that of the whole walk, or of a part of it when an
exception is raised. -/
theorem processSingleRun_trace {bucket : StatusesBucket} {cache cache₁ : StatusesCache}
    {call : RunCall} {report : Report} {statuses : Statuses} (hfetched : call.fetched = some report)
    (hstatuses : populatePreviousStatuses {} bucket cache call.run.browserName =
      .ok (statuses, cache₁)) :
    let out := processSingleRun sha256 {} bucket cache call
    out.exception = none ∧ out.trace = (walked sha256 call report statuses).flushRest.trace ∨
      out.exception ≠ none ∧ ∃ pre post,
        allObservations call.order report statuses.keys = pre ++ post ∧
        out.trace = (pre.foldl (applyObservation sha256 call.run) (startState statuses)).trace := by
  unfold processSingleRun
  rw [hfetched]
  simp only [hstatuses]
  rcases processReport_cases sha256 call.run call.order report (startState statuses) with
    ⟨notSeen, hwalk⟩ | ⟨msg, pre, post, notSeen, hobs, hwalk⟩
  · rw [hwalk]
    exact Or.inl ⟨rfl, rfl⟩
  · rw [hwalk]
    exact Or.inr ⟨nofun, pre, post, hobs, rfl⟩

end Trace

/-- **What a thread has done and has still to do add up to the whole run**: its puts are
rows of the run, and unless it raises, the rest leaves the dict and the rows of the run. -/
structure Pending (sha256 : String → String) (statuses : Statuses) (call : RunCall)
    (job : JobState) (effects : List Effect) (exception : Option String) : Prop where
  rows : ∀ entry ∈ putEntries effects, entry.keyName ∈ callRows sha256 call statuses
  dict : exception = none → ∃ dict, job.cache.lookup call.run.browserName = some dict ∧
    replay dict (statusLog effects) = callStatuses sha256 call statuses
  total : exception = none → ∀ k ∈ callRows sha256 call statuses,
    (replay (storedRows job.entries) (rowLog (putEntries effects))).lookup k =
      (callRows sha256 call statuses).lookup k

/-- The invariant of one thread, given the statuses of its browser before the run set. -/
def ThreadInv (sha256 : String → String) (statuses : Statuses) (job : JobState)
    (thread : Thread) : Prop :=
  match thread.todo with
  | none => Loads job thread.call.run.browserName statuses
  | some (effects, exception) => Pending sha256 statuses thread.call job effects exception

section ThreadSpec

variable {sha256 : String → String} {statuses : Statuses} {job job' : JobState}

theorem mem_storedRows {entries : List TestHistoryEntry} {k : String} :
    k ∈ storedRows entries ↔ k ∈ (rowLog entries).map Prod.fst := by
  rw [storedRows, mem_replay_iff, or_iff_right Finmap.notMem_empty]

/-- A thread that raised has nothing left to show. -/
theorem pending_raised (sha256 : String → String) (statuses : Statuses) (call : RunCall)
    (job : JobState) (msg : String) : Pending sha256 statuses call job [] (some msg) where
  rows _ hentry := absurd hentry List.not_mem_nil
  dict h := nomatch h
  total h := nomatch h

/-- **The first step of a thread** loads the statuses; all of the run is still to do. -/
theorem pending_start (call : RunCall) (hloads : Loads job call.run.browserName statuses) :
    let out := processSingleRun sha256 {} job.bucket job.cache call
    Pending sha256 statuses call (loadStatuses job call) out.trace out.exception := by
  obtain ⟨cache₁, hstatuses⟩ := hloads
  cases hfetched : call.fetched with
  | none =>
    have hout : processSingleRun sha256 {} job.bucket job.cache call =
        ⟨some "Failed to fetch raw results", job.cache, []⟩ := by
      rw [processSingleRun, hfetched]
    rw [hout]
    exact pending_raised sha256 statuses call _ _
  | some report =>
    have hrows : callRows sha256 call statuses =
        storedRows (walked sha256 call report statuses).written := by
      rw [callRows, hfetched]
    have hcache : (loadStatuses job call).cache.lookup call.run.browserName = some statuses := by
      rw [loadStatuses, hfetched, hstatuses]
      show cache₁.lookup call.run.browserName = some statuses
      rcases loads_iff.mp ⟨cache₁, hstatuses⟩ with hcached | ⟨hnone, hbucket⟩
      · rw [populatePreviousStatuses, if_neg Bool.false_ne_true, hcached] at hstatuses
        cases hstatuses
        exact hcached
      · rw [populatePreviousStatuses, if_neg Bool.false_ne_true, hnone, hbucket] at hstatuses
        cases hstatuses
        exact Finmap.lookup_insert _
    have hentries : (loadStatuses job call).entries = job.entries := by
      rw [loadStatuses, hfetched, hstatuses]
    rcases processSingleRun_trace sha256 hfetched hstatuses with
      ⟨hnone, htrace⟩ | ⟨hraised, pre, post, hobs, htrace⟩
    · have hput : putEntries (processSingleRun sha256 {} job.bucket job.cache call).trace =
          (walked sha256 call report statuses).written := by
        obtain ⟨hwritten, hempty⟩ := written_flushRest (walked sha256 call report statuses)
        rw [putEntries, htrace, ← hwritten, RunState.written, hempty, List.append_nil]
      refine ⟨fun entry hentry => ?_, fun _ => ⟨statuses, hcache, ?_⟩, fun _ k hk => ?_⟩
      · rw [hput] at hentry
        rw [hrows, mem_storedRows]
        exact List.mem_map.mpr ⟨_, List.mem_map.mpr ⟨entry, hentry, rfl⟩, rfl⟩
      · rw [htrace, statusLog_flushRest, callStatuses, hfetched]
        exact replay_statusLog_foldl sha256 call.run _ rfl
      · rw [hput, hentries, hrows]
        rw [hrows, mem_storedRows] at hk
        exact lookup_replay_of_mem_keys hk
    · refine ⟨fun entry hentry => ?_, fun h => absurd h hraised, fun h => absurd h hraised⟩
      -- what was put before the exception is among the entries of the whole walk
      have hpre : entry ∈ (walked sha256 call report statuses).written := by
        rw [walked, hobs, List.foldl_append]
        refine (written_prefix_foldl sha256 call.run post _).subset ?_
        rw [putEntries, htrace] at hentry
        exact List.mem_append_left _ hentry
      rw [hrows, mem_storedRows]
      exact List.mem_map.mpr ⟨_, List.mem_map.mpr ⟨entry, hpre, rfl⟩, rfl⟩

/-- One effect done, one less to do. -/
theorem Pending.applyEffect {call : RunCall} {effect : Effect} {effects : List Effect}
    {exception : Option String}
    (h : Pending sha256 statuses call job (effect :: effects) exception) :
    Pending sha256 statuses call (History.applyEffect call.run.browserName job effect) effects
      exception := by
  cases effect with
  | setStatus key status =>
    refine ⟨h.rows, fun hnone => ?_, h.total⟩
    obtain ⟨dict, hcached, hdict⟩ := h.dict hnone
    refine ⟨dict.insert key status, ?_, hdict⟩
    show (Finmap.insert call.run.browserName
      (Finmap.insert key status ((job.cache.lookup call.run.browserName).getD ∅))
      job.cache).lookup call.run.browserName = some (dict.insert key status)
    rw [hcached]
    exact Finmap.lookup_insert _
  | putMulti entities =>
    have hput : putEntries (.putMulti entities :: effects) = entities ++ putEntries effects := rfl
    refine ⟨fun entry hentry => h.rows entry (List.mem_append_right _ hentry), h.dict, ?_⟩
    intro hnone k hk
    have htotal := h.total hnone k hk
    rw [hput, rowLog, List.map_append, replay_append] at htotal
    show (replay (storedRows (job.entries ++ entities)) _).lookup k = _
    rw [storedRows_append]
    exact htotal

/-- What a step of a thread of this browser, with these rows to write, may change. -/
structure OwnChanges (browserName : String) (rows : GoMap String String) (job job' : JobState) :
    Prop where
  date : job'.date = job.date
  bucket : job'.bucket = job.bucket
  cache : ∀ other, other ≠ browserName → job'.cache.lookup other = job.cache.lookup other
  entries : ∀ k ∉ rows, (storedRows job'.entries).lookup k = (storedRows job.entries).lookup k

theorem ownChanges_refl (browserName : String) (rows : GoMap String String) (job : JobState) :
    OwnChanges browserName rows job job := ⟨rfl, rfl, fun _ _ => rfl, fun _ _ => rfl⟩

theorem ownChanges_loadStatuses (sha256 : String → String) (statuses : Statuses)
    (job : JobState) (call : RunCall) :
    OwnChanges call.run.browserName (callRows sha256 call statuses) job
      (loadStatuses job call) := by
  unfold loadStatuses
  split
  · next hstatuses => exact ⟨rfl, rfl, fun _ hother => lookup_of_populate hstatuses hother,
      fun _ _ => rfl⟩
  · exact ownChanges_refl _ _ job

/-- The next effect of a thread is on rows of its own call. -/
theorem Pending.ownChanges {call : RunCall} {effect : Effect} {effects : List Effect}
    {exception : Option String}
    (h : Pending sha256 statuses call job (effect :: effects) exception) :
    OwnChanges call.run.browserName (callRows sha256 call statuses) job
      (History.applyEffect call.run.browserName job effect) := by
  cases effect with
  | setStatus key status =>
    exact ⟨rfl, rfl, fun _ hother => Finmap.lookup_insert_of_ne _ hother, fun _ _ => rfl⟩
  | putMulti entities =>
    refine ⟨rfl, rfl, fun _ _ => rfl, fun k hk => ?_⟩
    show (storedRows (job.entries ++ entities)).lookup k = _
    rw [storedRows_append]
    refine lookup_replay_of_notMem fun hmem => hk ?_
    obtain ⟨row, hrow, rfl⟩ := List.mem_map.mp hmem
    obtain ⟨entry, hentry, rfl⟩ := List.mem_map.mp hrow
    exact h.rows entry (List.mem_append_left _ hentry)

/-- **A step of a thread** keeps its invariant, and changes only what is its own. -/
theorem threadStep_spec {thread thread' : Thread} (h : ThreadInv sha256 statuses job thread)
    (hstep : threadStep sha256 job thread = some (job', thread')) :
    thread'.call = thread.call ∧ ThreadInv sha256 statuses job' thread' ∧
      OwnChanges thread.call.run.browserName (callRows sha256 thread.call statuses) job job' := by
  obtain ⟨call, todo⟩ := thread
  match todo with
  | none =>
    cases hstep
    exact ⟨rfl, pending_start call h, ownChanges_loadStatuses sha256 statuses job call⟩
  | some ([], exception) => cases hstep
  | some (effect :: effects, exception) =>
    cases hstep
    exact ⟨rfl, Pending.applyEffect h, Pending.ownChanges h⟩

/-- **The frame of a thread**: another thread's changes do not matter to it. -/
theorem ThreadInv.frame {thread : Thread} (h : ThreadInv sha256 statuses job thread)
    {browserName : String} {rows : GoMap String String}
    (hown : OwnChanges browserName rows job job')
    (hbrowser : thread.call.run.browserName ≠ browserName)
    (hrows : ∀ k ∈ callRows sha256 thread.call statuses, k ∉ rows) :
    ThreadInv sha256 statuses job' thread := by
  obtain ⟨call, todo⟩ := thread
  match todo with
  | none =>
    refine loads_iff.mpr ?_
    rw [hown.cache _ hbrowser, hown.bucket]
    exact loads_iff.mp h
  | some (effects, exception) =>
    have hpending : Pending sha256 statuses call job effects exception := h
    refine ⟨hpending.rows, fun hnone => ?_, fun hnone k hk => ?_⟩
    · rw [hown.cache _ hbrowser]
      exact hpending.dict hnone
    · rw [lookup_replay, hown.entries k (hrows k hk), ← lookup_replay]
      exact hpending.total hnone k hk

/-- **A thread that has ended** without an exception has done all of its run. -/
theorem ThreadInv.done {thread : Thread} (h : ThreadInv sha256 statuses job thread)
    (hended : thread.ended = some none) :
    Loads job thread.call.run.browserName (callStatuses sha256 thread.call statuses) ∧
      ∀ k ∈ callRows sha256 thread.call statuses,
        (storedRows job.entries).lookup k = (callRows sha256 thread.call statuses).lookup k := by
  obtain ⟨call, todo⟩ := thread
  match todo with
  | none => cases hended
  | some (effect :: effects, exception) => cases hended
  | some ([], exception) =>
    cases hended
    have hpending : Pending sha256 statuses call job [] none := h
    obtain ⟨dict, hcached, hdict⟩ := hpending.dict rfl
    refine ⟨loads_iff.mpr (Or.inl ?_), hpending.total rfl⟩
    rw [hcached, ← hdict]
    rfl

end ThreadSpec

/-- Where digests have one length, runs with different IDs have different keys. -/
theorem callRows_disjoint {sha256 : String → String} (hsha256 : ∀ s, (sha256 s).length = 64)
    {call call' : RunCall} (hid : call.run.id ≠ call'.run.id) (statuses statuses' : Statuses) :
    ∀ k ∈ callRows sha256 call statuses, k ∉ callRows sha256 call' statuses' := by
  have hform : ∀ (call : RunCall) (statuses : Statuses), ∀ k ∈ callRows sha256 call statuses,
      ∃ name, k = call.run.id ++ "_" ++ sha256 name := by
    intro call statuses k hk
    unfold callRows at hk
    split at hk
    · exact absurd hk Finmap.notMem_empty
    · next report hfetched =>
      rw [mem_storedRows] at hk
      obtain ⟨row, hrow, rfl⟩ := List.mem_map.mp hk
      obtain ⟨entry, hentry, rfl⟩ := List.mem_map.mp hrow
      obtain ⟨o, rfl⟩ := mem_written_walked sha256 call report statuses hentry
      exact ⟨_, rfl⟩
  intro k hk hk'
  obtain ⟨name, hname⟩ := hform call statuses k hk
  obtain ⟨name', hname'⟩ := hform call' statuses' k hk'
  refine hid ?_
  have hchars := congrArg String.toList (hname.symm.trans hname')
  simp only [String.toList_append] at hchars
  have hlength : (sha256 name).toList.length = (sha256 name').toList.length := by
    rw [String.length_toList, String.length_toList, hsha256, hsha256]
  have hprefix := List.append_inj_left' hchars hlength
  exact String.toList_injective (List.append_cancel_right hprefix)

end WptFyi.History
