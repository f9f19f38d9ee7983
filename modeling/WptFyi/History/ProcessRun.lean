import WptFyi.Lib.DeltaLog
import WptFyi.Lib.RangeOrder

/-!
# Processing one run for the test history (`scripts/process_test_history.py`)

The job keeps, for each browser, the last status of every test, and writes a
`TestHistoryEntry` for each status that a run changes. `process_single_run`
walks a report, compares it with the statuses and updates both as it goes;
entries are written in batches.

The Python functions are in a state monad that keeps its state when an exception
is raised, because what was written before it stays written. Beside the
function's own variables the state has a trace of what reaches the outside: the
updates of the statuses dict, which the process caches, and the batches.

A key is compared only the first time that an entry was written for it
(`unique_entities_to_write`), not the first time that it comes up; the difference shows only for
reports in which a key has several rows, which is the subject of `Collisions`. The tests that the
report does not mention come last, in the order of a set. Names are those of Python: white space is
what `\s` matches there, and a subtest name longer than 1000 characters is cut.

- `createEntityIfNeeded`, `addEntity`, `processReport`: the source's functions;
- `applyObservation`: what one observed status does to the state, as a plain
  function; `forM_cases`: a loop over observations applies them in order, up to one that raises;
- `processReport_cases`: the whole walk as a list of observations;
- `processSingleRun`: the whole call, on the process's cache.
-/

namespace WptFyi.History

open Lib

/-- Test name and subtest name; the overall status has no subtest name. -/
abbrev TestKey := String × String

/-- A statuses dict, and what a statuses JSON file encodes. -/
abbrev Statuses := GoMap TestKey String

/-- The fields of the run metadata that processing reads. -/
structure RunMetadata where
  id : String
  browserName : String
  timeStart : String
deriving DecidableEq

structure TestHistoryEntry where
  keyName : String
  runID : String
  browserName : String
  date : String
  testName : String
  subtestName : String
  status : String
deriving DecidableEq

/-- The test key of an entry. -/
def TestHistoryEntry.key (entry : TestHistoryEntry) : TestKey := (entry.testName, entry.subtestName)

structure SubtestData where
  name : String
  status : String
deriving DecidableEq

structure TestData where
  test : String
  status : String
  subtests : List SubtestData
deriving DecidableEq

/-- The `results` of a raw report. -/
abbrev Report := List TestData

def batchSize : Nat := 500
def maxKeyNameLength : Nat := 500
def maxSubtestNameLength : Nat := 1000

/-! ## Names -/

/-- What `\s` matches in a Python string. -/
def isWhitespace (c : Char) : Bool :=
  c.toNat ∈ [0x09, 0x0a, 0x0b, 0x0c, 0x0d, 0x1c, 0x1d, 0x1e, 0x1f, 0x20, 0x85, 0xa0, 0x1680,
    0x2000, 0x2001, 0x2002, 0x2003, 0x2004, 0x2005, 0x2006, 0x2007, 0x2008, 0x2009, 0x200a,
    0x2028, 0x2029, 0x202f, 0x205f, 0x3000]

/-- `WHITESPACE_RE.sub(' ', s)`. -/
def subWhitespace (s : String) : String :=
  String.ofList (s.toList.map fun c => if isWhitespace c then ' ' else c)

/-- A subtest name as it is stored: too long a name is cut. -/
def storedSubtestName (name : String) : String :=
  let subtestName := subWhitespace name
  if subtestName.length > maxSubtestNameLength then
    String.ofList (subtestName.toList.take maxSubtestNameLength)
  else subtestName

section Entity

-- the hex digest of the SHA-256 hash of a string's UTF-8 encoding
variable (sha256 : String → String)

/-- The key name of an entry, before its length is checked. -/
def entryKeyName (runID testName subtestName : String) : String :=
  runID ++ "_" ++ sha256 (testName ++ "\n" ++ subtestName)

/-- `_get_entry_key_name`. -/
def getEntryKeyName (runID testName subtestName : String) : Except String String :=
  let keyName := entryKeyName sha256 runID testName subtestName
  if keyName.length > maxKeyNameLength then
    .error (s!"Key name length {keyName.length} exceeds Datastore limit of " ++
      s!"{maxKeyNameLength} characters: {keyName}")
  else .ok keyName

/-- `_build_new_test_history_entry`. -/
def buildNewTestHistoryEntry (testName subtestName : String) (run : RunMetadata)
    (runDate currentStatus : String) : Except String TestHistoryEntry :=
  match getEntryKeyName sha256 run.id testName subtestName with
  | .error msg => .error msg
  | .ok keyName => .ok
    { keyName, runID := run.id, browserName := run.browserName, date := runDate, testName,
      subtestName, status := currentStatus }

end Entity

/-! ## The walk over a report

The walk as the source has it. What it does to the Datastore and to the dict is kept as a trace of
effects, which an exception leaves as it is. -/

section Bind

variable {ε σ α β : Type} {x : EStateM ε σ α} {f : α → EStateM ε σ β} {s s' : σ}

theorem bind_of_ok {a : α} (h : x s = .ok a s') : (x >>= f) s = f a s' := by
  show EStateM.bind x f s = _
  rw [EStateM.bind, h]

theorem bind_of_error {e : ε} (h : x s = .error e s') : (x >>= f) s = .error e s' := by
  show EStateM.bind x f s = _
  rw [EStateM.bind, h]

end Bind

/-- What reaches the outside while a run is processed. -/
inductive Effect where
  /-- an update of the cached statuses dict -/
  | setStatus (key : TestKey) (status : String)
  /-- `ndb.put_multi` -/
  | putMulti (entities : List TestHistoryEntry)
deriving DecidableEq

/-- The variables of `process_single_run`, and the trace. -/
structure RunState where
  prevTestStatuses : Statuses
  testsNotSeen : Finset TestKey
  entitiesToWrite : List TestHistoryEntry := []
  uniqueEntitiesToWrite : Finset TestKey := ∅
  totalEntitiesWritten : Nat := 0
  trace : List Effect := []

/-- Python code of `process_single_run`: an exception leaves the state as it is. -/
abbrev RunM := EStateM String RunState

section Walk

variable (sha256 : String → String) (run : RunMetadata)

/-- `create_entity_if_needed`. -/
def createEntityIfNeeded (testName subtestName currentStatus : String) :
    RunM (Option TestHistoryEntry) := do
  let s ← get
  let testKey := (testName, subtestName)
  if testKey ∈ s.uniqueEntitiesToWrite then return none
  if s.prevTestStatuses.lookup testKey ≠ some currentStatus then
    match buildNewTestHistoryEntry sha256 testName subtestName run run.timeStart currentStatus with
    | .error msg => throw msg
    | .ok testStatusEntry =>
      set { s with
        uniqueEntitiesToWrite := insert testKey s.uniqueEntitiesToWrite
        prevTestStatuses := s.prevTestStatuses.insert testKey currentStatus
        trace := s.trace ++ [Effect.setStatus testKey currentStatus] }
      return some testStatusEntry
  return none

/-- `ndb.put_multi(entities_to_write)` with the bookkeeping after it. -/
def RunState.flush (s : RunState) : RunState :=
  { s with
    trace := s.trace ++ [Effect.putMulti s.entitiesToWrite]
    totalEntitiesWritten := s.totalEntitiesWritten + s.entitiesToWrite.length
    entitiesToWrite := [] }

/-- The remainder is flushed when there is one. -/
def RunState.flushRest (s : RunState) : RunState :=
  if s.entitiesToWrite.length > 0 then s.flush else s

/-- Appending to `entities_to_write`, flushing when it is full. -/
def RunState.push (s : RunState) (entity : TestHistoryEntry) : RunState :=
  let s := { s with entitiesToWrite := s.entitiesToWrite ++ [entity] }
  if s.entitiesToWrite.length ≥ batchSize then s.flush else s

/-- `add_entity`. -/
def addEntity : Option TestHistoryEntry → RunM Unit
  | none => return
  | some entity => modify fun s => s.push entity

/-- Compare one status and write an entry when it changed. -/
def writeIfNeeded (testName subtestName currentStatus : String) : RunM Unit := do
  let entity ← createEntityIfNeeded sha256 run testName subtestName currentStatus
  addEntity entity

/-- `tests_not_seen.discard(key)`. -/
def discard (key : TestKey) : RunM Unit :=
  modify fun s => { s with testsNotSeen := s.testsNotSeen.erase key }

/-- One subtest of a report. -/
def processSubtest (testName : String) (subtestData : SubtestData) : RunM Unit := do
  let subtestName := storedSubtestName subtestData.name
  writeIfNeeded sha256 run testName subtestName subtestData.status
  discard (testName, subtestName)

/-- One test of a report. -/
def processTest (testData : TestData) : RunM Unit := do
  let testName := subWhitespace testData.test
  writeIfNeeded sha256 run testName "" testData.status
  discard (testName, "")
  testData.subtests.forM (processSubtest sha256 run testName)

/-- The body of `process_single_run` once report and statuses are there. -/
def processReport (order : RangeOrder TestKey) (report : Report) : RunM Unit := do
  report.forM (processTest sha256 run)
  -- write MISSING for tests and subtests not seen
  let s ← get
  (order s.testsNotSeen).1.forM fun key => writeIfNeeded sha256 run key.1 key.2 "MISSING"
  modify RunState.flushRest

end Walk

/-! ## The whole call -/

/-- The command-line arguments that matter here. -/
structure Args where
  generateNewStatusesJson : Bool := false

/-- The module-level cache of statuses, by browser. -/
abbrev StatusesCache := GoMap String Statuses

/-- The statuses JSON files in the bucket, by browser. -/
abbrev StatusesBucket := GoMap String Statuses

/-- `_populate_previous_statuses`: the dict, and the cache that now holds it. -/
def populatePreviousStatuses (args : Args) (bucket : StatusesBucket) (cache : StatusesCache)
    (browserName : String) : Except String (Statuses × StatusesCache) :=
  -- an empty dict, which is not cached, generates the initial statuses
  if args.generateNewStatusesJson then .ok (∅, cache)
  else match cache.lookup browserName with
    | some statuses => .ok (statuses, cache)
    | none =>
      match bucket.lookup browserName with
      | none => .error s!"Error obtaining recent statuses file for {browserName}"
      | some statuses => .ok (statuses, cache.insert browserName statuses)

/-- One call of `process_single_run`: the run, what fetching its report gave, and
the order in which the missing tests come up. -/
structure RunCall where
  run : RunMetadata
  fetched : Option Report
  order : RangeOrder TestKey

/-- The state in which the walk over a report starts. -/
def startState (statuses : Statuses) : RunState :=
  { prevTestStatuses := statuses, testsNotSeen := statuses.keys }

/-- How a call ends. -/
structure Outcome where
  exception : Option String
  cache : StatusesCache
  trace : List Effect

/-- `process_single_run`. The dict is updated in place, so the cache sees the
updates, also those made before an exception. -/
def processSingleRun (sha256 : String → String) (args : Args) (bucket : StatusesBucket)
    (cache : StatusesCache) (call : RunCall) : Outcome :=
  match call.fetched with
  | none => ⟨some "Failed to fetch raw results", cache, []⟩
  | some report =>
    match populatePreviousStatuses args bucket cache call.run.browserName with
    | .error msg => ⟨some msg, cache, []⟩
    | .ok (statuses, cache) =>
      let cacheWith (s : RunState) : StatusesCache :=
        if args.generateNewStatusesJson then cache
        else cache.insert call.run.browserName s.prevTestStatuses
      match processReport sha256 call.run call.order report (startState statuses) with
      | .ok _ s => ⟨none, cacheWith s, s.trace⟩
      | .error msg s => ⟨some msg, cacheWith s, s.trace⟩

/-! ## Observations

A row of the report is observed: a test with its status, or a subtest with its own. One lemma says
what an observation does, by whether its key is new, has changed or stays. -/

/-- The statuses a report gives, in the order of the walk. -/
def testObservations (testData : TestData) : List (TestKey × String) :=
  let testName := subWhitespace testData.test
  ((testName, ""), testData.status) :: testData.subtests.map fun subtestData =>
    ((testName, storedSubtestName subtestData.name), subtestData.status)

def observations (report : Report) : List (TestKey × String) := report.flatMap testObservations

section Observe

variable (sha256 : String → String) (run : RunMetadata)

/-- The entry of an observation. -/
def entryFor (o : TestKey × String) : TestHistoryEntry :=
  { keyName := entryKeyName sha256 run.id o.1.1 o.1.2, runID := run.id,
    browserName := run.browserName, date := run.timeStart, testName := o.1.1,
    subtestName := o.1.2, status := o.2 }

/-- The state after recording a changed status, before its entry is appended. -/
def recordStatus (s : RunState) (o : TestKey × String) : RunState :=
  { s with
    uniqueEntitiesToWrite := insert o.1 s.uniqueEntitiesToWrite
    prevTestStatuses := s.prevTestStatuses.insert o.1 o.2
    trace := s.trace ++ [Effect.setStatus o.1 o.2] }

/-- What comparing one observed status does, when no exception is raised. -/
def applyObservation (s : RunState) (o : TestKey × String) : RunState :=
  if o.1 ∈ s.uniqueEntitiesToWrite ∨ s.prevTestStatuses.lookup o.1 = some o.2 then s
  else (recordStatus s o).push (entryFor sha256 run o)

/-- A status whose key was written, or that did not change, needs no entry. -/
theorem createEntityIfNeeded_of_known {o : TestKey × String} {s : RunState}
    (h : o.1 ∈ s.uniqueEntitiesToWrite ∨ s.prevTestStatuses.lookup o.1 = some o.2) :
    createEntityIfNeeded sha256 run o.1.1 o.1.2 o.2 s = .ok none s := by
  show (if o.1 ∈ s.uniqueEntitiesToWrite then _ else
    if s.prevTestStatuses.lookup o.1 ≠ some o.2 then _ else _ : RunM _) s = _
  by_cases hunique : o.1 ∈ s.uniqueEntitiesToWrite
  · rw [if_pos hunique]
    rfl
  · rw [if_neg hunique, if_neg (not_not.mpr (h.resolve_left hunique))]
    rfl

/-- Any other gets one, unless its key name is too long. -/
theorem createEntityIfNeeded_of_changed {o : TestKey × String} {s : RunState}
    (h : ¬ (o.1 ∈ s.uniqueEntitiesToWrite ∨ s.prevTestStatuses.lookup o.1 = some o.2)) :
    createEntityIfNeeded sha256 run o.1.1 o.1.2 o.2 s =
        .ok (some (entryFor sha256 run o)) (recordStatus s o) ∨
      ∃ msg, createEntityIfNeeded sha256 run o.1.1 o.1.2 o.2 s = .error msg s := by
  rw [not_or] at h
  have hcreate : createEntityIfNeeded sha256 run o.1.1 o.1.2 o.2 s =
      (match buildNewTestHistoryEntry sha256 o.1.1 o.1.2 run run.timeStart o.2 with
      | .error msg => .error msg s
      | .ok entity => .ok (some entity) (recordStatus s o)) := by
    show (if o.1 ∈ s.uniqueEntitiesToWrite then _ else
      if s.prevTestStatuses.lookup o.1 ≠ some o.2 then _ else _ : RunM _) s = _
    rw [if_neg h.1, if_pos h.2]
    cases buildNewTestHistoryEntry sha256 o.1.1 o.1.2 run run.timeStart o.2 <;> rfl
  rw [hcreate]
  by_cases hlong : (entryKeyName sha256 run.id o.1.1 o.1.2).length > maxKeyNameLength
  · refine Or.inr ?_
    rw [buildNewTestHistoryEntry, getEntryKeyName, if_pos hlong]
    exact ⟨_, rfl⟩
  · refine Or.inl ?_
    rw [buildNewTestHistoryEntry, getEntryKeyName, if_neg hlong]
    rfl

/-- **One status**: it is applied, or its entry has too long a key name and
nothing happens. -/
theorem writeIfNeeded_cases (o : TestKey × String) (s : RunState) :
    writeIfNeeded sha256 run o.1.1 o.1.2 o.2 s = .ok () (applyObservation sha256 run s o) ∨
      ∃ msg, writeIfNeeded sha256 run o.1.1 o.1.2 o.2 s = .error msg s := by
  unfold applyObservation writeIfNeeded
  by_cases hknown : o.1 ∈ s.uniqueEntitiesToWrite ∨ s.prevTestStatuses.lookup o.1 = some o.2
  · rw [if_pos hknown, bind_of_ok (createEntityIfNeeded_of_known sha256 run hknown)]
    exact Or.inl rfl
  · rw [if_neg hknown]
    rcases createEntityIfNeeded_of_changed sha256 run hknown with hcreate | ⟨msg, hcreate⟩
    · rw [bind_of_ok hcreate]
      exact Or.inl rfl
    · exact Or.inr ⟨msg, bind_of_error hcreate⟩

/-- Observing one status of the report: it is compared, and its key was seen. -/
def observe (o : TestKey × String) : RunM Unit := do
  writeIfNeeded sha256 run o.1.1 o.1.2 o.2
  discard o.1

/-- What observing does to the state. -/
def applySeen (s : RunState) (o : TestKey × String) : RunState :=
  { applyObservation sha256 run s o with testsNotSeen := s.testsNotSeen.erase o.1 }

theorem testsNotSeen_applyObservation (s : RunState) (o : TestKey × String) :
    (applyObservation sha256 run s o).testsNotSeen = s.testsNotSeen := by
  unfold applyObservation RunState.push
  split
  · rfl
  · dsimp only
    split <;> rfl

theorem observe_cases (o : TestKey × String) (s : RunState) :
    observe sha256 run o s = .ok () (applySeen sha256 run s o) ∨
      ∃ msg, observe sha256 run o s = .error msg s := by
  rcases writeIfNeeded_cases sha256 run o s with h | ⟨msg, h⟩
  · refine Or.inl ?_
    rw [observe, bind_of_ok h]
    rw [applySeen, ← testsNotSeen_applyObservation sha256 run s o]
    rfl
  · exact Or.inr ⟨msg, bind_of_error h⟩

/-- The walk over a report observes its statuses one after the other. -/
theorem forM_processTest (report : Report) :
    report.forM (processTest sha256 run) = (observations report).forM (observe sha256 run) := by
  induction report with
  | nil => rfl
  | cons testData report ih =>
    have htest : processTest sha256 run testData =
        (testObservations testData).forM (observe sha256 run) := by
      unfold processTest testObservations
      rw [List.forM_eq_forM, List.forM_eq_forM, List.forM_cons, List.forM_map, observe, bind_assoc]
      rfl
    rw [List.forM_eq_forM, List.forM_eq_forM] at ih
    rw [observations, List.flatMap_cons, List.forM_eq_forM, List.forM_eq_forM, List.forM_append,
      List.forM_cons, htest, ih]
    rfl

end Observe

/-- **A loop** of steps that either apply or raise: it applies all of them, or
those before the first that raises. -/
theorem forM_cases {α : Type} {f : α → RunM Unit} {g : RunState → α → RunState}
    (hstep : ∀ x s, f x s = .ok () (g s x) ∨ ∃ msg, f x s = .error msg s) (xs : List α)
    (s : RunState) :
    xs.forM f s = .ok () (xs.foldl g s) ∨
      ∃ msg pre post, xs = pre ++ post ∧ xs.forM f s = .error msg (pre.foldl g s) := by
  induction xs generalizing s with
  | nil => exact Or.inl rfl
  | cons x xs ih =>
    rcases hstep x s with h | ⟨msg, h⟩
    · have hrest : (x :: xs).forM f s = xs.forM f (g s x) := bind_of_ok h
      rw [hrest]
      rcases ih (g s x) with h' | ⟨msg, pre, post, rfl, h'⟩
      · exact Or.inl h'
      · exact Or.inr ⟨msg, x :: pre, post, rfl, h'⟩
    · exact Or.inr ⟨msg, [], x :: xs, rfl, bind_of_error h⟩

/-! ## The walk as a list of observations

The nested loops are a fold over the observations in the order of the report, followed by the keys
that were not seen. -/

def RunState.withNotSeen (s : RunState) (notSeen : Finset TestKey) : RunState :=
  { s with testsNotSeen := notSeen }

section Walk

variable (sha256 : String → String) (run : RunMetadata)

/-- Comparing a status does not look at which tests were seen. -/
theorem applyObservation_withNotSeen (s : RunState) (notSeen : Finset TestKey)
    (o : TestKey × String) :
    applyObservation sha256 run (s.withNotSeen notSeen) o =
      (applyObservation sha256 run s o).withNotSeen notSeen := by
  unfold applyObservation RunState.push
  show (if o.1 ∈ s.uniqueEntitiesToWrite ∨ s.prevTestStatuses.lookup o.1 = some o.2 then _
    else _) = _
  split
  · rfl
  · dsimp only
    show (if (s.entitiesToWrite ++ [_]).length ≥ batchSize then _ else _) =
      RunState.withNotSeen (if (s.entitiesToWrite ++ [_]).length ≥ batchSize then _ else _) _
    split <;> rfl

theorem foldl_applyObservation_withNotSeen (s : RunState) (notSeen : Finset TestKey)
    (obs : List (TestKey × String)) :
    obs.foldl (applyObservation sha256 run) (s.withNotSeen notSeen) =
      (obs.foldl (applyObservation sha256 run) s).withNotSeen notSeen := by
  induction obs generalizing s with
  | nil => rfl
  | cons o obs ih => rw [List.foldl_cons, applyObservation_withNotSeen, ih, List.foldl_cons]

/-- Going over the rows takes the tests of the report off the set of those not seen, whatever else
it does. -/
theorem foldl_applySeen (s : RunState) (obs : List (TestKey × String)) :
    obs.foldl (applySeen sha256 run) s =
      (obs.foldl (applyObservation sha256 run) s).withNotSeen
        (s.testsNotSeen \ (obs.map Prod.fst).toFinset) := by
  induction obs generalizing s with
  | nil => simp [RunState.withNotSeen]
  | cons o obs ih =>
    have hseen : applySeen sha256 run s o =
        (applyObservation sha256 run s o).withNotSeen (s.testsNotSeen.erase o.1) := rfl
    have hkeys : s.testsNotSeen.erase o.1 \ (obs.map Prod.fst).toFinset =
        s.testsNotSeen \ ((o :: obs).map Prod.fst).toFinset := by
      ext key
      simp only [Finset.mem_sdiff, Finset.mem_erase, List.map_cons, List.toFinset_cons,
        Finset.mem_insert]
      tauto
    rw [List.foldl_cons, ih, hseen, foldl_applyObservation_withNotSeen, List.foldl_cons, ← hkeys]
    rfl

theorem flushRest_withNotSeen (s : RunState) (notSeen : Finset TestKey) :
    (s.withNotSeen notSeen).flushRest = s.flushRest.withNotSeen notSeen := by
  show (if s.entitiesToWrite.length > 0 then _ else _) =
    RunState.withNotSeen (if s.entitiesToWrite.length > 0 then _ else _) _
  split <;> rfl

/-- The observations of a whole call: the report's, then `MISSING` for what the
report does not mention. -/
def allObservations (order : RangeOrder TestKey) (report : Report) (notSeen : Finset TestKey) :
    List (TestKey × String) :=
  observations report ++
    (order (notSeen \ ((observations report).map Prod.fst).toFinset)).1.map fun key =>
      (key, "MISSING")

/-- **A whole call**: it applies all its observations and flushes the rest, or
raises at one of them and leaves those before applied. -/
theorem processReport_cases (order : RangeOrder TestKey) (report : Report) (s : RunState) :
    (∃ notSeen, processReport sha256 run order report s =
      .ok () (RunState.flushRest ((allObservations order report s.testsNotSeen).foldl
        (applyObservation sha256 run) s) |>.withNotSeen notSeen)) ∨
    ∃ msg pre post notSeen, allObservations order report s.testsNotSeen = pre ++ post ∧
      processReport sha256 run order report s =
        .error msg ((pre.foldl (applyObservation sha256 run) s).withNotSeen notSeen) := by
  unfold processReport
  rw [forM_processTest]
  rcases forM_cases (observe_cases sha256 run) (observations report) s with
    hwalk | ⟨msg, pre, post, hobs, hwalk⟩
  · rw [foldl_applySeen] at hwalk
    rw [bind_of_ok hwalk]
    -- the set of missing tests is read once, before their loop
    show (∃ notSeen, EStateM.bind (List.forM (order (s.testsNotSeen \ _)).1 _) _ _ = _) ∨
      ∃ msg pre post notSeen, _ ∧ EStateM.bind (List.forM (order (s.testsNotSeen \ _)).1 _) _ _ = _
    unfold allObservations
    generalize (order (s.testsNotSeen \ _)).1 = missing
    have hstep : ∀ (key : TestKey) s, writeIfNeeded sha256 run key.1 key.2 "MISSING" s =
        .ok () (applyObservation sha256 run s (key, "MISSING")) ∨
        ∃ msg, writeIfNeeded sha256 run key.1 key.2 "MISSING" s = .error msg s :=
      fun key s => writeIfNeeded_cases sha256 run (key, "MISSING") s
    have hfold : ∀ (keys : List TestKey) (s : RunState),
        keys.foldl (fun s key => applyObservation sha256 run s (key, "MISSING")) s =
          (keys.map fun key => (key, "MISSING")).foldl (applyObservation sha256 run) s :=
      fun keys s => (List.foldl_map ..).symm
    rcases forM_cases hstep missing _ with hmissing | ⟨msg, pre, post, hkeys, hmissing⟩
    · refine Or.inl ⟨s.testsNotSeen \ ((observations report).map Prod.fst).toFinset, ?_⟩
      rw [EStateM.bind, hmissing, hfold, foldl_applyObservation_withNotSeen, List.foldl_append]
      exact congrArg (EStateM.Result.ok ()) (flushRest_withNotSeen _ _)
    · refine Or.inr ⟨msg, observations report ++ pre.map fun key => (key, "MISSING"),
        post.map fun key => (key, "MISSING"),
        s.testsNotSeen \ ((observations report).map Prod.fst).toFinset, ?_, ?_⟩
      · rw [hkeys, List.map_append, List.append_assoc]
      · rw [EStateM.bind, hmissing, hfold, foldl_applyObservation_withNotSeen, List.foldl_append]
  · rw [foldl_applySeen] at hwalk
    obtain ⟨missing, hall⟩ : ∃ missing, allObservations order report s.testsNotSeen =
      observations report ++ missing := ⟨_, rfl⟩
    refine Or.inr ⟨msg, pre, post ++ missing, _, ?_, bind_of_error hwalk⟩
    rw [hall, hobs, List.append_assoc]

end Walk

end WptFyi.History
