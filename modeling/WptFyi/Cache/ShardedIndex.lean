import WptFyi.Cache.Filter
import WptFyi.Cache.Lru
import WptFyi.Lib.RangeOrder
import WptFyi.Shared.Models

/-!
# The sharded index (`cache/index/index.go`)

A `ShardedWPTIndex` keeps the runs it has, an LRU of their IDs, the IDs being
loaded, and a list of shards. Each `sync…` function runs under the index's lock
and is one definition here. A function that returns an error after it has
changed the index gives both.

That the functions are atomic is what the lock is for; which of them a call makes, and what other
calls do in between, is the subject of `Interleaving`. The shards have locks of their own, which
nobody takes without that of the index, except while a plan is executed (`Snapshots`). Goroutines
that work on one shard each and are waited for at once are loops over the shards: the shards share
nothing. Where such a loop ranges over a map its order is a parameter, and that it does not
matter is a theorem (`lookup_shardReport`).

- `addTestResults`, `shardReport`: a report cut into the data of each shard, which an ingestion
  does between two locked steps;
- `syncMarkInProgress`, `syncStoreRun`, `syncClearInProgress`, `syncEvictRuns`, `syncExtractRuns`:
  the locked functions;
- `bind`: the plan of a search, one filter for each shard.

Left out are the report loader, which is what an ingestion is given (`Loaded`), the channel to the
monitor (`Monitor`), and logging.
-/

namespace WptFyi.Cache

open Lib Query Shared

/-- The errors of index operations. -/
inductive IndexError where
  | nilRun
  | noQuery
  | noRuns
  | runExists
  | runLoading
  | zeroRun
  | loadFailed (message : String)
  | zeroSubtestID (subtest : String)
  | alreadyLoaded (id : RunID)
  | noSuchRun (id : RunID)
  | unknownToShard (id : RunID)
deriving DecidableEq

/-- The texts of the errors. -/
def IndexError.message : IndexError → String
  | nilRun => "test run is nil"
  | noQuery => "no query provided"
  | noRuns => "no runs"
  | runExists => "run already exists in index"
  | runLoading => "run currently being loaded into index"
  | zeroRun => "cannot ingest run with ID of 0"
  | loadFailed message => message
  | zeroSubtestID subtest => "subtest ID for string \"" ++ subtest ++ "\" is 0"
  | alreadyLoaded id => "already loaded into results index: " ++ toString id
  | noSuchRun id => "no such run in results index; run ID: " ++ toString id
  | unknownToShard id => "run is unknown to shard: RunID=" ++ toString id

/-! ## Reports -/

/-- The result of a subtest in a report. -/
structure SubTest where
  name : String
  status : String
deriving DecidableEq

/-- The results of a test file in a report. -/
structure TestResults where
  test : String
  status : String
  subtests : List SubTest
deriving DecidableEq

/-- `TestResultsReport`. -/
structure Report where
  results : List TestResults
deriving DecidableEq

/-- A unit of test and result data. -/
structure TestData extends TestName where
  result : ResultID
deriving DecidableEq

/-- The data of one shard. -/
abbrev ShardData := GoMap TestID TestData

/-- The subtests of a test by name: of duplicates the first stays. -/
def dedupSubtests (subtests : List SubTest) : GoMap String SubTest :=
  subtests.foldl (fun subs sub => if sub.name ∈ subs then subs else subs.insert sub.name sub) ∅

section Sharding

variable (fingerprint64 : String → UInt64) (order : String → RangeOrder String)

/-- Add subtests of a test, which go to the shard of the test. -/
def addSubtests (test : String) (subs : GoMap String SubTest) :
    List String → ShardData → Except IndexError ShardData
  | [], data => .ok data
  | key :: keys, data =>
    match subs.lookup key with
    | none => addSubtests test subs keys data
    | some sub =>
      match computeTestID fingerprint64 test (some sub.name) with
      | none => .error (.zeroSubtestID sub.name)
      | some t => addSubtests test subs keys (data.insert t
          { name := test, subName := some sub.name,
            result := TestStatus.testStatusValueFromString sub.status })

/-- The data of one test file, added to that of its shard. The subtests are
visited in the order of a map, `order test`. -/
def addTestResults (res : TestResults) (data : ShardData) : Except IndexError ShardData :=
  let t : TestID := ⟨fingerprint64 res.test, 0⟩
  let subs := dedupSubtests res.subtests
  addSubtests fingerprint64 res.test subs (order res.test subs.keys).1
    (data.insert t { name := res.test, subName := none,
                     result := TestStatus.testStatusValueFromString res.status })

/-- The shard of a test: its fingerprint modulo the number of shards. -/
def shardIdx (numShards : Nat) (t : TestID) : Nat := t.testID.toNat % numShards

/-- The loop of `IngestRun` over a report: the data of each shard. -/
def shardReport : List TestResults → List ShardData → Except IndexError (List ShardData)
  | [], shardData => .ok shardData
  | res :: results, shardData =>
    let idx := shardIdx shardData.length ⟨fingerprint64 res.test, 0⟩
    match addTestResults fingerprint64 order res (shardData.getD idx ∅) with
    | .error err => .error err
    | .ok data => shardReport results (shardData.set idx data)

end Sharding

/-! ## Shards -/

/-- `wptIndex`: the tests and results of one shard. -/
structure WPTIndex where
  tests : Tests
  results : GoMap RunID RunResults

/-- `resultsMap.Add`. -/
def addResults (results : GoMap RunID RunResults) (ru : RunID) (rr : RunResults) :
    Except IndexError (GoMap RunID RunResults) :=
  if ru ∈ results then .error (.alreadyLoaded ru) else .ok (results.insert ru rr)

/-- `resultsMap.Delete`. -/
def deleteResults (results : GoMap RunID RunResults) (ru : RunID) :
    Except IndexError (GoMap RunID RunResults) :=
  if ru ∈ results then .ok (results.erase ru) else .error (.noSuchRun ru)

/-- `syncStoreRunOnShard`. The tests are added even if the run is already there. -/
def syncStoreRunOnShard (shard : WPTIndex) (id : RunID) (shardData : ShardData) :
    WPTIndex × Option IndexError :=
  let tests := shardData.mapValues TestData.toTestName ∪ shard.tests
  match addResults shard.results id (shardData.mapValues TestData.result) with
  | .error err => ({ shard with tests }, some err)
  | .ok results => ({ tests, results }, none)

/-- `syncDeleteResultsFromShard`. -/
def syncDeleteResultsFromShard (shard : WPTIndex) (id : RunID) : WPTIndex × Option IndexError :=
  match deleteResults shard.results id with
  | .error err => (shard, some err)
  | .ok results => ({ shard with results }, none)

/-- `syncMakeIndex`, with the results collected so far. -/
def syncMakeIndex (shard : WPTIndex) : List RunID → GoMap RunID RunResults → Except IndexError Index
  | [], runResults => .ok { tests := shard.tests, runResults }
  | id :: ids, runResults =>
    match shard.results.lookup id with
    | none => .error (.unknownToShard id)
    | some rrs => syncMakeIndex shard ids (runResults.insert id rrs)

/-- A loop over the shards that stops at the first error. -/
def onShards (f : WPTIndex → WPTIndex × Option IndexError) :
    List WPTIndex → List WPTIndex × Option IndexError
  | [] => ([], none)
  | shard :: shards =>
    match f shard with
    | (shard, some err) => (shard :: shards, some err)
    | (shard, none) =>
      let rest := onShards f shards
      (shard :: rest.1, rest.2)

/-! ## The index -/

/-- `shardedWPTIndex`. -/
structure ShardedWPTIndex where
  runs : GoMap RunID TestRun
  lru : Lru
  inFlight : Finset RunID
  shards : List WPTIndex

namespace ShardedWPTIndex

/-- `NewShardedWPTIndex`, for a number of shards it accepts. -/
def new (numShards : Nat) : ShardedWPTIndex where
  runs := ∅
  lru := .empty
  inFlight := ∅
  shards := List.replicate numShards ⟨∅, ∅⟩

/-- `syncMarkInProgress`. -/
def syncMarkInProgress (i : ShardedWPTIndex) (run : TestRun) :
    ShardedWPTIndex × Option IndexError :=
  if run.id ∈ i.runs then (i, some .runExists)
  else if run.id ∈ i.inFlight then (i, some .runLoading)
  else ({ i with inFlight := insert run.id i.inFlight }, none)

/-- `syncClearInProgress`. -/
def syncClearInProgress (i : ShardedWPTIndex) (run : TestRun) :
    ShardedWPTIndex × Option IndexError :=
  if run.id ∈ i.inFlight then ({ i with inFlight := i.inFlight.erase run.id }, none)
  else (i, some .nilRun)

/-- The loop of `syncStoreRun`: shard by shard, each with its own data. -/
def storeOnShards (id : RunID) : List WPTIndex → List ShardData → List WPTIndex × Option IndexError
  | shard :: shards, shardData :: data =>
    match syncStoreRunOnShard shard id shardData with
    | (shard, some err) => (shard :: shards, some err)
    | (shard, none) =>
      let rest := storeOnShards id shards data
      (shard :: rest.1, rest.2)
  | shards, _ => (shards, none)

/-- `syncStoreRun`, at the time `now`. -/
def syncStoreRun (i : ShardedWPTIndex) (run : TestRun) (data : List ShardData) (now : Int) :
    ShardedWPTIndex × Option IndexError :=
  match storeOnShards run.id i.shards data with
  | (shards, some err) => ({ i with shards }, some err)
  | (shards, none) =>
    ({ i with shards, runs := i.runs.insert run.id run, lru := i.lru.access run.id now }, none)

/-- The loop of `syncEvictRuns` over the runs to evict. -/
def evictLoop : List RunID → ShardedWPTIndex → ShardedWPTIndex × Option IndexError
  | [], i => (i, none)
  | id :: ids, i =>
    match onShards (syncDeleteResultsFromShard · id) i.shards with
    | (shards, some err) => ({ i with shards }, some err)
    | (shards, none) => evictLoop ids { i with shards, runs := i.runs.erase id }

/-- `syncEvictRuns`, on a listing of the LRU: how many runs were evicted. -/
def syncEvictRuns (i : ShardedWPTIndex) (percent : Percent) (entries : List (Σ _ : Int, Int)) :
    ShardedWPTIndex × Except IndexError Nat :=
  if i.runs = ∅ then (i, .error .noRuns)
  else
    let (runIDs, lru) := i.lru.evictLRU percent entries
    if runIDs = [] then ({ i with lru }, .error .noRuns)
    else match evictLoop runIDs { i with lru } with
      | (i, some err) => (i, .error err)
      | (i, none) => (i, .ok runIDs.length)

/-- `syncExtractRuns`: every shard's index, then an access to each run, `now id`
being the time of the last access to `id`. -/
def syncExtractRuns (i : ShardedWPTIndex) (ids : List RunID) (now : RunID → Int) :
    ShardedWPTIndex × Except IndexError (List Index) :=
  match i.shards.mapM (fun shard => syncMakeIndex shard ids ∅) with
  | .error err => (i, .error err)
  | .ok idxs => ({ i with lru := ids.foldl (fun lru id => lru.access id (now id)) i.lru }, .ok idxs)

end ShardedWPTIndex

/-- `ShardedFilter`: a filter for each shard, with the index it is bound to. -/
abbrev ShardedFilter := List (Index × Filter)

/-- `Bind`. A nil query is `none`. -/
def ShardedWPTIndex.bind (cases : CaseMapping) (i : ShardedWPTIndex) (runs : List TestRun)
    (q : Option ConcreteQuery) (now : RunID → Int) :
    ShardedWPTIndex × Except IndexError ShardedFilter :=
  if runs = [] then (i, .error .noRuns)
  else match q with
    | none => (i, .error .noQuery)
    | some q =>
      let (i, idxs) := i.syncExtractRuns (runs.map TestRun.id) now
      (i, idxs.map fun idxs => idxs.map fun idx => (idx, newFilter cases idx q))

end WptFyi.Cache
