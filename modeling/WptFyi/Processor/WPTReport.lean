import WptFyi.History.ProcessRun
import WptFyi.Lib.PyValue

/-!
# Merging and summarizing reports (`results-processor/wptreport.py`)

A run is uploaded as one or more chunks, JSON files of their own. The processor
loads them one after the other into a `WPTReport`: the results are concatenated,
each `run_info` property and the two times are merged, and a merge that finds two
values for a property raises. The summary has one entry for each test.

A chunk is a JSON object that has `results`; `load_json` raises before the merge
on one that has none. The keys of a result may be missing, as nothing checks for them:
they are options here, and reading one that is missing is Python's `KeyError`. What a
function has changed before it raises stays changed, so a function that raises returns
the report as well as the exception.

- `addChunk`, `loadReport`: the merge of one chunk and of all of them;
- `updateProperty`: one property, and what a conflict leaves;
- `summarize`: the summary, which is cached in the report.
-/

namespace WptFyi.Processor

open Lib

def ignoredConflicts : Finset String :=
  {"browser_build_id", "browser_changeset", "version", "os_build"}

def statusAbbreviations : List (String × String) :=
  [("PASS", "P"), ("OK", "O"), ("FAIL", "F"), ("SKIP", "S"), ("ERROR", "E"), ("NOTRUN", "N"),
    ("CRASH", "C"), ("TIMEOUT", "T"), ("PRECONDITION_FAILED", "PF")]

/-- The keys that `summarize` reads; the file may lack them. -/
structure SubtestResult where
  status : Option String
deriving DecidableEq

/-- The keys that `summarize` reads; the file may lack them. -/
structure TestResult where
  test : Option String
  status : Option String
  subtests : Option (List SubtestResult)
deriving DecidableEq

/-- A `run_info` dict in the order of the file. -/
structure RunInfo where
  entries : List (String × PyValue)
  nodup : (entries.map Prod.fst).Nodup

/-- A raw report. -/
structure Chunk where
  results : List TestResult
  runInfo : Option RunInfo := none
  timeStart : Option PyNumber := none
  timeEnd : Option PyNumber := none

structure SummaryEntry where
  s : String
  c : Nat × Nat
deriving DecidableEq

abbrev Summary := GoMap String SummaryEntry

/-- The fields of a `WPTReport`, those of its raw report among them. -/
structure Report where
  results : List TestResult := []
  runInfo : GoMap String PyValue := ∅
  timeStart : Option PyNumber := none
  timeEnd : Option PyNumber := none
  summary : Summary := ∅

/-! ## Merging -/

/-- One line of a `ConflictingDataError`: `key: [source, target]`. -/
structure Conflict where
  key : String
  source : PyValue
  target : PyValue
deriving DecidableEq

/-- `update_property`: what `target[key]` is afterwards, and whether there was a
conflict. Its three callers pass a `conflict_func`. -/
def updateProperty {V : Type} (eq : V → V → Bool) (conflictFunc : V → V → V) :
    Option V → Option V → Option V × Bool
  | none, target => (target, false)
  | some source, none => (some source, false)
  | some source, some target =>
    if !eq source target then (some (conflictFunc source target), true) else (some source, false)

/-- One turn of the loop over a chunk's `run_info`. -/
def mergeEntry : GoMap String PyValue × List Conflict → String × PyValue →
    GoMap String PyValue × List Conflict
  | (target, conflicts), (key, source) =>
    let targetValue := (target.lookup key).getD (.str "")
    let (updated, conflict) :=
      updateProperty PyValue.eq (fun _ _ => .none) (some source) (target.lookup key)
    (updated.elim target (target.insert key),
      if conflict ∧ key ∉ ignoredConflicts then conflicts ++ [⟨key, source, targetValue⟩]
      else conflicts)

/-- The loop over a chunk's `run_info`, where it has one. -/
def mergeRunInfo (target : GoMap String PyValue) :
    Option RunInfo → GoMap String PyValue × List Conflict
  | some runInfo => runInfo.entries.foldl mergeEntry (target, [])
  | none => (target, [])

/-- Python's `min` of two numbers. -/
def pyMin (a b : PyNumber) : PyNumber := if b < a then b else a

/-- Python's `max` of two numbers. -/
def pyMax (a b : PyNumber) : PyNumber := if a < b then b else a

/-- `_add_chunk`: the report afterwards, and the conflicts of the
`ConflictingDataError` it raises. What was merged by then stays. -/
def addChunk (report : Report) (chunk : Chunk) : Report × Option (List Conflict) :=
  let report := { report with results := report.results ++ chunk.results }
  let (runInfo, conflicts) := mergeRunInfo report.runInfo chunk.runInfo
  let report := { report with runInfo }
  if conflicts ≠ [] then (report, some conflicts)
  else
    ({ report with
        timeStart := (updateProperty (· == ·) pyMin chunk.timeStart report.timeStart).1
        timeEnd := (updateProperty (· == ·) pyMax chunk.timeEnd report.timeEnd).1 }, none)

/-- `Processor.load_report`: chunk after chunk, up to the first that raises. -/
def loadReport : Report → List Chunk → Report × Option (List Conflict)
  | report, [] => (report, none)
  | report, chunk :: chunks =>
    match addChunk report chunk with
    | (report, some conflicts) => (report, some conflicts)
    | (report, none) => loadReport report chunks

/-! ## Summarizing -/

inductive SummarizeError where
  /-- `ConflictingDataError(test_file)` -/
  | conflictingData (testFile : String)
  /-- a key that a result or a subtest lacks -/
  | keyError (key : String)
deriving DecidableEq

abbrev SummaryM := EStateM SummarizeError Summary

/-- `d[key]`. -/
def required {α : Type} (key : String) : Option α → SummaryM α
  | some a => return a
  | none => throw (.keyError key)

/-- `str.strip`. -/
def strip (s : String) : String :=
  String.ofList
    (((s.toList.dropWhile History.isWhitespace).reverse.dropWhile History.isWhitespace).reverse)

/-- `self._summary[test_file]['c'][0] += passes` and the same for the total. -/
def countSubtest (testFile : String) (passed : Bool) (summary : Summary) : Summary :=
  match summary.lookup testFile with
  | some entry =>
    summary.insert testFile
      { entry with c := (entry.c.1 + if passed then 1 else 0, entry.c.2 + 1) }
  | none => summary

/-- The loop over the subtests of a result. -/
def summarizeSubtests (testFile : String) : List SubtestResult → SummaryM Unit
  | [] => return
  | subtest :: subtests => do
    let status ← required "status" subtest.status
    modify (countSubtest testFile (status == "PASS"))
    summarizeSubtests testFile subtests

/-- One turn of the loop over the results. -/
def summarizeResult (result : TestResult) : SummaryM Unit := do
  let test ← required "test" result.test
  let testFile := strip test
  if testFile ∈ (← get) then throw (.conflictingData testFile)
  let status ← required "status" result.status
  let status := (statusAbbreviations.lookup status).getD status
  modify fun summary => summary.insert testFile { s := status, c := (0, 0) }
  let subtests ← required "subtests" result.subtests
  summarizeSubtests testFile subtests

def summarizeResults : List TestResult → SummaryM Unit
  | [] => return
  | result :: results => do
    summarizeResult result
    summarizeResults results

/-- `summarize`: the report afterwards, with the summary as far as it came, and the
summary or the exception. -/
def summarize (report : Report) : Report × Except SummarizeError Summary :=
  if report.summary ≠ ∅ then (report, .ok report.summary)
  else
    match (summarizeResults report.results).run report.summary with
    | .ok _ summary => ({ report with summary }, .ok summary)
    | .error e summary => ({ report with summary }, .error e)

end WptFyi.Processor
