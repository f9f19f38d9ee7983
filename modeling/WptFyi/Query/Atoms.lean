import WptFyi.Query.ConcreteQuery
import WptFyi.Shared.Metadata

/-!
# Abstract queries and how they bind to runs (`api/query/atoms.go`)

An `AbstractQuery` is a search tree as the client sent it. `bindToRuns` turns
it into a `ConcreteQuery` for a list of runs. Each `BindToRuns` method of the
source is a definition here; where the method calls `arg.BindToRuns(runs...)`
on an argument, the definition takes that call as a function of the runs, a
`Binder`, and `bindToRuns` ties the knot.

Binding has effects: links, labels and triaged tests are looked up in metadata that a fetcher
downloads, and a failed download makes the query false. What the fetchers return is a value,
`Fetched`, as one binding asks each of them for the same thing every time.

| source | here |
|---|---|
| `AbstractExists.BindToRuns` | `bindExists` |
| `AbstractAll.BindToRuns` | `bindAll` |
| `AbstractNone.BindToRuns` | `bindNone` |
| `AbstractSequential.BindToRuns` | `bindSequential` |
| `AbstractCount`, `AbstractLessThan`, `AbstractMoreThan` | `bindCount` and the constructor |
| `TestStatusEq`, `TestStatusNeq` | `bindStatus` under their own constructor |
| `AbstractTriaged.BindToRuns` | `bindTriaged` |
| `AbstractOr.BindToRuns`, `AbstractAnd.BindToRuns` | `bindOr`, `bindAnd` |
-/

namespace WptFyi.Query

open Lib Shared

/-- A search tree that has not been bound to runs. `False` is left out: nothing
decodes to it. -/
inductive AbstractQuery where
  | trueQ
  | testNamePattern (pattern : String)
  | subtestNamePattern (subtest : String)
  | testPath (path : String)
  -- `none` is the nil product: any run
  | testStatusEq (product : Option ProductSpec) (status : TestStatus)
  | testStatusNeq (product : Option ProductSpec) (status : TestStatus)
  | abstractNot (arg : AbstractQuery)
  | abstractOr (args : List AbstractQuery)
  | abstractAnd (args : List AbstractQuery)
  | abstractExists (args : List AbstractQuery)
  | abstractAll (args : List AbstractQuery)
  | abstractNone (args : List AbstractQuery)
  | abstractSequential (args : List AbstractQuery)
  | abstractCount (count : Int) (arg : AbstractQuery)
  | abstractLessThan (count : Int) (arg : AbstractQuery)
  | abstractMoreThan (count : Int) (arg : AbstractQuery)
  | abstractLink (pattern : String)
  -- `none` is the nil product: test-level issues
  | abstractTriaged (product : Option ProductSpec)
  | abstractTestLabel (label : String)
  | abstractTestWebFeature (webFeature : String)
  | metadataQuality (quality : MetadataQuality)

/-- What the fetchers return while a query is bound; `none` is a failed fetch. -/
structure Fetched where
  metadata : Option (List (String × Metadata)) := none
  webFeatures : Option WebFeaturesData := none

/-- `GetMetadataResponse`, nil when the fetch fails. -/
def getMetadataResponse (fetched : Fetched) (testRuns : List TestRun) (includeTestLevel : Bool) :
    MetadataResults :=
  let productSpecs := testRuns.map fun run : TestRun =>
    ({ toProductAtRevision := run.toProductAtRevision, labels := some run.labelsSet } : ProductSpec)
  match fetched.metadata with
  | none => ∅
  | some metadata => constructMetadataResponse productSpecs includeTestLevel metadata

/-- A product that may be nil matches a run. -/
def productMatches (product : Option ProductSpec) (run : TestRun) : Bool :=
  match product with
  | none => true
  | some p => p.matchesRun run

/-- `q.BindToRuns` of a query `q`. -/
abbrev Binder := List TestRun → ConcreteQuery

/-- `AbstractExists.BindToRuns`: a single argument is bound to all runs; of
several, each must hold on some single run. -/
def bindExists (args : List Binder) (runs : List TestRun) : ConcreteQuery :=
  match args with
  | [arg] => arg runs
  | args => .and (args.map fun arg =>
      .or ((runs.map fun run => arg [run]).filter fun bound => !bound.isFalse))

/-- `AbstractAll.BindToRuns`. -/
def bindAll (args : List Binder) (runs : List TestRun) : ConcreteQuery :=
  .and (args.map fun arg =>
    .and ((runs.map fun run => arg [run]).filter fun bound => !bound.isTrue))

/-- `AbstractNone.BindToRuns`. -/
def bindNone (args : List Binder) (runs : List TestRun) : ConcreteQuery :=
  .not (bindExists args runs)

/-- `AbstractSequential.BindToRuns`: one conjunction for each window of as many
runs as there are arguments. -/
def bindSequential (args : List Binder) (runs : List TestRun) : ConcreteQuery :=
  -- `i` runs while `i + numSeqQueries - 1 < len(runs)`
  .or ((List.range (runs.length + 1 - args.length)).map fun i =>
    .and (List.zipWith (fun arg run => arg [run]) args (runs.drop i)))

/-- The arguments of a bound count, one for each run. -/
def bindCount (arg : Binder) (runs : List TestRun) : List ConcreteQuery :=
  runs.map fun run => arg [run]

/-- The body of `BindToRuns` for `TestStatusEq` and `TestStatusNeq`, which
differ in the atom they build. -/
def bindStatus (atom : Int → TestStatus → ConcreteQuery) (product : Option ProductSpec)
    (status : TestStatus) (runs : List TestRun) : ConcreteQuery :=
  match (runs.filter (productMatches product)).map TestRun.id with
  | [] => .falseQ
  | [id] => atom id status
  | ids => .or (ids.map fun id => atom id status)

/-- `AbstractLink.BindToRuns`. -/
def bindLink (fetched : Fetched) (pattern : String) (runs : List TestRun) : ConcreteQuery :=
  .link pattern (prepareLinkFilter (getMetadataResponse fetched runs true))

/-- The metadata `AbstractTriaged.BindToRuns` fetches for one run: test-level
issues alone when the product is nil. -/
def triagedMetadata (fetched : Fetched) (product : Option ProductSpec) (run : TestRun) :
    MetadataMap :=
  prepareLinkFilter <| match product with
    | none => getMetadataResponse fetched [] true
    | some _ => getMetadataResponse fetched [run] false

/-- `AbstractTriaged.BindToRuns`. -/
def bindTriaged (fetched : Fetched) (product : Option ProductSpec) (runs : List TestRun) :
    ConcreteQuery :=
  let cq := (runs.filter fun run =>
      productMatches product run && decide (triagedMetadata fetched product run ≠ ∅)).map
    fun run => ConcreteQuery.triaged run.id (triagedMetadata fetched product run)
  if cq.isEmpty then .falseQ else .or cq

/-- `AbstractTestLabel.BindToRuns`. -/
def bindTestLabel (fetched : Fetched) (label : String) : ConcreteQuery :=
  .testLabel label (prepareTestLabelFilter (getMetadataResponse fetched [] true))

/-- The loop of `AbstractOr.BindToRuns`: the first `True` is the result, a
`False` is dropped. -/
def bindOrLoop : List ConcreteQuery → List ConcreteQuery → ConcreteQuery
  | [], [] => .falseQ
  | [arg], [] => arg
  | args, [] => .or args
  | args, sub :: subs =>
    if sub.isTrue then sub
    else if sub.isFalse then bindOrLoop args subs
    else bindOrLoop (args ++ [sub]) subs

/-- `AbstractOr.BindToRuns`. -/
def bindOr (args : List Binder) (runs : List TestRun) : ConcreteQuery :=
  bindOrLoop [] (args.map fun arg => arg runs)

/-- The loop of `AbstractAnd.BindToRuns`: the first `False` is the result, a
`True` is dropped. Nothing left is `False` here too. -/
def bindAndLoop : List ConcreteQuery → List ConcreteQuery → ConcreteQuery
  | [], [] => .falseQ
  | [arg], [] => arg
  | args, [] => .and args
  | args, sub :: subs =>
    if sub.isFalse then .falseQ
    else if sub.isTrue then bindAndLoop args subs
    else bindAndLoop (args ++ [sub]) subs

/-- `AbstractAnd.BindToRuns`. -/
def bindAnd (args : List Binder) (runs : List TestRun) : ConcreteQuery :=
  bindAndLoop [] (args.map fun arg => arg runs)

mutual

/-- `BindToRuns`. -/
def bindToRuns (fetched : Fetched) : AbstractQuery → Binder
  | .trueQ => fun _ => .trueQ
  | .testNamePattern pattern => fun _ => .testNamePattern pattern
  | .subtestNamePattern subtest => fun _ => .subtestNamePattern subtest
  | .testPath path => fun _ => .testPath path
  | .testStatusEq product status => bindStatus .runTestStatusEq product status
  | .testStatusNeq product status => bindStatus .runTestStatusNeq product status
  | .abstractNot arg => fun runs => .not (bindToRuns fetched arg runs)
  | .abstractOr args => bindOr (bindArgs fetched args)
  | .abstractAnd args => bindAnd (bindArgs fetched args)
  | .abstractExists args => bindExists (bindArgs fetched args)
  | .abstractAll args => bindAll (bindArgs fetched args)
  | .abstractNone args => bindNone (bindArgs fetched args)
  | .abstractSequential args => bindSequential (bindArgs fetched args)
  | .abstractCount n arg => fun runs => .count n (bindCount (bindToRuns fetched arg) runs)
  | .abstractLessThan n arg => fun runs => .lessThan n (bindCount (bindToRuns fetched arg) runs)
  | .abstractMoreThan n arg => fun runs => .moreThan n (bindCount (bindToRuns fetched arg) runs)
  | .abstractLink pattern => bindLink fetched pattern
  | .abstractTriaged product => bindTriaged fetched product
  | .abstractTestLabel label => fun _ => bindTestLabel fetched label
  | .abstractTestWebFeature webFeature => fun _ => .testWebFeature webFeature fetched.webFeatures
  | .metadataQuality quality => fun _ => .metadataQuality quality

/-- The binders of a list of arguments. -/
def bindArgs (fetched : Fetched) : List AbstractQuery → List Binder
  | [] => []
  | q :: qs => bindToRuns fetched q :: bindArgs fetched qs

end

theorem bindArgs_eq_map (fetched : Fetched) (args : List AbstractQuery) :
    bindArgs fetched args = args.map (bindToRuns fetched) := by
  induction args with
  | nil => rfl
  | cons q qs ih => rw [bindArgs, ih, List.map_cons]

/-! ## The trees that decode -/

mutual

/-- A tree without `True` whose argument lists are not empty. -/
def AbstractQuery.WellFormed : AbstractQuery → Prop
  | .trueQ => False
  | .abstractNot arg => arg.WellFormed
  | .abstractOr args => args ≠ [] ∧ ArgsWellFormed args
  | .abstractAnd args => args ≠ [] ∧ ArgsWellFormed args
  | .abstractExists args => args ≠ [] ∧ ArgsWellFormed args
  | .abstractAll args => args ≠ [] ∧ ArgsWellFormed args
  | .abstractNone args => args ≠ [] ∧ ArgsWellFormed args
  | .abstractSequential args => args ≠ [] ∧ ArgsWellFormed args
  | .abstractCount _ arg => arg.WellFormed
  | .abstractLessThan _ arg => arg.WellFormed
  | .abstractMoreThan _ arg => arg.WellFormed
  | _ => True

def AbstractQuery.ArgsWellFormed : List AbstractQuery → Prop
  | [] => True
  | q :: qs => q.WellFormed ∧ ArgsWellFormed qs

end

/-- A tree that `RunQuery.UnmarshalJSON` returns: `True` alone, when there is no
query, or a well-formed tree. -/
def AbstractQuery.Decoded (q : AbstractQuery) : Prop := q = .trueQ ∨ q.WellFormed

end WptFyi.Query
