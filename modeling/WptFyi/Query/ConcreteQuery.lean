import WptFyi.Lib.GoMap
import WptFyi.Shared.Models

/-!
# Concrete queries (`api/query/concrete_query.go`)

A `ConcreteQuery` is a search bound to specific runs. The source's interface
asks only for a `Size` method, so it is open; the constructors here are the
types of the package that have one, which are the ones `newFilter` knows.

Test and subtest names are compared in lower case, so the atoms that hold a pattern hold it as it
was lowered when the query was decoded. The maps of links and labels are the ones that binding has
prepared.

- `ConcreteQuery.runIDs`: the runs whose results a query looks up;
- `AggregationOpts`: what is to be counted in the rows that a query selects;
- `prepareUserQuery` (`api/query/cache/query/query.go`) restricts a query to
  the rows known in some run, once, before it is executed.
-/

namespace WptFyi.Query

open Lib Shared

/-- Known qualities of the results, for an `is:` atom. -/
inductive MetadataQuality where
  | unknown
  | different
  | tentative
  | optional
deriving DecidableEq

/-- `WebFeaturesData`: the web features of each test, in lower case. -/
abbrev WebFeaturesData := GoMap String (Finset String)

/-- Test names to URLs or labels, as `prepareLinkFilter` and
`prepareTestLabelFilter` build it. -/
abbrev MetadataMap := GoMap String (List String)

/-- A query bound to runs. -/
inductive ConcreteQuery where
  | trueQ
  | falseQ
  | testNamePattern (pattern : String)
  | subtestNamePattern (subtest : String)
  | testPath (path : String)
  | runTestStatusEq (run : Int) (status : TestStatus)
  | runTestStatusNeq (run : Int) (status : TestStatus)
  | count (count : Int) (args : List ConcreteQuery)
  | lessThan (count : Int) (args : List ConcreteQuery)
  | moreThan (count : Int) (args : List ConcreteQuery)
  | link (pattern : String) (metadata : MetadataMap)
  | triaged (run : Int) (metadata : MetadataMap)
  | testLabel (label : String) (metadata : MetadataMap)
  -- `none` is the nil map of a failed fetch
  | testWebFeature (webFeature : String) (webFeaturesData : Option WebFeaturesData)
  | metadataQuality (quality : MetadataQuality)
  | and (args : List ConcreteQuery)
  | or (args : List ConcreteQuery)
  | not (arg : ConcreteQuery)

namespace ConcreteQuery

/-- The type test for `True`. -/
def isTrue : ConcreteQuery → Bool
  | trueQ => true
  | _ => false

/-- The type test for `False`. -/
def isFalse : ConcreteQuery → Bool
  | falseQ => true
  | _ => false

theorem isTrue_iff {q : ConcreteQuery} : q.isTrue = true ↔ q = trueQ := by
  cases q <;> simp [isTrue]

theorem isFalse_iff {q : ConcreteQuery} : q.isFalse = true ↔ q = falseQ := by
  cases q <;> simp [isFalse]

mutual

/-- The runs whose results a query looks up. -/
def runIDs : ConcreteQuery → List Int
  | runTestStatusEq run _ => [run]
  | runTestStatusNeq run _ => [run]
  | count _ args => runIDsOfArgs args
  | lessThan _ args => runIDsOfArgs args
  | moreThan _ args => runIDsOfArgs args
  | and args => runIDsOfArgs args
  | or args => runIDsOfArgs args
  | not arg => arg.runIDs
  | _ => []

def runIDsOfArgs : List ConcreteQuery → List Int
  | [] => []
  | q :: qs => q.runIDs ++ runIDsOfArgs qs

end

theorem mem_runIDsOfArgs {id : Int} {args : List ConcreteQuery} :
    id ∈ runIDsOfArgs args ↔ ∃ q ∈ args, id ∈ q.runIDs := by
  induction args with
  | nil => simp [runIDsOfArgs]
  | cons q qs ih => simp [runIDsOfArgs, ih]

end ConcreteQuery

/-- The options of an aggregation of results. -/
structure AggregationOpts where
  includeSubtests : Bool := false
  interopFormat : Bool := false
  includeDiff : Bool := false
  ignoreTestHarnessResult : Bool := false
  diffFilter : DiffFilterParam := ⟨false, false, false, false⟩
deriving DecidableEq

/-- `PrepareUserQuery`: only rows that some run knows. The condition goes in
front of the arguments when the query is an `And`. -/
def prepareUserQuery (runIDs : List Int) (q : ConcreteQuery) : ConcreteQuery :=
  let baseQuery := ConcreteQuery.or
    (runIDs.map fun runID => ConcreteQuery.runTestStatusNeq runID TestStatus.unknown)
  match q with
  | .and args => .and (baseQuery :: args)
  | q => .and [baseQuery, q]

end WptFyi.Query
