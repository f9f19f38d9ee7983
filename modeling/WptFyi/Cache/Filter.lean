import WptFyi.Cache.Tests
import WptFyi.Lib.FilePath
import WptFyi.Query.ConcreteQuery

/-!
# Filters over an in-memory index (`cache/index/filter.go`)

`newFilter` binds a concrete query to an `Index`: the tests of a shard and the
results of the runs of a request. A filter answers for each `TestID`, and
panics when it asks a run that the index has no results for (the map gives a
nil interface): `none` here.

The panics are kept, although no search runs into one, because that is something to prove and not
to assume: it follows from how a query is bound (`AsksOnly`), not from the filter. In the same way
`And` and `Or` stop at the first argument that decides, so an argument behind it is not evaluated
and cannot panic.

The three filters on metadata each have a loop of their own over the directories above a test. What
the loops compute is `lookupWithWildcards` and the union in `testLabelMatches`; that the loops of
the source come to that, and where they stop short of the root, is in `Wildcards`. Case folding is
the parameter `CaseMapping`, since it needs the tables of Unicode.

- the `…Matches` definitions are what an atom asks about a test's names;
- `andFilter`, `orFilter`, `countFilter`: the nodes, by the filters of their arguments;
- `newFilter` has one branch for each `Filter` method, `filters` for the
  arguments of a node.
-/

namespace WptFyi.Cache

open Lib Lib.GoStrings Query Shared

/-- Case mapping of Go's `strings` package, which needs the Unicode tables. -/
structure CaseMapping where
  toLower : String → String
  equalFold : String → String → Bool

/-- What a filter is bound to; the shard's lock is left out. -/
structure Index where
  tests : Tests
  runResults : GoMap RunID RunResults

/-- `Filter` of a filter, `none` when it panics. -/
abbrev Filter := TestID → Option Bool

/-! ## What atoms ask about names -/

section Atoms

variable (cases : CaseMapping)

/-- `TestNamePattern`, on a test's name. -/
def testNamePatternMatches (pattern : String) (n : TestName) : Bool :=
  contains (cases.toLower n.name) (cases.toLower pattern)

/-- `SubtestNamePattern`, on a subtest's name. -/
def subtestNamePatternMatches (pattern : String) (n : TestName) : Bool :=
  match n.subName with
  | none => false
  | some subtest => contains (cases.toLower subtest) (cases.toLower pattern)

/-- `TestPath`. -/
def testPathMatches (path : String) (n : TestName) : Bool := hasPrefix n.name path

/-- The entry of a test in metadata, or of the nearest directory above it that
has a wildcard entry. -/
def lookupWithWildcards (metadata : MetadataMap) (name : String) : Option (List String) :=
  match metadata.lookup name with
  | some values => some values
  | none => (FilePath.ancestors (FilePath.dir name)).findSome? fun dir =>
      metadata.lookup (dir ++ "/*")

/-- `Link`. -/
def linkMatches (pattern : String) (metadata : MetadataMap) (n : TestName) : Bool :=
  match lookupWithWildcards metadata n.name with
  | none => false
  | some urls => urls.any fun url => contains url pattern

/-- `Triaged`. -/
def triagedMatches (metadata : MetadataMap) (n : TestName) : Bool :=
  match lookupWithWildcards metadata n.name with
  | none => false
  | some urls => urls.any fun url => url != ""

/-- `TestLabel`: the labels of the test and of every directory above it. -/
def testLabelMatches (label : String) (metadata : MetadataMap) (n : TestName) : Bool :=
  let labels := (FilePath.ancestors (FilePath.dir n.name)).foldl
    (fun labels dir => labels ++ (metadata.lookup (dir ++ "/*")).getD [])
    ((metadata.lookup n.name).getD [])
  labels.any fun l => cases.equalFold l label

/-- `TestMatchesWithWebFeature`. -/
def testMatchesWithWebFeature (data : WebFeaturesData) (test webFeature : String) : Bool :=
  match data.lookup test with
  | none => false
  | some webFeatures => decide (cases.toLower webFeature ∈ webFeatures)

/-- `TestWebFeature`. -/
def testWebFeatureMatches (webFeature : String) (data : Option WebFeaturesData) (n : TestName) :
    Bool :=
  match data with
  | none => false
  | some data => testMatchesWithWebFeature cases data n.name webFeature

/-- The name-based qualities of `MetadataQuality`. -/
def qualityMatches (quality : MetadataQuality) (n : TestName) : Bool :=
  match quality with
  | .tentative => contains n.name ".tentative." || contains n.name "/tentative/"
  | .optional => contains n.name ".optional."
  | _ => false

end Atoms

/-! ## Filters -/

/-- A filter on names: `false` when `GetName` fails. -/
def nameFilter (idx : Index) (p : TestName → Bool) : Filter := fun t =>
  match idx.tests.lookup t with
  | none => some false
  | some n => some (p n)

/-- A filter on the result of one run, which must be in the index. -/
def resultFilter (idx : Index) (run : RunID) (p : ResultID → Bool) : Filter := fun t =>
  (idx.runResults.lookup run).map fun rrs => p (rrs.getResult t)

/-- The results of a row over all runs of the index, as a set. -/
def resultSet (idx : Index) (t : TestID) : Finset ResultID :=
  (idx.runResults.entries.map fun e => RunResults.getResult e.2 t).toFinset

/-- `MetadataQuality.Filter`. -/
def qualityFilter (idx : Index) (quality : MetadataQuality) : Filter :=
  match quality with
  | .different => fun t => some (decide (1 < (resultSet idx t).card))
  | quality => nameFilter idx (qualityMatches quality)

/-- `And.Filter`. -/
def andFilter : List Filter → Filter
  | [], _ => some true
  | arg :: args, t => do if ← arg t then andFilter args t else return false

/-- `Or.Filter`. -/
def orFilter : List Filter → Filter
  | [], _ => some false
  | arg :: args, t => do if ← arg t then return true else orFilter args t

/-- The loop of `Count.Filter`: how many arguments match. -/
def countMatches : List Filter → TestID → Option Nat
  | [], _ => some 0
  | arg :: args, t => do
    let b ← arg t
    let matched ← countMatches args t
    return if b then matched + 1 else matched

/-- `Count.Filter`, `LessThan.Filter` and `MoreThan.Filter` differ in the
comparison. -/
def countFilter (args : List Filter) (compare : Int → Bool) : Filter := fun t =>
  (countMatches args t).map fun matched => compare matched

mutual

/-- `newFilter`. -/
def newFilter (cases : CaseMapping) (idx : Index) : ConcreteQuery → Filter
  | .trueQ => fun _ => some true
  | .falseQ => fun _ => some false
  | .testNamePattern pattern => nameFilter idx (testNamePatternMatches cases pattern)
  | .subtestNamePattern subtest => nameFilter idx (subtestNamePatternMatches cases subtest)
  | .testPath path => nameFilter idx (testPathMatches path)
  | .runTestStatusEq run status => resultFilter idx run fun re => re == status
  | .runTestStatusNeq run status => resultFilter idx run fun re => re != status
  | .count n args => countFilter (filters cases idx args) fun matched => matched == n
  | .lessThan n args => countFilter (filters cases idx args) fun matched => decide (matched < n)
  | .moreThan n args => countFilter (filters cases idx args) fun matched => decide (matched > n)
  | .link pattern metadata => nameFilter idx (linkMatches pattern metadata)
  -- the run of a `Triaged` is not looked at
  | .triaged _ metadata => nameFilter idx (triagedMatches metadata)
  | .testLabel label metadata => nameFilter idx (testLabelMatches cases label metadata)
  | .testWebFeature webFeature data => nameFilter idx (testWebFeatureMatches cases webFeature data)
  | .metadataQuality quality => qualityFilter idx quality
  | .and args => andFilter (filters cases idx args)
  | .or args => orFilter (filters cases idx args)
  | .not arg => fun t => (newFilter cases idx arg t).map fun b => !b

/-- `filters`: those of a list of queries. -/
def filters (cases : CaseMapping) (idx : Index) : List ConcreteQuery → List Filter
  | [] => []
  | q :: qs => newFilter cases idx q :: filters cases idx qs

end

end WptFyi.Cache
