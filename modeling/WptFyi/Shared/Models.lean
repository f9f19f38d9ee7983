import WptFyi.Lib.GoStrings
import WptFyi.Shared.Statuses

/-!
# Products, runs and search results (`shared/models.go`, `shared/product_spec.go`)

The parts of the shared data types that the query, index and datastore code
reads: what a test run is, when a product spec matches it, and the rows of a
search response. Times are nanoseconds since the epoch. A set of labels that
may be nil is an `Option (Finset String)`.

Matching is no equality. A spec matches runs of a longer version than its own, of any revision that
begins with its own, and with more labels; and it matches other specs in the same way, which is how
triage decides whether two links are about the same product.

- `Product`, `ProductSpec`, `TestRun`: what is asked for, and what is stored;
- `ProductSpec.matchesRun`, `ProductSpec.matchesProductSpec`: the two kinds of matching;
- `LegacySearchRunResult`, `DiffFilterParam`: the parts of a search response.
-/

namespace WptFyi.Shared

open Lib.GoStrings

/-- A browser version on an OS version. -/
structure Product where
  browserName : String
  browserVersion : String := ""
  osName : String := ""
  osVersion : String := ""
deriving DecidableEq

/-- A product at a revision of the WPT repository. -/
structure ProductAtRevision extends Product where
  revision : String := ""
  fullRevisionHash : String := ""
deriving DecidableEq

/-- A parsed product spec: a product at a revision, restricted to labels. -/
structure ProductSpec extends ProductAtRevision where
  labels : Option (Finset String) := none
deriving DecidableEq

/-- The fields of a test run that the modelled code reads. -/
structure TestRun extends ProductAtRevision where
  id : Int
  timeStart : Int := 0
  labels : List String := []
deriving DecidableEq

/-- `LabelsSet` of a run. -/
def TestRun.labelsSet (run : TestRun) : Finset String := run.labels.toFinset

/-- `Channel` of a run: the first of its labels that is one, if any. -/
def TestRun.channel (run : TestRun) : String :=
  (run.labels.find? fun label =>
    label == "stable" || label == "beta" || label == "experimental").getD ""

/-- `IsLatest`: an empty SHA and `latest` both ask for the latest run. -/
def isLatest (sha : String) : Bool := sha == "" || sha == "latest"

namespace ProductSpec

/-- `IsExperimental`: the spec is restricted to experimental runs. -/
def isExperimental (p : ProductSpec) : Bool := decide ("experimental" ∈ p.labels.getD ∅)

/-- A spec without labels matches any labels; one with labels needs them all. -/
def matchesLabels (p : ProductSpec) (labels : Option (Finset String)) : Bool :=
  match p.labels with
  | none => true
  | some ls =>
    if 0 < ls.card then
      match labels with
      | none => false
      | some labels => decide (ls ⊆ labels)
    else true

/-- Browser name equal; revision `latest`, equal, or a prefix of the full hash;
version equal up to a dot-separated prefix. The OS is not compared. -/
def matchesProductAtRevision (p : ProductSpec) (q : ProductAtRevision) : Bool :=
  if q.browserName ≠ p.browserName then false
  else if !isLatest p.revision && p.revision ≠ q.revision &&
      !hasPrefix q.fullRevisionHash p.revision then false
  else if p.browserVersion ≠ "" then
    -- trailing dots keep "6" from matching "60.123"
    hasPrefix (q.browserVersion ++ ".") (p.browserVersion ++ ".")
  else true

/-- `ProductSpec.Matches`: the spec matches a run. -/
def matchesRun (p : ProductSpec) (run : TestRun) : Bool :=
  p.matchesLabels (some run.labelsSet) && p.matchesProductAtRevision run.toProductAtRevision

/-- `MatchesProductSpec`: the spec matches another spec. -/
def matchesProductSpec (p q : ProductSpec) : Bool :=
  p.matchesLabels q.labels && p.matchesProductAtRevision q.toProductAtRevision

/-- Every spec matches itself. -/
theorem matchesProductSpec_self (p : ProductSpec) : p.matchesProductSpec p = true := by
  have hlabels : p.matchesLabels p.labels = true := by
    unfold matchesLabels
    cases p.labels with
    | none => rfl
    | some ls => simp
  have hprod : p.matchesProductAtRevision p.toProductAtRevision = true := by
    simp [matchesProductAtRevision, hasPrefix_iff]
  rw [matchesProductSpec, hlabels, hprod]
  rfl

end ProductSpec

/-- Per-run counts of a search result. -/
structure LegacySearchRunResult where
  passes : Nat := 0
  total : Nat := 0
  status : String := ""
  newAggProcess : Bool := false
deriving DecidableEq

/-- Which kinds of difference a diff reports. -/
structure DiffFilterParam where
  added : Bool
  deleted : Bool
  changed : Bool
  unchanged : Bool
deriving DecidableEq

end WptFyi.Shared
