import WptFyi.Lib.GoMap
import WptFyi.Shared.Statuses

/-!
# Tests and results of a shard (`cache/index/tests.go`, `cache/index/results.go`)

A shard keeps the names of the tests it has seen and, for each run, the results
of that run's tests. A test or subtest is identified by a `TestID`, two 64-bit
fingerprints of its names.

The fingerprint is a function from names to `UInt64` of which the source only assumes that it does
not collide, so it is a parameter here and what is assumed of it is said where it is used
(`Separates`). Both maps are finite maps; that `runResultsMap` wraps a map and `testsMap` another
one does not show. A status is stored as a `ResultID`, and a row without an entry is `UNKNOWN`,
which is a status like the others: a row that a run has reported as unknown cannot be told from
one that it has not reported.

- `computeTestID`: the identifier of a row, and the one error it can have;
- `RunResults.getResult`: the status of a row in a run.
-/

namespace WptFyi.Cache

open Lib Shared

/-- The fingerprints of a test name and of a subtest name, 0 for the test
itself. -/
structure TestID where
  testID : UInt64
  subID : UInt64
deriving DecidableEq

/-- A test's name and, for a subtest, its own. -/
structure TestName where
  name : String
  subName : Option String
deriving DecidableEq

abbrev RunID := Int

/-- A status as a result value. -/
abbrev ResultID := Int

/-- `testsMap`: `Add` is `insert`, `GetName` is `lookup`. -/
abbrev Tests := GoMap TestID TestName

/-- `runResultsMap`: the results of one run. -/
abbrev RunResults := GoMap TestID ResultID

/-- `GetResult`: unknown when there is no result. -/
def RunResults.getResult (rrs : RunResults) (t : TestID) : ResultID :=
  (Finmap.lookup t rrs).getD TestStatus.unknown

/-- `computeTestID`, which fails on a subtest whose fingerprint is 0. An empty
subtest name counts as none. -/
def computeTestID (fingerprint64 : String → UInt64) (name : String) (subPtr : Option String) :
    Option TestID :=
  let t := fingerprint64 name
  match subPtr with
  | none => some ⟨t, 0⟩
  | some sub =>
    if sub = "" then some ⟨t, 0⟩
    else if fingerprint64 sub = 0 then none
    else some ⟨t, fingerprint64 sub⟩

end WptFyi.Cache
