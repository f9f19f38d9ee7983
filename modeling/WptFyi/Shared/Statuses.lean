import Mathlib

/-!
# Test statuses (`shared/statuses.go`)

`TestStatus` is an `int64` in the source with eleven named values; the index
stores it as a `ResultID`. A report's status strings go through
`testStatusValueFromString`, which maps everything it does not know to the
default, `UNKNOWN`. So a status that a report spells wrong is the status of a row that
is absent, and the name `MISSING` is a second one for it.
-/

namespace WptFyi.Shared

/-- A test result status: the source's `int64`, so a value outside the named
ones can be written down. -/
abbrev TestStatus := Int

namespace TestStatus

def unknown : TestStatus := 0
def pass : TestStatus := 1
def ok : TestStatus := 2
def error : TestStatus := 3
def timeout : TestStatus := 4
def notRun : TestStatus := 5
def fail : TestStatus := 6
def crash : TestStatus := 7
def skip : TestStatus := 8
def assert : TestStatus := 9
def preconditionFailed : TestStatus := 10

/-- The value used when a status string cannot be interpreted. -/
def default : TestStatus := unknown

/-- `testStatusNames`, the string of each named status. -/
def testStatusNames : List (TestStatus × String) :=
  [(unknown, "UNKNOWN"), (pass, "PASS"), (ok, "OK"), (error, "ERROR"), (timeout, "TIMEOUT"),
    (notRun, "NOTRUN"), (fail, "FAIL"), (crash, "CRASH"), (skip, "SKIP"), (assert, "ASSERT"),
    (preconditionFailed, "PRECONDITION_FAILED")]

/-- `testStatusValues`: the names above, and `MISSING` for `UNKNOWN`. -/
def testStatusValues : List (String × TestStatus) :=
  ("MISSING", unknown) :: testStatusNames.map Prod.swap

/-- The status a name stands for, `default` when there is none. -/
def testStatusValueFromString (str : String) : TestStatus :=
  (testStatusValues.lookup str).getD default

/-- The name of a status, that of `default` when it has none. -/
def toName (s : TestStatus) : String :=
  (testStatusNames.lookup s).getD "UNKNOWN"

def isPassOrOK (s : TestStatus) : Bool := s == ok || s == pass

/-- Statuses used for the harness-level result. Only `OK` counts, although the
source's comment also names `ERROR`. -/
def isHarnessStatus (s : TestStatus) : Bool := s == ok

def isPass (s : TestStatus) : Bool := s == pass

/-- A harness status is known. -/
theorem ne_unknown_of_isHarnessStatus {s : TestStatus} (h : isHarnessStatus s = true) :
    s ≠ unknown := by
  rintro rfl
  exact absurd h (by decide)

/-- Every named status is read back from its own name. -/
theorem testStatusValueFromString_toName :
    ∀ p ∈ testStatusNames, testStatusValueFromString (toName p.1) = p.1 := by
  decide

end TestStatus

end WptFyi.Shared
