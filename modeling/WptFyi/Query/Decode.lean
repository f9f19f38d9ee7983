import WptFyi.Lib.Json
import WptFyi.Query.Atoms
import WptFyi.Shared.ProductSpecs

/-!
# Decoding a search request (`api/query/atoms.go`, `shared/params.go`)

Every atom has an `UnmarshalJSON` of its own, and `unmarshalQ` tries them in order
until one succeeds. Some read their key through a `map[string]*json.RawMessage`:
there a `null` is a nil pointer, which they dereference.

An attempt ends in one of three ways, an `Outcome`: with a value, with an error that lets the next
attempt go on, or by dereferencing nil, after which nothing goes on. The errors carry their texts,
though `unmarshalQ` throws all of them away and returns one of its own. An object may have the keys
of several atoms; the first in the order of the attempts that decodes is the one.

| source | here |
|---|---|
| `TestNamePattern`, `SubtestNamePattern`, `TestPath` | `unmarshalEntry`, the key and the messages |
| `AbstractLink`, `AbstractTestLabel`, `TestWebFeatureAtom` | the same |
| `MetadataQuality`, `AbstractTriaged` | `unmarshalEntry`, then the value |
| `TestStatusEq`, `TestStatusNeq` | `unmarshalStatus` with the field's decoder |
| `AbstractNot` | `unmarshalNot` |
| `AbstractOr` to `AbstractSequential` | `unmarshalArgs` with the key and the message |
| `AbstractCount`, `AbstractLessThan`, `AbstractMoreThan` | `unmarshalCount` with the key |
-/

namespace WptFyi.Query

open Lib Lib.Json Lib.GoStrings Shared

/-- Why decoding fails: an error of `encoding/json`, or one with a text. -/
inductive DecodeError where
  | json
  | message (text : String)

/-- What decoding does: it returns a value or an error, or it dereferences nil. -/
inductive Outcome (α : Type) where
  | value (a : α)
  | error (err : DecodeError)
  | nilDeref

namespace Outcome

variable {α β : Type}

/-- A result of `json.Unmarshal`. -/
def ofJson : Option α → Outcome α
  | some a => .value a
  | none => .error .json

protected def bind (x : Outcome α) (f : α → Outcome β) : Outcome β :=
  match x with
  | .value a => f a
  | .error err => .error err
  | .nilDeref => .nilDeref

instance : Monad Outcome where
  pure := .value
  bind := Outcome.bind

end Outcome

/-! ## The atoms

One definition for each type that implements `UnmarshalJSON`. Most read one key and differ in its
name and in the texts of their errors. -/

/-- A string read through the pointer of a map entry: a `null` under the key is a
nil pointer. -/
def unmarshalEntry (key missing notString : String) (b : Json) : Outcome String := do
  let data ← Outcome.ofJson b.members
  match lastMember key data with
  | none => .error (.message missing)
  | some .null => .nilDeref
  | some (.string s) => .value s
  | some _ => .error (.message notString)

/-- `TestNamePattern.UnmarshalJSON`. -/
def unmarshalTestNamePattern (b : Json) : Outcome AbstractQuery := do
  let pattern ← unmarshalEntry "pattern" "missing test name pattern property: \"pattern\""
    "test name pattern property \"pattern\" is not a string" b
  return .testNamePattern pattern

/-- `SubtestNamePattern.UnmarshalJSON`. -/
def unmarshalSubtestNamePattern (b : Json) : Outcome AbstractQuery := do
  let subtest ← unmarshalEntry "subtest" "missing subtest name pattern property: \"subtest\""
    "subtest name property \"subtest\" is not a string" b
  return .subtestNamePattern subtest

/-- `TestPath.UnmarshalJSON`. -/
def unmarshalTestPath (b : Json) : Outcome AbstractQuery := do
  let path ← unmarshalEntry "path" "missing test name path property: \"path\""
    "missing test name path property \"path\" is not a string" b
  return .testPath path

/-- `AbstractLink.UnmarshalJSON`. -/
def unmarshalLink (b : Json) : Outcome AbstractQuery := do
  let pattern ← unmarshalEntry "link" "missing Link pattern property: \"link\""
    "missing link pattern property \"pattern\" is not a string" b
  return .abstractLink pattern

/-- `AbstractTestLabel.UnmarshalJSON`. -/
def unmarshalTestLabel (b : Json) : Outcome AbstractQuery := do
  let label ← unmarshalEntry "label" "missing label pattern property: \"label\""
    "property\"label\" is not a string" b
  return .abstractTestLabel label

/-- `TestWebFeatureAtom.UnmarshalJSON`. -/
def unmarshalTestWebFeature (b : Json) : Outcome AbstractQuery := do
  let webFeature ← unmarshalEntry "feature" "missing web feature pattern property: \"feature\""
    "property\"feature\" is not a string" b
  return .abstractTestWebFeature webFeature

/-- `MetadataQualityFromString`, none beside an error. -/
def metadataQualityFromString (quality : String) : Option MetadataQuality :=
  [("different", MetadataQuality.different), ("tentative", .tentative),
    ("optional", .optional)].lookup quality

/-- `MetadataQuality.UnmarshalJSON`. -/
def unmarshalMetadataQuality (b : Json) : Outcome AbstractQuery := do
  let quality ← unmarshalEntry "is" "missing \"is\" pattern property: \"is\""
    "\"is\" property is not a string" b
  match metadataQualityFromString quality with
  | some q => .value (.metadataQuality q)
  | none => .error (.message ("unknown \"is\" quality \"" ++ quality ++ "\""))

/-- The tables of upper-case and lower-case runes that decoding reads. -/
structure CaseTables where
  lower : LowerCase
  upper : UpperCase

section Decoding

variable (m : CaseTables)

/-- A product that may be left out. -/
def optionalProduct (text : String) : Outcome (Option ProductSpec) :=
  if text = "" then .value none
  else match parseProductSpec m.lower text with
    | (p, none) => .value (some p)
    | (_, some err) => .error (.message err)

/-- `AbstractTriaged.UnmarshalJSON`. -/
def unmarshalTriaged (b : Json) : Outcome AbstractQuery := do
  let browserName ← unmarshalEntry "triaged" "missing Triaged property: \"triaged\""
    "triaged property \"triaged\" is not a string" b
  let product ← optionalProduct m browserName
  return .abstractTriaged product

/-- The status with a name, in any letter case. -/
def readStatus (name : String) : Option TestStatus :=
  let statusStr := m.upper.toUpper name
  let status := TestStatus.testStatusValueFromString statusStr
  if statusStr = TestStatus.toName status then some status else none

/-- The body of `UnmarshalJSON` of `TestStatusEq` and `TestStatusNeq`, which differ
in the type of the field `status` and in the atom. -/
def unmarshalStatus (statusField : List (String × Json) → Option String)
    (missing : String) (shown : String → String)
    (atom : Option ProductSpec → TestStatus → AbstractQuery) (b : Json) :
    Outcome AbstractQuery := do
  let data ← Outcome.ofJson b.members
  let browserName ← Outcome.ofJson (stringField "browser_name" data)
  let product ← Outcome.ofJson (stringField "product" data)
  let name ← Outcome.ofJson (statusField data)
  if name = "" then .error (.message missing)
  else
    let product ← optionalProduct m
      (if product = "" ∧ browserName ≠ "" then browserName else product)
    match readStatus m name with
    | some status => .value (atom product status)
    | none => .error (.message ("invalid test status: \"" ++ shown name ++ "\""))

/-- `TestStatusEq.UnmarshalJSON`. -/
def unmarshalTestStatusEq : Json → Outcome AbstractQuery :=
  unmarshalStatus m (stringField "status") "missing test status constraint property: \"status\"" id
    .testStatusEq

/-- Decoding into the struct with the one field `not`. -/
def decodeNot (not : String) (value : Json) : Option String := do
  let data ← value.members
  (fieldValues "not" data).foldlM decodeString not

/-- `TestStatusNeq.UnmarshalJSON`. The error shows the struct. -/
def unmarshalTestStatusNeq : Json → Outcome AbstractQuery :=
  unmarshalStatus m (fun data => (fieldValues "status" data).foldlM decodeNot "")
    "missing test status constraint property: \"status.not\""
    (fun name => "\x7b" ++ name ++ "\x7d") .testStatusNeq

/-! ## Queries with arguments

The arguments are kept as raw messages and decoded one by one; the first that fails is the error of
the whole. -/

/-- A raw message, with what `unmarshalQ` does with it and with its elements. -/
structure Message where
  json : Json
  query : Outcome AbstractQuery
  /-- none unless the message is a slice of messages -/
  elems : Option (List (Outcome AbstractQuery))

/-- `AbstractNot.UnmarshalJSON`. -/
def unmarshalNot (data : Option (List (String × Message))) : Outcome AbstractQuery := do
  let data ← Outcome.ofJson data
  match rawField "not" data with
  | none => .error (.message "missing negation property: \"not\"")
  | some message => do
    let q ← message.query
    return .abstractNot q

/-- The loop over the arguments: it ends at the first that does not decode. -/
def collectArgs : List (Outcome AbstractQuery) → Outcome (List AbstractQuery)
  | [] => .value []
  | arg :: args => do
    let q ← arg
    let qs ← collectArgs args
    return q :: qs

/-- The body of `UnmarshalJSON` of the queries with a list of arguments, which
differ in the key, the message and the atom. -/
def unmarshalArgs (key missing : String) (atom : List AbstractQuery → AbstractQuery)
    (data : Option (List (String × Message))) : Outcome AbstractQuery := do
  let data ← Outcome.ofJson data
  let args ← Outcome.ofJson
    ((fieldValues key data).foldlM (fun _ message => message.elems) [])
  if args = [] then .error (.message missing)
  else do
    let qs ← collectArgs args
    return atom qs

def unmarshalOr := unmarshalArgs "or" "missing disjunction property: \"or\"" .abstractOr
def unmarshalAnd := unmarshalArgs "and" "missing conjunction property: \"and\"" .abstractAnd
def unmarshalExists :=
  unmarshalArgs "exists" "missing conjunction property: \"exists\"" .abstractExists
def unmarshalAll := unmarshalArgs "all" "missing conjunction property: \"all\"" .abstractAll
def unmarshalNone := unmarshalArgs "none" "missing conjunction property: \"none\"" .abstractNone
def unmarshalSequential :=
  unmarshalArgs "sequential" "missing conjunction property: \"sequential\"" .abstractSequential

/-- The body of `UnmarshalJSON` of `AbstractCount` and its two variants, which
differ in the key and the atom. -/
def unmarshalCountOf (key : String) (atom : Int → AbstractQuery → AbstractQuery)
    (data : Option (List (String × Message))) : Outcome AbstractQuery := do
  let data ← Outcome.ofJson data
  match rawField key data, rawField "where" data with
  | none, _ => .error (.message ("missing " ++ key ++ " property: \"" ++ key ++ "\""))
  | some _, none => .error (.message "missing count property: \"where\"")
  | some count, some body => do
    let count ← Outcome.ofJson (decodeInt 0 count.json)
    let q ← body.query
    return atom count q

def unmarshalCount := unmarshalCountOf "count" .abstractCount
def unmarshalLessThan := unmarshalCountOf "lessThan" .abstractLessThan
def unmarshalMoreThan := unmarshalCountOf "moreThan" .abstractMoreThan

/-! ## Trees

All types are tried in turn, and the first that reads the message is taken. The recursion goes down
the messages. -/

/-- The first decoder that does not return an error decides. -/
def firstDecoded : List (Outcome AbstractQuery) → Outcome AbstractQuery
  | [] =>
    .error (.message ("Failed to parse query fragment as any of the existing search atoms in " ++
      "wpt.fyi/api/query/README.md"))
  | .error _ :: rest => firstDecoded rest
  | outcome :: _ => outcome

/-- The attempts of `unmarshalQ`, in order. -/
def attempts (b : Json) (data : Option (List (String × Message))) : List (Outcome AbstractQuery) :=
  [unmarshalTestNamePattern b, unmarshalSubtestNamePattern b, unmarshalTestPath b,
    unmarshalTestStatusEq m b, unmarshalTestStatusNeq m b,
    unmarshalNot data, unmarshalOr data, unmarshalAnd data, unmarshalExists data,
    unmarshalAll data, unmarshalNone data, unmarshalSequential data,
    unmarshalCount data, unmarshalLessThan data, unmarshalMoreThan data,
    unmarshalLink b, unmarshalMetadataQuality b, unmarshalTriaged m b,
    unmarshalTestLabel b, unmarshalTestWebFeature b]

mutual

/-- `unmarshalQ`. -/
def unmarshalQ : Json → Outcome AbstractQuery
  | .null => firstDecoded (attempts m .null (some []))
  | .object members => firstDecoded (attempts m (.object members) (some (messages members)))
  | b => firstDecoded (attempts m b none)

/-- The members of an object as raw messages. -/
def messages : List (String × Json) → List (String × Message)
  | [] => []
  | (key, value) :: members =>
    (key, { json := value, query := unmarshalQ value, elems := sliceQueries value }) ::
      messages members

/-- What `unmarshalQ` does with the elements of a slice. -/
def sliceQueries : Json → Option (List (Outcome AbstractQuery))
  | .null => some []
  | .array elems => some (elemQueries elems)
  | _ => none

def elemQueries : List Json → List (Outcome AbstractQuery)
  | [] => []
  | elem :: elems => unmarshalQ elem :: elemQueries elems

end

/-- `RunQuery.UnmarshalJSON` of a value: the run IDs and the tree. -/
def unmarshalRunQuery (b : Json) : Outcome (List Int × AbstractQuery) := do
  let data ← Outcome.ofJson b.members
  let runIDs ← Outcome.ofJson (intSliceField "run_ids" data)
  if runIDs = [] then .error (.message "missing run query property: \"run_ids\"")
  else match rawField "query" data with
    | none => .value (runIDs, .trueQ)
    | some query => do
      let q ← unmarshalQ m query
      return (runIDs, q)

/-- `RunQuery.UnmarshalJSON` of a request body. -/
def runQueryUnmarshalJSON (body : List UInt8) : Outcome (List Int × AbstractQuery) := do
  let b ← Outcome.ofJson (Json.ofBytes body)
  unmarshalRunQuery m b

end Decoding

/-- `ExtractRunIDsBodyParam` of a value; `body` is the text its error shows. -/
def extractRunIDs (body : String) (b : Json) : Outcome (List Int) := do
  let data ← Outcome.ofJson b.members
  match lastMember "run_ids" data with
  | none => .error (.message ("JSON request body is missing \"run_ids\" key; body: " ++ body))
  | some .null => .nilDeref
  | some msg => Outcome.ofJson ((decodeIntSlice {} msg).map IntSlice.toList)

/-- `ExtractRunIDsBodyParam` of a request body. -/
def extractRunIDsBodyParam (body : List UInt8) : Outcome (List Int) := do
  let b ← Outcome.ofJson (Json.ofBytes body)
  extractRunIDs (String.ofList (runesFrom 0 (body.map UInt8.toNat))) b

end WptFyi.Query
