import WptFyi.Lib.Base64
import WptFyi.Lib.GoTime
import WptFyi.Lib.JsonText
import WptFyi.Lib.GoMap
import WptFyi.Shared.AlignedRuns
import WptFyi.Shared.ProductsParam

/-!
# Filters of test runs (`shared/test_run_filter.go`, `shared/params.go`)

A filter is read from the parameters of a URL. It is written in two ways: as parameters
again, and as the token of a page, which is its JSON in base64.

The functions of `params.go` are kept apart as in the source, each with its defaults, its bounds and
its errors, since what a filter can contain is what they let through. The JSON follows the rules of
`encoding/json` for the field types: a member that is empty is left out, a set of labels is an array
in the order of a map, a field behind a pointer is nil for `null`, and an element of a slice is
decoded into what the array behind it held, which shows where a token has a member twice. A product
goes through its text, as `ProductSpec` has methods of its own.

- `parseTestRunFilterParams`: the parameters, or the token among them;
- `marshalJSON`, `unmarshalJSON`: the JSON of a filter;
- `TestRunFilter.toQuery`, `TestRunFilter.token`: the two ways to write it.

Parameters are Unicode texts; a value with other bytes is left out. The order in which Go ranges
over the labels is a parameter of both ways to write a filter.
-/

namespace WptFyi.Filters

open Lib Lib.GoStrings Shared

/-- `url.Values`. -/
abbrev Values := GoMap String (List String)

namespace Values

/-- The values of a key, none where it is missing. -/
def all (v : Values) (key : String) : List String := (v.lookup key).getD []

/-- `Get`: the first value, empty where there is none. -/
def get (v : Values) (key : String) : String := (v.all key).headD ""

def add (v : Values) (key value : String) : Values := v.insert key (v.all key ++ [value])

def set (v : Values) (key value : String) : Values := v.insert key [value]

end Values

/-- `TestRunFilter`. -/
structure TestRunFilter where
  shas : List String := []
  labels : Finset String := ∅
  aligned : Option Bool := none
  fromTime : Option GoTime := none
  toTime : Option GoTime := none
  maxCount : Option Int := none
  offset : Option Int := none
  products : List ProductSpec := []
  view : Option String := none

/-- What is wrong with parameters: a message of the code, or the value that a function of
the standard library refused. -/
inductive ParamError where
  | message (text : String)
  | atoi (value : String)
  | parseBool (value : String)
  | parseTime (value : String)
  | pageToken (token : String)
deriving DecidableEq

/-! ## Single parameters -/

/-- `ParseRepeatedParam`. -/
def parseRepeatedParam (v : Values) (singular plural : String) : List String :=
  parseRepeatedParamValues (v.all singular) (v.get plural)

/-- The loop of `ParseSHAParam`. -/
def parseSHAs : List String → Except ParamError (List String)
  | [] => .ok []
  | sha :: shas =>
    match parseSHA sha with
    | (_, some err) => .error (.message err)
    | (sha, none) => (parseSHAs shas).map (sha :: ·)

def parseSHAParam (v : Values) : Except ParamError (List String) :=
  parseSHAs (parseRepeatedParam v "sha" "shas")

def parseLabelsParam (v : Values) : List String := parseRepeatedParam v "label" "labels"

/-- `GetUserLabel`. -/
def getUserLabel (username : String) : String := "user:" ++ username

/-- The labels, with one for the user. -/
def parseLabelsAndUser (v : Values) : Finset String :=
  let labels := (parseLabelsParam v).toFinset
  if v.get "user" ≠ "" then insert (getUserLabel (v.get "user")) labels else labels

/-- `strconv.ParseBool`. -/
def parseBool (s : String) : Option Bool :=
  if s ∈ ["1", "t", "T", "TRUE", "true", "True"] then some true
  else if s ∈ ["0", "f", "F", "FALSE", "false", "False"] then some false
  else none

/-- `ParseBooleanParam`: true if it is there without a value. -/
def parseBooleanParam (v : Values) (name : String) : Except ParamError (Option Bool) :=
  if name ∉ v then .ok none
  else if v.get name = "" then .ok (some true)
  else match parseBool (v.get name) with
    | some b => .ok (some b)
    | none => .error (.parseBool (v.get name))

/-- `ParseAlignedParam`: `complete` is its old name. -/
def parseAlignedParam (v : Values) : Except ParamError (Option Bool) :=
  match parseBooleanParam v "aligned" with
  | .ok none => parseBooleanParam v "complete"
  | aligned => aligned

/-- The loop of `ParseBrowsersParam`. -/
def checkBrowsers : List String → Except ParamError (List String)
  | [] => .ok []
  | b :: browsers =>
    if !isBrowserName b then .error (.message ("invalid browser param value " ++ b))
    else (checkBrowsers browsers).map (b :: ·)

def parseBrowsersParam (v : Values) : Except ParamError (List String) :=
  checkBrowsers (parseRepeatedParam v "browser" "browsers")

/-- The spec of a browser alone. -/
def browserSpec (browser : String) : ProductSpec := { browserName := browser }

/-- `strconv.Atoi` of a parameter that has a value. -/
def parseIntegerParam (v : Values) (name : String) : Except ParamError (Option Int) :=
  if v.get name = "" then .ok none
  else match parseInt (v.get name) with
    | some n => .ok (some n)
    | none => .error (.atoi (v.get name))

def maxCountMinValue : Int := 1

/-- `ParseMaxCountParam`. -/
def parseMaxCountParam (v : Values) : Except ParamError (Option Int) :=
  (parseIntegerParam v "max-count").map fun count => count.map fun count =>
    let count := if count < maxCountMinValue then maxCountMinValue else count
    if count > maxCountMaxValue then maxCountMaxValue else count

def parseOffsetParam (v : Values) : Except ParamError (Option Int) := parseIntegerParam v "offset"

/-- `ParseViewParam`: other views are no error. -/
def parseViewParam (v : Values) : Option String :=
  if v.get "view" = "subtest" ∨ v.get "view" = "interop" ∨ v.get "view" = "test" then
    some (v.get "view")
  else none

/-- `ParseDateTimeParam`: a value that is too short for a zone is read with as much of the
layout. -/
def parseDateTimeParam (v : Values) (name : String) : Except ParamError (Option GoTime) :=
  let param := v.get name
  if param = "" then .ok none
  else
    let format := if param.utf8ByteSize < GoTime.rfc3339.idxOf 'Z' then
      GoTime.rfc3339.take param.utf8ByteSize else GoTime.rfc3339
    match GoTime.parse format param.toList with
    | some t => .ok (some t)
    | none => .error (.parseTime param)

/-! ## Tokens

A token is the JSON of the filter in URL-safe base64. Go reads a member by its name whatever its
case, and one that is there twice is read twice, the second time over the first. -/

/-- A member that is left out where it is empty. -/
def member (key : String) (value : Option Json) : List (String × Json) :=
  (value.map fun value => (key, value)).toList

/-- An array of strings, none where it is empty. -/
def stringArray (strings : List String) : Option Json :=
  if strings = [] then none else some (.array (strings.map Json.string))

/-- `MarshalJSON` of a time that may be missing: none if RFC 3339 has no such time. -/
def marshalTime : Option GoTime → Option (Option Json)
  | none => some none
  | some t => t.formatStrict.map fun text => some (.string (String.ofList text))

namespace TestRunFilter

/-- `MarshalJSON`, for an order of the labels. -/
def marshalJSON (order : RangeOrder String) (filter : TestRunFilter) : Option Json := do
  let fromTime ← marshalTime filter.fromTime
  let toTime ← marshalTime filter.toTime
  return .object <|
    member "shas" (stringArray filter.shas) ++
    member "aligned" (filter.aligned.map Json.bool) ++
    member "from" fromTime ++
    member "to" toTime ++
    member "maxcount" (filter.maxCount.map fun n => .number (Json.intLiteral n)) ++
    member "offset" (filter.offset.map fun n => .number (Json.intLiteral n)) ++
    member "products" (stringArray (filter.products.map ProductSpec.string)) ++
    member "view" (filter.view.map Json.string) ++
    member "labels" (stringArray (order filter.labels).1)

/-- `Token`. -/
def token (order : RangeOrder String) (filter : TestRunFilter) : Option String :=
  (filter.marshalJSON order).map fun json => String.ofList (Base64.encode json.toBytes)

end TestRunFilter

/-- Decoding into a pointer: `null` makes it nil. -/
def decodePointer {α : Type} (decode : Json → Option α) : Json → Option (Option α)
  | .null => some none
  | value => (decode value).map some

/-- A field behind a pointer. -/
def pointerField {α : Type} (decode : Json → Option α) (name : String)
    (ms : List (String × Json)) : Option (Option α) :=
  (Json.fieldValues name ms).foldlM (fun _ value => decodePointer decode value) none

/-- A slice and what the array behind it holds. -/
structure DecodedSlice (α : Type) where
  backing : List α := []
  len : Nat := 0

/-- Decoding into a slice. An element is decoded into what the array held at its place. -/
def decodeSlice {α : Type} (decode : Option α → Json → Option α) (s : DecodedSlice α) :
    Json → Option (DecodedSlice α)
  | .null | .array [] => some {}
  | .array elems =>
    (elems.zipIdx.mapM fun entry : Json × Nat => decode s.backing[entry.2]? entry.1).map
      fun decoded => { backing := decoded ++ s.backing.drop decoded.length, len := decoded.length }
  | _ => none

/-- A field that is a slice. -/
def sliceField {α : Type} (decode : Option α → Json → Option α) (name : String)
    (ms : List (String × Json)) : Option (List α) :=
  ((Json.fieldValues name ms).foldlM (decodeSlice decode) {}).map fun s => s.backing.take s.len

def decodeElem (s : Option String) (value : Json) : Option String :=
  Json.decodeString (s.getD "") value

def decodeBool : Json → Option Bool
  | .bool b => some b
  | _ => none

/-- `Time.UnmarshalJSON`, for a literal that has no escapes. -/
def decodeTime : Json → Option GoTime
  | .string s => GoTime.parse GoTime.rfc3339 s.toList
  | _ => none

section Parsing

variable (m : LowerCase)

/-- The spec of a text, none where it is an error. -/
def acceptedSpec (s : String) : Option ProductSpec :=
  match parseProductSpec m s with
  | (product, none) => some product
  | (_, some _) => none

/-- `ProductSpec.UnmarshalJSON`. -/
def decodeProductSpec (value : Json) : Option ProductSpec :=
  (Json.decodeString "" value).bind (acceptedSpec m)

/-- `TestRunFilter.UnmarshalJSON`. -/
def unmarshalJSON (json : Json) : Option TestRunFilter := do
  let ms ← json.members
  let shas ← sliceField decodeElem "shas" ms
  let aligned ← pointerField decodeBool "aligned" ms
  let fromTime ← pointerField decodeTime "from" ms
  let toTime ← pointerField decodeTime "to" ms
  let maxCount ← pointerField (Json.decodeInt 0) "maxcount" ms
  let offset ← pointerField (Json.decodeInt 0) "offset" ms
  let products ← sliceField (fun _ value => decodeProductSpec m value) "products" ms
  let view ← pointerField (Json.decodeString "") "view" ms
  let labels ← sliceField decodeElem "labels" ms
  return { shas, labels := labels.toFinset, aligned, fromTime, toTime, maxCount, offset, products,
           view }

/-- `ParsePageToken`. -/
def parsePageToken (v : Values) : Except ParamError (Option TestRunFilter) :=
  let token := v.get "page"
  if token = "" then .ok none
  else match (Base64.decode token.toList).bind fun bytes =>
      (Json.ofBytes bytes).bind (unmarshalJSON m) with
    | some filter => .ok (some filter)
    | none => .error (.pageToken token)

/-! ## All parameters -/

/-- `ParseProductOrBrowserParams`. -/
def parseProductOrBrowserParams (v : Values) : Except ParamError (List ProductSpec) :=
  match parseProductsParam m (v.all "product") (v.get "products") with
  | .error err => .error (.message err)
  | .ok products =>
    (parseBrowsersParam v).map fun browsers => products.getD [] ++ browsers.map browserSpec

/-- `ParseTestRunFilterParams`. -/
def parseTestRunFilterParams (v : Values) : Except ParamError TestRunFilter := do
  match ← parsePageToken m v with
  | some page => return page
  | none =>
    let shas ← parseSHAParam v
    let labels := parseLabelsAndUser v
    let aligned ← parseAlignedParam v
    let products ← parseProductOrBrowserParams m v
    let maxCount ← parseMaxCountParam v
    let offset ← parseOffsetParam v
    let fromTime ← parseDateTimeParam v "from"
    let toTime ← parseDateTimeParam v "to"
    return { shas, labels, aligned, fromTime, toTime, maxCount, offset, products,
             view := parseViewParam v }

end Parsing

/-! ## Parameters again -/

/-- `EmptyOrLatest`. -/
def emptyOrLatest (shas : List String) : Bool :=
  match shas with
  | [] => true
  | [sha] => isLatest sha
  | _ => false

/-- Setting a parameter if there is something to set. -/
def Values.setSome (v : Values) (key : String) (value : Option String) : Values :=
  match value with
  | none => v
  | some value => v.set key value

/-- `ToQuery`, for an order of the labels. -/
def TestRunFilter.toQuery (order : RangeOrder String) (filter : TestRunFilter) : Values :=
  let q : Values := ∅
  let q := if !emptyOrLatest filter.shas then
    filter.shas.foldl (fun q sha => q.add "sha" sha) q else q
  let q := (order filter.labels).1.foldl (fun q label => q.add "label" label) q
  let q := filter.products.foldl (fun q p => q.add "product" p.string) q
  let q := q.setSome "aligned" (filter.aligned.map fun b => if b then "true" else "false")
  let q := q.setSome "max-count" (filter.maxCount.map fun n => toString n)
  let q := q.setSome "offset" (filter.offset.map fun n => toString n)
  let q := q.setSome "from" (filter.fromTime.map fun t => String.ofList (t.format false))
  let q := q.setSome "to" (filter.toTime.map fun t => String.ofList (t.format false))
  q.setSome "view" filter.view

end WptFyi.Filters
