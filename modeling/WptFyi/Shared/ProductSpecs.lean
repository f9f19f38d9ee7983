import WptFyi.Lib.RangeOrder
import WptFyi.Shared.Models

/-!
# Parsing and printing product specs (`shared/params.go`, `shared/product_spec.go`)

A spec reads `browser-version-os-version[label,label]@sha`, where everything but
the browser is optional. A version may have an `@main` of its own, so the first
`@` that is not followed by `main` is the one before the SHA.

The functions of the source return what they have so far beside an error, and some callers use it;
so do the definitions here. Regular expressions are written as the functions that they are: none of
them has more than one way to match at a place.

- `parseProductSpec`: like the source it returns what it has so far together
  with an error;
- `parseProduct`, `parseVersion`, `parseSHA`: its parts;
- `ProductSpec.string`: the spec printed again.
-/

namespace WptFyi.Shared

open Lib Lib.GoStrings

/-! ## Browsers and SHAs -/

/-- The browsers shown by default. -/
def defaultBrowsers : List String := ["chrome", "edge", "firefox", "safari"]

/-- The other known browsers. -/
def extraBrowsers : List String :=
  ["android_webview", "blitz", "chrome_android", "chrome_ios", "chromium", "deno", "epiphany",
    "firefox_android", "flow", "ladybird", "node.js", "servo", "uc", "wktr", "webkitgtk",
    "wpewebkit"]

/-- `IsStableBrowserName`. -/
def isStableBrowserName (name : String) : Bool :=
  decide (name ∈ defaultBrowsers ++ extraBrowsers)

/-- `strings.TrimSuffix(s, suffix)`. -/
def trimSuffix (s suffix : String) : String :=
  if hasSuffix s suffix then String.ofList (s.toList.take (s.toList.length - suffix.toList.length))
  else s

theorem trimSuffix_append (s suffix : String) : trimSuffix (s ++ suffix) suffix = s := by
  have hsuffix : hasSuffix (s ++ suffix) suffix = true := by
    rw [hasSuffix_iff, String.toList_append]
    exact List.suffix_append _ _
  rw [trimSuffix, if_pos hsuffix, String.toList_append, List.length_append,
    Nat.add_sub_cancel, List.take_left, String.ofList_toList]

/-- `IsBrowserName`. -/
def isBrowserName (name : String) : Bool := isStableBrowserName (trimSuffix name "-experimental")

/-- A hexadecimal digit of either case. -/
def isHexDigit (c : Char) : Bool :=
  c.isDigit || ('a' ≤ c && c ≤ 'f') || ('A' ≤ c && c ≤ 'F')

/-- `SHARegex`: 7 to 40 hexadecimal digits. -/
def matchesSHARegex (s : String) : Bool :=
  s.toList.all isHexDigit && decide (7 ≤ s.toList.length) && decide (s.toList.length ≤ 40)

/-- `ParseSHA`: `latest` by default, and beside an error. -/
def parseSHA (shaParam : String) : String × Option String :=
  if shaParam = "" ∨ shaParam = "latest" then ("latest", none)
  else if matchesSHARegex shaParam then (shaParam, none)
  else ("latest", some ("invalid sha param value: " ++ shaParam))

/-! ## Versions -/

/-- `Version`. -/
structure Version where
  major : Int
  minor : Option Int
  build : Option Int
  revision : Option Int
  channel : String
deriving DecidableEq

/-- The value of decimal digits. -/
def digitsValue (cs : List Char) : Nat := cs.foldl (fun n c => 10 * n + (c.toNat - '0'.toNat)) 0

/-- `strconv.ParseInt(s, 10, 0)`: an optional sign, digits, 64 bits. -/
def parseInt (s : String) : Option Int :=
  let (negative, digits) := match s.toList with
    | '-' :: cs => (true, cs)
    | '+' :: cs => (false, cs)
    | cs => (false, cs)
  if digits = [] ∨ !digits.all Char.isDigit then none
  else
    let value : Int := if negative then -digitsValue digits else digitsValue digits
    if -2 ^ 63 ≤ value ∧ value < 2 ^ 63 then some value else none

/-- The `ffSuffix` match of a version: `a` or `b` and digits, at the end of a
line, with the length of the part before it. -/
def ffSuffix (version : List Char) : Option (Nat × List Char) :=
  let digits := (version.reverse.takeWhile Char.isDigit).reverse
  let rest := version.take (version.length - digits.length)
  match digits, rest.getLast? with
  | [], _ => none
  | _, none => none
  | _, some c =>
    if (c = 'a' ∨ c = 'b') ∧ '\n' ∉ rest then some (rest.length - 1, c :: digits) else none

/-- The numbers of a version. -/
def parseNumbers (version : String) (channel : String) : Option Version :=
  let pieces := split version '.'
  if 4 < pieces.length then none
  else match pieces.mapM parseInt with
    | some (major :: numbers) => some
        { major, minor := numbers[0]?, build := numbers[1]?, revision := numbers[2]?, channel }
    | _ => none

/-- `ParseVersion`: a channel after a space, or the `a1` suffix of Firefox. -/
def parseVersion (version : String) : Option Version :=
  let cut : Option (String × String) := match split version ' ' with
    | [version, channel] => some (version, " " ++ channel)
    | [version] => some (version, "")
    | _ => none
  cut.bind fun (version, channel) =>
    match ffSuffix version.toList with
    | some (n, suffix) =>
      parseNumbers (String.ofList (version.toList.take n)) (String.ofList suffix)
    | none => parseNumbers version channel

/-! ## Products -/

section Parsing

variable (m : LowerCase)

/-- `ParseProduct`: what it has when it fails is returned too. -/
def parseProduct (product : String) : Product × Option String :=
  let pieces := split product '-'
  if 4 < pieces.length then ({ browserName := "" }, some ("invalid product: " ++ product))
  else
    let result : Product := { browserName := m.toLower (pieces.getD 0 "") }
    if !isBrowserName result.browserName then
      (result, some ("invalid browser name: " ++ result.browserName))
    else match pieces with
      | [_, version] =>
        if (parseVersion version).isNone then
          (result, some ("invalid browser version: " ++ version))
        else ({ result with browserVersion := version }, none)
      | [_, version, os] =>
        if (parseVersion version).isNone then
          (result, some ("invalid browser version: " ++ version))
        else ({ result with browserVersion := version, osName := os }, none)
      | [_, version, os, osVersion] =>
        if (parseVersion version).isNone then
          (result, some ("invalid browser version: " ++ version))
        else if (parseVersion osVersion).isNone then
          ({ result with browserVersion := version, osName := os },
            some ("invalid OS version: " ++ osVersion))
        else ({ result with browserVersion := version, osName := os, osVersion }, none)
      | _ => (result, none)

/-! ## Product specs -/

/-- The position of the first `@` that `main` does not follow. -/
def posFirstAtNoMain : List Char → Option Nat
  | [] => none
  | c :: cs =>
    if c = '@' ∧ ¬ "main".toList <+: cs then some 0 else (posFirstAtNoMain cs).map (· + 1)

/-- The position of the first `@main`. -/
def posFirstAtMain : List Char → Option Nat
  | [] => none
  | c :: cs => if "@main".toList <+: c :: cs then some 0 else (posFirstAtMain cs).map (· + 1)

/-- `splitAtNonMainAt`. -/
def splitAtNonMainAt (stringInput : String) : List String :=
  let cs := stringInput.toList
  if !contains stringInput "@main" then split stringInput '@'
  else if cs.count '@' = 1 then [stringInput]
  else match posFirstAtNoMain cs, posFirstAtMain cs with
    | some noMain, some main =>
      if main > noMain then split stringInput '@'
      else String.ofList (cs.take noMain) :: split (String.ofList (cs.drop (noMain + 1))) '@'
    | _, _ => split stringInput '@'

/-- The labels after the bracket, up to the bracket that closes them. -/
def parseLabels (labels : String) : Option (Finset String) :=
  let cs := labels.toList
  if labels = "" then none
  else if cs.getLast? ≠ some ']' ∨ cs.idxOf ']' < cs.length - 1 then none
  else some ((split (String.ofList cs.dropLast) ',').filter (· ≠ "")).toFinset

/-- The last step of `ParseProductSpec`. -/
def parseNamed (productSpec : ProductSpec) (name : String) : ProductSpec × Option String :=
  ({ productSpec with toProduct := (parseProduct m name).1 }, (parseProduct m name).2)

/-- `ParseProductSpec` after the cut at the SHA: the labels, then the product. -/
def parseLabelled (errMsg : String) (productSpec : ProductSpec) (name : String) :
    ProductSpec × Option String :=
  match split name '[' with
  | [name, labels] =>
    match parseLabels labels with
    | none => (productSpec, some errMsg)
    | some labels => parseNamed m { productSpec with labels } name
  | [name] => parseNamed m productSpec name
  | _ => (productSpec, some errMsg)

/-- `ParseProductSpec`. -/
def parseProductSpec (spec : String) : ProductSpec × Option String :=
  let errMsg := "invalid product spec: " ++ spec
  let productSpec : ProductSpec := { browserName := "", revision := "latest" }
  match splitAtNonMainAt spec with
  | [name, sha] =>
    match parseSHA sha with
    | (revision, some _) => ({ productSpec with revision }, some errMsg)
    | (revision, none) => parseLabelled m errMsg { productSpec with revision } name
  | [name] => parseLabelled m errMsg productSpec name
  | _ => (productSpec, some errMsg)

end Parsing

/-! ## Printing -/

/-- `Product.String`: the OS version goes with the OS name. -/
def Product.string (p : Product) : String :=
  let s := p.browserName
  let s := if p.browserVersion ≠ "" then s ++ "-" ++ p.browserVersion else s
  if p.osName ≠ "" then
    let s := s ++ "-" ++ p.osName
    if p.osVersion ≠ "" then s ++ "-" ++ p.osVersion else s
  else s

/-- The labels in order, separated by commas. -/
def labelText (labels : Finset String) : String :=
  join (sortedOrder id Function.injective_id labels).1 ','

/-- `ProductSpec.String`. -/
def ProductSpec.string (p : ProductSpec) : String :=
  let s := p.toProduct.string
  let s := match p.labels with
    | none => s
    | some labels =>
      let labels := labels.erase ""
      if 0 < labels.card then s ++ "[" ++ labelText labels ++ "]" else s
  if isLatest p.revision then s else s ++ "@" ++ p.revision

end WptFyi.Shared
