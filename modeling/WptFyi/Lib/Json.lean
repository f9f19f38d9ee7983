import Mathlib

/-!
# JSON as Go's `encoding/json` reads it

Reading is in two stages, as in the package: a check of the whole text for syntax, after which
nothing can be wrong with it but its meaning, and the decoding of values into the fields of a type.
The first is the parser of this module, `Json.ofBytes`. The second is one function for each type of
field, because what the package does with a key that occurs twice, with `null` and with a value of
the wrong type depends on that type: a map keeps the last member, a struct field is decoded from one
member after the other into the same variable, and `null` leaves the variable alone.

Keys of a struct are matched without regard to case, with the two runes outside ASCII that fold into
it; keys of a map are not. An invalid encoding in a string is read as the replacement rune, and so
is a surrogate that has no partner.

A `json.RawMessage` holds the bytes of a value that passed the check; here it is
that value.

- `Json.ofBytes`: the value that bytes denote, none where the syntax check fails;
- `lastMember`, `fieldValues`: what a map entry and a struct field get from an
  object;
- `stringField`, `rawField`, `rawSliceField`, `intSliceField`: a field of a struct
  after all its occurrences;
- `Child`: the values below a value, for inductions over what a document nests.
-/

namespace WptFyi.Lib

/-- A JSON value. A number keeps its literal. -/
inductive Json where
  | null
  | bool (b : Bool)
  | number (literal : String)
  | string (s : String)
  | array (elems : List Json)
  | object (members : List (String × Json))

namespace Json

/-! ## Runes -/

/-- How many bytes a rune takes by its first byte, zero where none starts. -/
def runeWidth (lead : Nat) : Nat :=
  if lead < 0x80 then 1
  else if lead < 0xC2 then 0
  else if lead < 0xE0 then 2
  else if lead < 0xF0 then 3
  else if lead < 0xF5 then 4
  else 0

/-- The range of a rune's second byte. -/
def secondInRange (lead second : Nat) : Bool :=
  let low := if lead = 0xE0 then 0xA0 else if lead = 0xF0 then 0x90 else 0x80
  let high := if lead = 0xED then 0x9F else if lead = 0xF4 then 0x8F else 0xBF
  decide (low ≤ second ∧ second ≤ high)

/-- `utf8.DecodeRune`: the first rune and its width, the replacement rune and one
byte where the encoding is invalid. -/
def decodeRune (lead : Nat) (rest : List Nat) : Char × Nat :=
  let width := runeWidth lead
  let tail := rest.take (width - 1)
  if width = 1 then (Char.ofNat lead, 1)
  else if width = 0 ∨ tail.length + 1 < width ∨ !secondInRange lead (tail.headD 0) ∨
      !tail.all (fun b => decide (0x80 ≤ b ∧ b ≤ 0xBF)) then (Char.ofNat 0xFFFD, 1)
  else (Char.ofNat (tail.foldl (fun n b => 64 * n + b % 64) (lead % 2 ^ (7 - width))), width)

/-- The runes of bytes, after the first `skip` bytes. -/
def runesFrom : Nat → List Nat → List Char
  | _, [] => []
  | skip + 1, _ :: bs => runesFrom skip bs
  | 0, b :: bs =>
    let (rune, width) := decodeRune b bs
    rune :: runesFrom (width - 1) bs

/-! ## The syntax

The scanner as a recursive descent with fuel for the nesting. It works on the runes of the text, as
they come out of its bytes. -/

def skipSpace (cs : List Char) : List Char :=
  cs.dropWhile fun c => c = ' ' || c = '\t' || c = '\r' || c = '\n'

/-- The text after a given beginning. -/
def expect (word : List Char) (cs : List Char) : Option (List Char) :=
  if word.isPrefixOf cs then some (cs.drop word.length) else none

def hexDigit (c : Char) : Option Nat :=
  if '0' ≤ c && c ≤ '9' then some (c.toNat - '0'.toNat)
  else if 'a' ≤ c && c ≤ 'f' then some (c.toNat - 'a'.toNat + 10)
  else if 'A' ≤ c && c ≤ 'F' then some (c.toNat - 'A'.toNat + 10)
  else none

/-- The character of a one-letter escape. -/
def simpleEscape (c : Char) : Option Char :=
  [('"', '"'), ('\\', '\\'), ('/', '/'), ('b', Char.ofNat 8), ('f', Char.ofNat 12),
    ('n', '\n'), ('r', '\r'), ('t', '\t')].lookup c

/-- The rest of a string literal: characters and the code units of its `\u`
escapes, up to the closing quote. -/
def scanString : List Char → Option (List (Char ⊕ Nat) × List Char)
  | '"' :: cs => some ([], cs)
  | '\\' :: 'u' :: a :: b :: c :: d :: cs => do
    let unit := (← hexDigit a) * 4096 + (← hexDigit b) * 256 + (← hexDigit c) * 16 + (← hexDigit d)
    let (units, cs) ← scanString cs
    return (.inr unit :: units, cs)
  | '\\' :: e :: cs => do
    let c ← simpleEscape e
    let (units, cs) ← scanString cs
    return (.inl c :: units, cs)
  | c :: cs => do
    if c.toNat < 0x20 ∨ c = '\\' then none
    let (units, cs) ← scanString cs
    return (.inl c :: units, cs)
  | [] => none

/-- The characters of a string literal: two escapes that are a surrogate pair are
one character, a surrogate alone is the replacement rune. -/
def joinUnits : List (Char ⊕ Nat) → List Char
  | .inr high :: .inr low :: units =>
    if 0xD800 ≤ high ∧ high < 0xDC00 ∧ 0xDC00 ≤ low ∧ low < 0xE000 then
      Char.ofNat (0x10000 + (high - 0xD800) * 1024 + (low - 0xDC00)) :: joinUnits units
    else
      (if 0xD800 ≤ high ∧ high < 0xE000 then Char.ofNat 0xFFFD else Char.ofNat high) ::
        joinUnits (.inr low :: units)
  | .inr unit :: units =>
    (if 0xD800 ≤ unit ∧ unit < 0xE000 then Char.ofNat 0xFFFD else Char.ofNat unit) ::
      joinUnits units
  | .inl c :: units => c :: joinUnits units
  | [] => []

/-- A string literal after its opening quote. -/
def parseString (cs : List Char) : Option (String × List Char) :=
  (scanString cs).map fun (units, cs) => (String.ofList (joinUnits units), cs)

/-- At least one digit. -/
def scanDigits (cs : List Char) : Option (List Char × List Char) :=
  let (digits, cs) := cs.span Char.isDigit
  if digits = [] then none else some (digits, cs)

/-- A number literal: sign, integer without leading zeros, fraction, exponent. -/
def scanNumber (cs : List Char) : Option (List Char × List Char) := do
  let (sign, cs) := match cs with
    | '-' :: cs => (['-'], cs)
    | cs => ([], cs)
  let (integer, cs) ← match cs with
    | '0' :: cs => some (['0'], cs)
    | cs => scanDigits cs
  let (fraction, cs) ← match cs with
    | '.' :: cs => (scanDigits cs).map fun (digits, cs) => ('.' :: digits, cs)
    | cs => some ([], cs)
  let (exponent, cs) ← match cs with
    | e :: cs =>
      if e = 'e' ∨ e = 'E' then
        let (sign, cs) := match cs with
          | '+' :: cs => (['+'], cs)
          | '-' :: cs => (['-'], cs)
          | cs => ([], cs)
        (scanDigits cs).map fun (digits, cs) => (e :: sign ++ digits, cs)
      else some ([], e :: cs)
    | [] => some ([], [])
  return (sign ++ integer ++ fraction ++ exponent, cs)

/-- A value that is neither an array, nor an object, nor a string. -/
def parseScalar (cs : List Char) : Option (Json × List Char) :=
  match cs with
  | 'n' :: cs => (expect ['u', 'l', 'l'] cs).map fun cs => (.null, cs)
  | 't' :: cs => (expect ['r', 'u', 'e'] cs).map fun cs => (.bool true, cs)
  | 'f' :: cs => (expect ['a', 'l', 's', 'e'] cs).map fun cs => (.bool false, cs)
  | cs => (scanNumber cs).map fun (literal, cs) => (.number (String.ofList literal), cs)

mutual

/-- One value, with `depth` more arrays or objects allowed around each other. Each
call takes a character, so `fuel` only has to be their number. -/
def parseValue : Nat → Nat → List Char → Option (Json × List Char)
  | 0, _, _ => none
  | fuel + 1, depth, cs =>
    match skipSpace cs with
    | '{' :: cs =>
      if depth = 0 then none
      else match skipSpace cs with
        | '}' :: cs => some (.object [], cs)
        | cs => (parseMembers fuel (depth - 1) cs).map fun (members, cs) => (.object members, cs)
    | '[' :: cs =>
      if depth = 0 then none
      else match skipSpace cs with
        | ']' :: cs => some (.array [], cs)
        | cs => (parseElems fuel (depth - 1) cs).map fun (elems, cs) => (.array elems, cs)
    | '"' :: cs => (parseString cs).map fun (s, cs) => (.string s, cs)
    | cs => parseScalar cs

/-- The members of an object that is not empty, and its closing brace. -/
def parseMembers : Nat → Nat → List Char → Option (List (String × Json) × List Char)
  | 0, _, _ => none
  | fuel + 1, depth, cs => do
    let cs ← expect ['"'] (skipSpace cs)
    let (key, cs) ← parseString cs
    let cs ← expect [':'] (skipSpace cs)
    let (value, cs) ← parseValue fuel depth cs
    match skipSpace cs with
    | '}' :: cs => some ([(key, value)], cs)
    | ',' :: cs => (parseMembers fuel depth cs).map fun (members, cs) =>
      ((key, value) :: members, cs)
    | _ => none

/-- The elements of an array that is not empty, and its closing bracket. -/
def parseElems : Nat → Nat → List Char → Option (List Json × List Char)
  | 0, _, _ => none
  | fuel + 1, depth, cs => do
    let (value, cs) ← parseValue fuel depth cs
    match skipSpace cs with
    | ']' :: cs => some ([value], cs)
    | ',' :: cs => (parseElems fuel depth cs).map fun (elems, cs) => (value :: elems, cs)
    | _ => none

end

/-- The deepest nesting the syntax check accepts. -/
def maxNestingDepth : Nat := 10000

/-- The value that bytes denote. -/
def ofBytes (b : List UInt8) : Option Json := do
  let cs := runesFrom 0 (b.map UInt8.toNat)
  let (value, cs) ← parseValue (cs.length + 1) maxNestingDepth cs
  if (skipSpace cs).isEmpty then some value else none

/-! ## Objects -/

/-- The members a map or a struct is decoded from: `null` changes nothing, other
values are a type error. -/
def members : Json → Option (List (String × Json))
  | .null => some []
  | .object members => some members
  | _ => none

/-- A map's value for a key: the last one that is given. -/
def lastMember {α : Type} (key : String) (members : List (String × α)) : Option α :=
  ((members.filter fun member => member.1 = key).getLast?).map Prod.snd

/-- The simple case folding of a rune, as far as it leads into ASCII. -/
def foldRune (c : Char) : Char :=
  -- the long s and the Kelvin sign
  if c = Char.ofNat 0x17F then 's' else if c = Char.ofNat 0x212A then 'k' else c.toLower

/-- Whether a member's key means a field of a struct. -/
def foldsTo (key name : String) : Bool :=
  key.toList.map foldRune == name.toList.map foldRune

/-- The values a field is decoded from, in order. -/
def fieldValues {α : Type} (name : String) (members : List (String × α)) : List α :=
  (members.filter fun member => foldsTo member.1 name).map Prod.snd

/-! ## Values of a type

One function for each type of field, from what the variable holds to what it holds after one more
member. A `null` leaves it as it is, and a value of another type is an error. -/

/-- Decoding into a string: `null` leaves it as it is. -/
def decodeString (s : String) : Json → Option String
  | .null => some s
  | .string t => some t
  | _ => none

/-- The `int64` that a literal spells. -/
def int64Literal (literal : String) : Option Int :=
  let (negative, digits) := match literal.toList with
    | '-' :: cs => (true, cs)
    | cs => (false, cs)
  if digits = [] ∨ !digits.all Char.isDigit then none
  else
    let n : Int := (digits.foldl (fun n c => 10 * n + (c.toNat - '0'.toNat)) 0 : Nat)
    let n := if negative then -n else n
    if -2 ^ 63 ≤ n ∧ n < 2 ^ 63 then some n else none

/-- Decoding into an `int64`. -/
def decodeInt (n : Int) : Json → Option Int
  | .null => some n
  | .number literal => int64Literal literal
  | _ => none

/-- Decoding into a `[]json.RawMessage`. -/
def decodeRawSlice : Json → Option (List Json)
  | .null => some []
  | .array elems => some elems
  | _ => none

/-- A `[]int64` and what the array behind it holds. -/
structure IntSlice where
  backing : List Int := []
  len : Nat := 0

def IntSlice.toList (s : IntSlice) : List Int := s.backing.take s.len

/-- Decoding into a `[]int64`. An element that is `null` keeps what the array
behind the slice held at its place. -/
def decodeIntSlice (s : IntSlice) : Json → Option IntSlice
  | .null | .array [] => some {}
  | .array elems =>
    (elems.zipIdx.mapM fun (elem, i) =>
      decodeInt (s.backing.getD i 0) elem).map fun ns : List Int =>
      { backing := ns ++ s.backing.drop ns.length, len := ns.length }
  | _ => none

/-- A field of type `string`. -/
def stringField (name : String) (members : List (String × Json)) : Option String :=
  (fieldValues name members).foldlM decodeString ""

/-- A field of type `json.RawMessage`, none where it stays empty. -/
def rawField {α : Type} (name : String) (members : List (String × α)) : Option α :=
  (fieldValues name members).getLast?

/-- A field of type `[]json.RawMessage`. -/
def rawSliceField (name : String) (members : List (String × Json)) : Option (List Json) :=
  (fieldValues name members).foldlM (fun _ value => decodeRawSlice value) []

/-- A field of type `[]int64`. -/
def intSliceField (name : String) (members : List (String × Json)) : Option (List Int) :=
  ((fieldValues name members).foldlM decodeIntSlice {}).map IntSlice.toList

/-! ## Induction

A value that is reached through the fields or elements of another is smaller, so functions that go
down a tree of messages can be defined and proved by induction. -/

/-- A value in a member of an object, or in a list that is one. -/
inductive Child : Json → Json → Prop where
  | member {value : Json} {ms : List (String × Json)} (key : String) :
      (key, value) ∈ ms → Child value (.object ms)
  | elem {value : Json} {elems : List Json} {ms : List (String × Json)} (key : String) :
      (key, .array elems) ∈ ms → value ∈ elems → Child value (.object ms)

theorem Child.sizeOf_lt {value b : Json} (h : Child value b) : sizeOf value < sizeOf b := by
  cases h with
  | @member ms key hmem =>
    have hpair := List.sizeOf_lt_of_mem hmem
    simp only [object.sizeOf_spec, Prod.mk.sizeOf_spec] at hpair ⊢
    omega
  | @elem elems ms key hmem helem =>
    have hpair := List.sizeOf_lt_of_mem hmem
    have hvalue := List.sizeOf_lt_of_mem helem
    simp only [object.sizeOf_spec, array.sizeOf_spec, Prod.mk.sizeOf_spec] at hpair ⊢
    omega

/-- Induction over the values an object is decoded from. -/
theorem childInduction {motive : Json → Prop}
    (step : ∀ b, (∀ value, Child value b → motive value) → motive b) (b : Json) : motive b := by
  induction hn : sizeOf b using Nat.strong_induction_on generalizing b with
  | _ n ih =>
    subst hn
    exact step b fun value hvalue => ih _ hvalue.sizeOf_lt value rfl

theorem mem_of_lastMember {α : Type} {key : String} {ms : List (String × α)} {value : α}
    (h : lastMember key ms = some value) : (key, value) ∈ ms := by
  obtain ⟨member, hlast, rfl⟩ := Option.map_eq_some_iff.mp h
  have hmem := List.mem_of_getLast? hlast
  rw [List.mem_filter, decide_eq_true_iff] at hmem
  rw [← hmem.2]
  exact hmem.1

theorem mem_of_mem_fieldValues {α : Type} {name : String} {ms : List (String × α)} {value : α}
    (h : value ∈ fieldValues name ms) : ∃ key, (key, value) ∈ ms := by
  obtain ⟨member, hmem, rfl⟩ := List.mem_map.mp h
  exact ⟨member.1, (List.mem_filter.mp hmem).1⟩

theorem mem_of_rawField {α : Type} {name : String} {ms : List (String × α)} {value : α}
    (h : rawField name ms = some value) : ∃ key, (key, value) ∈ ms :=
  mem_of_mem_fieldValues (List.mem_of_getLast? h)

/-- What is left of a slice field is one of its values. -/
theorem exists_of_rawSliceField {name : String} {ms : List (String × Json)} {elems : List Json}
    (h : rawSliceField name ms = some elems) (hne : elems ≠ []) :
    ∃ key, (key, .array elems) ∈ ms := by
  have hloop : ∀ (values : List Json) (start : List Json),
      values.foldlM (fun _ value => decodeRawSlice value) start = some elems →
      start = elems ∨ .array elems ∈ values := by
    intro values
    induction values with
    | nil => exact fun start hstart => Or.inl (Option.some_inj.mp hstart)
    | cons value values ih =>
      intro start hstart
      rw [List.foldlM_cons, Option.bind_eq_bind, Option.bind_eq_some_iff] at hstart
      obtain ⟨next, hnext, hrest⟩ := hstart
      rcases ih next hrest with rfl | hmem
      · cases value with
        | null => exact absurd (Option.some_inj.mp hnext).symm hne
        | array es => exact Or.inr (Option.some_inj.mp hnext ▸ List.mem_cons_self)
        | _ => exact absurd hnext (by simp [decodeRawSlice])
      · exact Or.inr (List.mem_cons_of_mem _ hmem)
  rcases hloop _ _ h with hnil | hmem
  · exact absurd hnil.symm hne
  · exact mem_of_mem_fieldValues hmem

end Json

end WptFyi.Lib
