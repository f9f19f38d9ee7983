import WptFyi.Query.Decode

/-!
# What a document encodes (`api/query/README.md`, `api/query/atoms.go`)

`Encodes` says, key by key and in no order, which trees a document holds.
`unmarshalQ` tries the atoms in the order of `AbstractQuery.position`. It comes to
a nil pointer on exactly the documents of `ReadsNull`: some node has `null` under a
key that is read through a pointer, and nothing that is tried before it decodes.

A document may encode several trees, as it may have the keys of several atoms and its keys may be
spelled in other cases where the atom is decoded through a struct. Decoding returns one of them. So
what decoding has to do is said in both directions by `DecodeSpec`: what it returns is encoded, and
it returns something if anything is encoded and no nil pointer is met.

- `Encodes`, `IsQuery`: the trees of a document, and that there is one;
- `NextArg`, `Tried`, `ReadsNull`: what is looked at before a nil pointer is met;
- `DecodeSpec`, `AttemptSpec`: what decoding, and one attempt by its position, has
  to do with a document.
-/

namespace WptFyi.Query

open Lib Lib.Json Lib.GoStrings Shared

/-! ## Trees and documents

When a document encodes a query, said without the decoder: by the fields that a node has, whatever
else it has. -/

section Encodes

variable (m : CaseTables)

/-- The last value of a map entry is this string. -/
def EntryIs (key s : String) (b : Json) : Prop :=
  ∃ ms, b.members = some ms ∧ lastMember key ms = some (.string s)

/-- A status, with the product it is asked of. -/
def StatusIs (statusField : List (String × Json) → Option String)
    (product : Option ProductSpec) (status : TestStatus) (b : Json) : Prop :=
  ∃ ms browserName text name, b.members = some ms ∧
    stringField "browser_name" ms = some browserName ∧ stringField "product" ms = some text ∧
    statusField ms = some name ∧ name ≠ "" ∧
    optionalProduct m (if text = "" ∧ browserName ≠ "" then browserName else text) =
      .value product ∧
    readStatus m name = some status

/-- A field that is a list, not empty. -/
def ArgsAre (key : String) (elems : List Json) (b : Json) : Prop :=
  ∃ ms, b.members = some ms ∧ rawSliceField key ms = some elems ∧ elems ≠ []

/-- A number under a key, and what it counts. -/
def CountIs (key : String) (n : Int) (body b : Json) : Prop :=
  ∃ ms count, b.members = some ms ∧ rawField key ms = some count ∧
    rawField "where" ms = some body ∧ decodeInt 0 count = some n

/-- A field that is a document. -/
def ArgIs (key : String) (arg b : Json) : Prop :=
  ∃ ms, b.members = some ms ∧ rawField key ms = some arg

mutual

/-- The document holds the tree. -/
def Encodes : AbstractQuery → Json → Prop
  | .trueQ, _ => False
  | .testNamePattern pattern, b => EntryIs "pattern" pattern b
  | .subtestNamePattern subtest, b => EntryIs "subtest" subtest b
  | .testPath path, b => EntryIs "path" path b
  | .testStatusEq product status, b => StatusIs m (stringField "status") product status b
  | .testStatusNeq product status, b =>
    StatusIs m (fun data => (fieldValues "status" data).foldlM decodeNot "") product status b
  | .abstractNot arg, b => ∃ value, ArgIs "not" value b ∧ Encodes arg value
  | .abstractOr args, b => ∃ elems, ArgsAre "or" elems b ∧ EncodesArgs args elems
  | .abstractAnd args, b => ∃ elems, ArgsAre "and" elems b ∧ EncodesArgs args elems
  | .abstractExists args, b => ∃ elems, ArgsAre "exists" elems b ∧ EncodesArgs args elems
  | .abstractAll args, b => ∃ elems, ArgsAre "all" elems b ∧ EncodesArgs args elems
  | .abstractNone args, b => ∃ elems, ArgsAre "none" elems b ∧ EncodesArgs args elems
  | .abstractSequential args, b => ∃ elems, ArgsAre "sequential" elems b ∧ EncodesArgs args elems
  | .abstractCount n arg, b => ∃ body, CountIs "count" n body b ∧ Encodes arg body
  | .abstractLessThan n arg, b => ∃ body, CountIs "lessThan" n body b ∧ Encodes arg body
  | .abstractMoreThan n arg, b => ∃ body, CountIs "moreThan" n body b ∧ Encodes arg body
  | .abstractLink pattern, b => EntryIs "link" pattern b
  | .metadataQuality quality, b =>
    ∃ s, EntryIs "is" s b ∧ metadataQualityFromString s = some quality
  | .abstractTriaged product, b =>
    ∃ s, EntryIs "triaged" s b ∧ optionalProduct m s = .value product
  | .abstractTestLabel label, b => EntryIs "label" label b
  | .abstractTestWebFeature webFeature, b => EntryIs "feature" webFeature b

def EncodesArgs : List AbstractQuery → List Json → Prop
  | [], [] => True
  | q :: qs, b :: bs => Encodes q b ∧ EncodesArgs qs bs
  | _, _ => False

end

/-- The document holds some tree. -/
def IsQuery (b : Json) : Prop := ∃ q, Encodes m q b

end Encodes

/-- The place of a node's kind among the attempts of `unmarshalQ`. -/
def AbstractQuery.position : AbstractQuery → Nat
  | .testNamePattern _ => 0
  | .subtestNamePattern _ => 1
  | .testPath _ => 2
  | .testStatusEq _ _ => 3
  | .testStatusNeq _ _ => 4
  | .abstractNot _ => 5
  | .abstractOr _ => 6
  | .abstractAnd _ => 7
  | .abstractExists _ => 8
  | .abstractAll _ => 9
  | .abstractNone _ => 10
  | .abstractSequential _ => 11
  | .abstractCount _ _ => 12
  | .abstractLessThan _ _ => 13
  | .abstractMoreThan _ _ => 14
  | .abstractLink _ => 15
  | .metadataQuality _ => 16
  | .abstractTriaged _ => 17
  | .abstractTestLabel _ => 18
  | .abstractTestWebFeature _ => 19
  | .trueQ => 20

/-! ## Nil pointers -/

/-- The keys read through a pointer, with the positions of their atoms. -/
def pointerKeys : List (Nat × String) :=
  [(0, "pattern"), (1, "subtest"), (2, "path"), (15, "link"), (16, "is"), (17, "triaged"),
    (18, "label"), (19, "feature")]

/-- The keys of the queries with a list of arguments. -/
def listKeys : List (Nat × String) :=
  [(6, "or"), (7, "and"), (8, "exists"), (9, "all"), (10, "none"), (11, "sequential")]

/-- The keys of the counts. -/
def countKeys : List (Nat × String) := [(12, "count"), (13, "lessThan"), (14, "moreThan")]

section ReadsNull

variable (m : CaseTables)

/-- An argument that the attempt at a position comes to decode: in a list, after
arguments that are queries. -/
inductive NextArg : Nat → Json → Json → Prop where
  | not {arg b : Json} : ArgIs "not" arg b → NextArg 5 arg b
  | list {i : Nat} {key : String} {before after : List Json} {arg b : Json} :
      (i, key) ∈ listKeys → ArgsAre key (before ++ arg :: after) b →
      (∀ a ∈ before, IsQuery m a) → NextArg i arg b
  | count {i : Nat} {key : String} {n : Int} {arg b : Json} :
      (i, key) ∈ countKeys → CountIs key n arg b → NextArg i arg b

/-- Nothing that is tried before the position decodes. -/
def Tried (i : Nat) (b : Json) : Prop := ∀ q, Encodes m q b → i ≤ q.position

/-- Decoding the document comes to a `null` behind a nil pointer. -/
inductive ReadsNull : Json → Prop where
  | entry {i : Nat} {key : String} {ms : List (String × Json)} {b : Json} :
      (i, key) ∈ pointerKeys → b.members = some ms → lastMember key ms = some .null →
      Tried m i b → ReadsNull b
  | arg {i : Nat} {value b : Json} :
      NextArg m i value b → ReadsNull value → Tried m i b → ReadsNull b

/-- The attempt at a position comes to a nil pointer. -/
def NilAt (i : Nat) (b : Json) : Prop :=
  (∃ key ms, (i, key) ∈ pointerKeys ∧ b.members = some ms ∧ lastMember key ms = some .null) ∨
    ∃ value, NextArg m i value b ∧ ReadsNull m value

theorem readsNull_iff {b : Json} : ReadsNull m b ↔ ∃ i, NilAt m i b ∧ Tried m i b := by
  constructor
  · intro h
    cases h with
    | entry hkey hms hnull htried => exact ⟨_, Or.inl ⟨_, _, hkey, hms, hnull⟩, htried⟩
    | arg hnext hvalue htried => exact ⟨_, Or.inr ⟨_, hnext, hvalue⟩, htried⟩
  · rintro ⟨i, ⟨key, ms, hkey, hms, hnull⟩ | ⟨value, hnext, hvalue⟩, htried⟩
    · exact .entry hkey hms hnull htried
    · exact .arg hnext hvalue htried

end ReadsNull

/-! ## One attempt -/

/-- What decoding does with a document. -/
structure DecodeSpec (m : CaseTables) (b : Json) (outcome : Outcome AbstractQuery) : Prop where
  encodes : ∀ q, outcome = .value q → Encodes m q b
  accepts : ∀ q err, Encodes m q b → outcome ≠ .error err
  nil_iff : outcome = .nilDeref ↔ ReadsNull m b

/-- What the attempt at a position does with a node. -/
structure AttemptSpec (m : CaseTables) (b : Json) (i : Nat) (outcome : Outcome AbstractQuery) :
    Prop where
  encodes : ∀ q, outcome = .value q → q.position = i ∧ Encodes m q b
  accepts : ∀ q err, Encodes m q b → q.position = i → outcome ≠ .error err
  nil_iff : outcome = .nilDeref ↔ NilAt m i b

/-- Attempts for the positions from `i` on. -/
def AttemptsFrom (m : CaseTables) (b : Json) : Nat → List (Outcome AbstractQuery) → Prop
  | i, [] => i = 20
  | i, outcome :: outcomes => AttemptSpec m b i outcome ∧ AttemptsFrom m b (i + 1) outcomes

end WptFyi.Query
