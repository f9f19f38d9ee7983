import WptFyi.Query.DecodeSpec
import WptFyi.Webapp.QueryGrammar

/-!
# Decoding the structured queries of the web app

The objects that the UI builds are of a simple kind: each has one key that says what it is, beside
a product or what is counted. So a structured query encodes trees of one kind only, no two attempts
of the decoder compete for it, and it has no `null` under a key. What `unmarshalQ` does with any
document then comes down to one tree for each of them, or none.

Whether there is one depends on the literals in the nodes: a product as the server reads it, a
number as JavaScript shows it, a status or quality that the server knows. `Decodable` asks this of
every node, and that each list of arguments that must not be empty is not.

- `SameShape`: a tree of the server is the structured query, node by node;
- `Decodable`: what every node has to be like for that;
- `encodes_toJson`: the trees that the JSON of a structured query encodes;
- `unmarshalQ_toJson_iff`: decoding gives the one tree that the JSON encodes;
- `decodes_iff`: a structured query decodes to a tree of its shape exactly when it
  is `Decodable`.
-/

namespace WptFyi.Webapp

open Lib Lib.Json Lib.GoStrings Shared Query

namespace StructuredQuery

/-! ## Shapes -/

/-- The product that `browser` or `browser-version` names. -/
def namedProduct (text : String) : ProductSpec :=
  match split text '-' with
  | [browser, version] =>
    { browserName := browser, browserVersion := version, revision := "latest" }
  | _ => { browserName := text, revision := "latest" }

section Shapes

variable (m : CaseTables)

mutual

/-- The tree has the same nodes, counts and atoms. -/
def SameShape : StructuredQuery → AbstractQuery → Prop
  | .pattern s, q => q = .testNamePattern s
  | .subtest s, q => q = .subtestNamePattern s
  | .path s, q => q = .testPath s
  | .link s, q => q = .abstractLink s
  | .label s, q => q = .abstractTestLabel s
  | .feature s, q => q = .abstractTestWebFeature s
  -- the name of a quality, in any letter case
  | .is s, q => ∃ quality, q = .metadataQuality quality ∧
    metadataQualityFromString (m.lower.toLower s) = some quality
  | .triaged s, q => q = .abstractTriaged (if s = "" then Option.none else some (namedProduct s))
  | .status product s, q => ∃ status, q = .testStatusEq (product.map namedProduct) status ∧
    TestStatus.toName status = s
  | .statusNot product s, q => ∃ status, q = .testStatusNeq (product.map namedProduct) status ∧
    TestStatus.toName status = s
  | .not p, q => ∃ arg, q = .abstractNot arg ∧ SameShape p arg
  | .and ps, q => ∃ args, q = .abstractAnd args ∧ SameShapes ps args
  | .or ps, q => ∃ args, q = .abstractOr args ∧ SameShapes ps args
  | .exists ps, q => ∃ args, q = .abstractExists args ∧ SameShapes ps args
  | .all ps, q => ∃ args, q = .abstractAll args ∧ SameShapes ps args
  | .none ps, q => ∃ args, q = .abstractNone args ∧ SameShapes ps args
  | .sequential ps, q => ∃ args, q = .abstractSequential args ∧ SameShapes ps args
  | .count n body, q => ∃ k arg, q = .abstractCount k arg ∧ n = .int k ∧ SameShape body arg
  | .moreThan n body, q => ∃ k arg, q = .abstractMoreThan k arg ∧ n = .int k ∧ SameShape body arg
  | .lessThan n body, q => ∃ k arg, q = .abstractLessThan k arg ∧ n = .int k ∧ SameShape body arg

def SameShapes : List StructuredQuery → List AbstractQuery → Prop
  | [], [] => True
  | p :: ps, q :: qs => SameShape p q ∧ SameShapes ps qs
  | _, _ => False

end

/-- The JSON decodes, and to a tree of the same shape. -/
def Decodes (p : StructuredQuery) : Prop :=
  ∃ q, unmarshalQ m p.toJson = .value q ∧ SameShape m p q

/-! ## Nodes that decode -/

/-- The server reads the text as the product that it names. -/
def ProductReads (text : String) : Prop :=
  optionalProduct m text = .value (some (namedProduct text))

/-- A count is printed as the 64-bit integer that it is. -/
def CountReads (n : JsNumber) : Prop :=
  ∃ k, n = .int k ∧ decodeInt 0 n.toJson = some k

/-- The status and its product are read as what they are. -/
def StatusReads (product : Option String) (s : String) : Prop :=
  s ≠ "" ∧ (∀ text, product = some text → text ≠ "" ∧ ProductReads m text) ∧
    ∃ status, readStatus m s = some status ∧ TestStatus.toName status = s

mutual

/-- Every node can be decoded as what it is. -/
def Decodable : StructuredQuery → Prop
  | .pattern _ | .subtest _ | .path _ | .link _ | .label _ | .feature _ => True
  | .is s => ∃ quality, metadataQualityFromString s = some quality ∧
    metadataQualityFromString (m.lower.toLower s) = some quality
  | .triaged s => s = "" ∨ ProductReads m s
  | .status product s => StatusReads m product s
  | .statusNot product s => StatusReads m product s
  | .not p => Decodable p
  | .and ps | .or ps | .exists ps | .all ps | .none ps | .sequential ps =>
    ps ≠ [] ∧ DecodableAll ps
  | .count n body | .moreThan n body | .lessThan n body => CountReads n ∧ Decodable body

def DecodableAll : List StructuredQuery → Prop
  | [] => True
  | p :: ps => Decodable p ∧ DecodableAll ps

end

/-! ## What the JSON encodes -/

/-- The trees that a list of structured queries encodes. -/
def EncodesList (ps : List StructuredQuery) (atom : List AbstractQuery → AbstractQuery)
    (q : AbstractQuery) : Prop :=
  ps ≠ [] ∧ ∃ args, q = atom args ∧ EncodesArgs m args (toJsons ps)

def EncodesCount (n : JsNumber) (body : StructuredQuery)
    (atom : Int → AbstractQuery → AbstractQuery) (q : AbstractQuery) : Prop :=
  ∃ k arg, q = atom k arg ∧ decodeInt 0 n.toJson = some k ∧ Encodes m arg body.toJson

def EncodesStatus (product : Option String) (s : String)
    (atom : Option ProductSpec → TestStatus → AbstractQuery) (q : AbstractQuery) : Prop :=
  ∃ spec status, q = atom spec status ∧ s ≠ "" ∧
    optionalProduct m (product.getD "") = .value spec ∧ readStatus m s = some status

/-- The trees that the JSON of a structured query encodes, by its kind. -/
def EncodesKind : StructuredQuery → AbstractQuery → Prop
  | .pattern s, q => q = .testNamePattern s
  | .subtest s, q => q = .subtestNamePattern s
  | .path s, q => q = .testPath s
  | .link s, q => q = .abstractLink s
  | .label s, q => q = .abstractTestLabel s
  | .feature s, q => q = .abstractTestWebFeature s
  | .is s, q => ∃ quality, q = .metadataQuality quality ∧ metadataQualityFromString s = some quality
  | .triaged s, q => ∃ product, q = .abstractTriaged product ∧ optionalProduct m s = .value product
  | .status product s, q => EncodesStatus m product s .testStatusEq q
  | .statusNot product s, q => EncodesStatus m product s .testStatusNeq q
  | .not p, q => ∃ arg, q = .abstractNot arg ∧ Encodes m arg p.toJson
  | .and ps, q => EncodesList m ps .abstractAnd q
  | .or ps, q => EncodesList m ps .abstractOr q
  | .exists ps, q => EncodesList m ps .abstractExists q
  | .all ps, q => EncodesList m ps .abstractAll q
  | .none ps, q => EncodesList m ps .abstractNone q
  | .sequential ps, q => EncodesList m ps .abstractSequential q
  | .count n body, q => EncodesCount m n body .abstractCount q
  | .moreThan n body, q => EncodesCount m n body .abstractMoreThan q
  | .lessThan n body, q => EncodesCount m n body .abstractLessThan q

end Shapes

/-! ## The key of a node

Every node has one key by which its atom is known. No other key of the node is one by which another
atom is known, also when Go ignores the case. -/

/-- The keys of the atoms. -/
def atomKeys : List String :=
  ["pattern", "subtest", "path", "status", "not", "or", "and", "exists", "all", "none",
    "sequential", "count", "lessThan", "moreThan", "link", "is", "triaged", "label", "feature"]

/-- The key that an atom is read from. -/
def atomKey : AbstractQuery → String
  | .trueQ => ""
  | .testNamePattern _ => "pattern"
  | .subtestNamePattern _ => "subtest"
  | .testPath _ => "path"
  | .testStatusEq _ _ | .testStatusNeq _ _ => "status"
  | .abstractNot _ => "not"
  | .abstractOr _ => "or"
  | .abstractAnd _ => "and"
  | .abstractExists _ => "exists"
  | .abstractAll _ => "all"
  | .abstractNone _ => "none"
  | .abstractSequential _ => "sequential"
  | .abstractCount _ _ => "count"
  | .abstractLessThan _ _ => "lessThan"
  | .abstractMoreThan _ _ => "moreThan"
  | .abstractLink _ => "link"
  | .metadataQuality _ => "is"
  | .abstractTriaged _ => "triaged"
  | .abstractTestLabel _ => "label"
  | .abstractTestWebFeature _ => "feature"

section Keys

variable {m : CaseTables} {b : Json} {key : String} {q : AbstractQuery}

@[simp] theorem foldsTo_self (name : String) : foldsTo name name = true := by simp [foldsTo]

/-- Some member of the object means the key. -/
def HasKey (key : String) (b : Json) : Prop :=
  ∃ ms, b.members = some ms ∧ ∃ member ∈ ms, foldsTo member.1 key = true

theorem hasKey_of_entryIs {s : String} (h : EntryIs key s b) : HasKey key b := by
  obtain ⟨ms, hms, hlast⟩ := h
  exact ⟨ms, hms, _, mem_of_lastMember hlast, foldsTo_self key⟩

theorem exists_of_fieldValues_ne_nil {ms : List (String × Json)} (h : fieldValues key ms ≠ []) :
    ∃ member ∈ ms, foldsTo member.1 key = true := by
  obtain ⟨value, hvalue⟩ := List.exists_mem_of_ne_nil _ h
  obtain ⟨member, hmem, -⟩ := List.mem_map.mp hvalue
  exact ⟨member, List.mem_filter.mp hmem⟩

theorem hasKey_of_argIs {arg : Json} (h : ArgIs key arg b) : HasKey key b := by
  obtain ⟨ms, hms, hraw⟩ := h
  refine ⟨ms, hms, exists_of_fieldValues_ne_nil fun hnil => ?_⟩
  simp [rawField, hnil] at hraw

theorem hasKey_of_argsAre {elems : List Json} (h : ArgsAre key elems b) : HasKey key b := by
  obtain ⟨ms, hms, hraw, hne⟩ := h
  refine ⟨ms, hms, exists_of_fieldValues_ne_nil fun hnil => ?_⟩
  rw [rawSliceField, hnil] at hraw
  exact hne (Option.some_inj.mp hraw).symm

theorem hasKey_of_countIs {n : Int} {body : Json} (h : CountIs key n body b) : HasKey key b := by
  obtain ⟨ms, count, hms, hraw, -⟩ := h
  exact hasKey_of_argIs ⟨ms, hms, hraw⟩

theorem hasKey_of_statusIs {statusField : List (String × Json) → Option String}
    {product : Option ProductSpec} {status : TestStatus}
    (hfield : ∀ ms, fieldValues "status" ms = [] → statusField ms = some "")
    (h : StatusIs m statusField product status b) : HasKey "status" b := by
  obtain ⟨ms, _, _, name, hms, _, _, hname, hne, _⟩ := h
  refine ⟨ms, hms, exists_of_fieldValues_ne_nil fun hnil => ?_⟩
  rw [hfield ms hnil] at hname
  exact hne (Option.some_inj.mp hname).symm

/-- A document that encodes a tree has the key of its root. -/
theorem hasKey_of_encodes (h : Encodes m q b) : HasKey (atomKey q) b := by
  cases q with
  | trueQ => exact absurd h (by simp [Encodes])
  | testStatusEq _ _ => exact hasKey_of_statusIs (fun ms hnil => by simp [stringField, hnil]) h
  | testStatusNeq _ _ => exact hasKey_of_statusIs (fun ms hnil => by simp [hnil]) h
  | abstractNot _ =>
    obtain ⟨_, harg, _⟩ := h
    exact hasKey_of_argIs harg
  | abstractOr _ | abstractAnd _ | abstractExists _ | abstractAll _ | abstractNone _
  | abstractSequential _ =>
    obtain ⟨_, hargs, _⟩ := h
    exact hasKey_of_argsAre hargs
  | abstractCount _ _ | abstractLessThan _ _ | abstractMoreThan _ _ =>
    obtain ⟨_, hcount, _⟩ := h
    exact hasKey_of_countIs hcount
  | metadataQuality _ | abstractTriaged _ =>
    obtain ⟨_, hentry, _⟩ := h
    exact hasKey_of_entryIs hentry
  | _ => exact hasKey_of_entryIs h

theorem atomKey_mem (h : Encodes m q b) : atomKey q ∈ atomKeys := by
  cases q with
  | trueQ => exact absurd h (by simp [Encodes])
  | _ => simp [atomKey, atomKeys]

/-- Keys of atoms are told apart, and neither `product` nor `where` is one. -/
theorem eq_of_foldsTo {name : String} (hkey : key ∈ atomKeys)
    (hname : name ∈ atomKeys ++ ["product", "where"]) (h : foldsTo name key = true) :
    key = name := by
  have hall : ∀ name ∈ atomKeys ++ ["product", "where"], ∀ key ∈ atomKeys,
      foldsTo name key = true → key = name := by decide +kernel
  exact hall name hname key hkey h

/-- An object with the key of an atom, and maybe a product or what is counted,
encodes atoms with this key only. -/
theorem atomKey_eq {ms : List (String × Json)} (hkey : key ∈ atomKeys)
    (h : Encodes m q (.object ms))
    (hms : ∀ member ∈ ms, member.1 = key ∨ member.1 = "product" ∨ member.1 = "where") :
    atomKey q = key := by
  have hmem := atomKey_mem h
  obtain ⟨ms', heq, member, hmember, hfolds⟩ := hasKey_of_encodes h
  obtain rfl := Option.some_inj.mp heq
  rcases hms member hmember with hname | hname | hname
  · rw [hname] at hfolds
    exact eq_of_foldsTo hmem (by simp [hkey]) hfolds
  · rw [hname] at hfolds
    have habsurd := eq_of_foldsTo hmem (by simp) hfolds
    exact absurd (habsurd ▸ hmem) (by decide)
  · rw [hname] at hfolds
    have habsurd := eq_of_foldsTo hmem (by simp) hfolds
    exact absurd (habsurd ▸ hmem) (by decide)

end Keys

/-! ## Objects with one key

What a node with one key encodes, for each kind of atom: by the value under the key and nothing
else. -/

section Objects

variable {m : CaseTables} {key : String}

theorem entryIs_single {s s' : String} :
    EntryIs key s' (.object [(key, .string s)]) ↔ s' = s := by
  simp [EntryIs, Json.members, lastMember, eq_comm]

theorem argIs_single {value value' : Json} :
    ArgIs key value' (.object [(key, value)]) ↔ value' = value := by
  simp [ArgIs, Json.members, rawField, fieldValues, eq_comm]

theorem argsAre_single {elems elems' : List Json} :
    ArgsAre key elems' (.object [(key, .array elems)]) ↔ elems' = elems ∧ elems' ≠ [] := by
  simp [ArgsAre, Json.members, rawSliceField, fieldValues, decodeRawSlice, eq_comm]

theorem countIs_pair {n : Int} {count body body' : Json}
    (hwhere : foldsTo "where" key = false) :
    CountIs key n body' (.object [(key, count), ("where", body)]) ↔
      body' = body ∧ decodeInt 0 count = some n := by
  simp [CountIs, Json.members, rawField, fieldValues, hwhere, eq_comm]

theorem toJsons_eq_map (ps : List StructuredQuery) : toJsons ps = ps.map toJson := by
  induction ps with
  | nil => rfl
  | cons p ps ih => rw [toJsons, ih, List.map_cons]

/-- An object whose value is a string, for an atom that keeps it. -/
theorem encodes_string {s : String} {q : AbstractQuery} {atom : String → AbstractQuery}
    (hkey : key ∈ atomKeys) (hatom : ∀ q, atomKey q = key → ∃ s, q = atom s)
    (hencodes : ∀ s b, Encodes m (atom s) b ↔ EntryIs key s b) :
    Encodes m q (.object [(key, .string s)]) ↔ q = atom s := by
  constructor
  · intro h
    obtain ⟨s', rfl⟩ := hatom q (atomKey_eq hkey h (by simp))
    rw [hencodes, entryIs_single] at h
    rw [h]
  · rintro rfl
    exact (hencodes s _).mpr (entryIs_single.mpr rfl)

/-- The lists of arguments, which differ in the key and the atom. -/
theorem encodes_list {ps : List StructuredQuery} {q : AbstractQuery}
    {atom : List AbstractQuery → AbstractQuery} (hkey : key ∈ atomKeys)
    (hatom : ∀ q, atomKey q = key → ∃ args, q = atom args)
    (hencodes : ∀ args b, Encodes m (atom args) b ↔
      ∃ elems, ArgsAre key elems b ∧ EncodesArgs m args elems) :
    Encodes m q (.object [(key, .array (toJsons ps))]) ↔ EncodesList m ps atom q := by
  constructor
  · intro h
    obtain ⟨args, rfl⟩ := hatom q (atomKey_eq hkey h (by simp))
    obtain ⟨elems, hargs, hencoded⟩ := (hencodes args _).mp h
    obtain ⟨rfl, hne⟩ := argsAre_single.mp hargs
    exact ⟨by simpa [toJsons_eq_map] using hne, args, rfl, hencoded⟩
  · rintro ⟨hne, args, rfl, hencoded⟩
    refine (hencodes args _).mpr ⟨_, argsAre_single.mpr ⟨rfl, ?_⟩, hencoded⟩
    simpa [toJsons_eq_map] using hne

/-- The counts, likewise. -/
theorem encodes_count {n : JsNumber} {body : StructuredQuery} {q : AbstractQuery}
    {atom : Int → AbstractQuery → AbstractQuery} (hkey : key ∈ atomKeys)
    (hatom : ∀ q, atomKey q = key → ∃ k arg, q = atom k arg)
    (hencodes : ∀ k arg b, Encodes m (atom k arg) b ↔
      ∃ body, CountIs key k body b ∧ Encodes m arg body) :
    Encodes m q (.object [(key, n.toJson), ("where", body.toJson)]) ↔
      EncodesCount m n body atom q := by
  have hwhere : foldsTo "where" key = false := by
    by_contra hfolds
    have heq : key = "where" := eq_of_foldsTo hkey (by simp) (by simpa using hfolds)
    exact absurd (heq ▸ hkey) (by decide)
  constructor
  · intro h
    obtain ⟨k, arg, rfl⟩ := hatom q (atomKey_eq hkey h (by simp))
    obtain ⟨body', hcount, harg⟩ := (hencodes k arg _).mp h
    obtain ⟨rfl, hk⟩ := (countIs_pair hwhere).mp hcount
    exact ⟨k, arg, rfl, hk, harg⟩
  · rintro ⟨k, arg, rfl, hk, harg⟩
    exact (hencodes k arg _).mpr ⟨_, (countIs_pair hwhere).mpr ⟨rfl, hk⟩, harg⟩

/-- The status and the product of an atom that `eval` builds. -/
theorem statusIs_iff {statusField : List (String × Json) → Option String}
    {product : Option String} {s : String} {value : Json} {spec : Option ProductSpec}
    {status : TestStatus}
    (hfield : statusField (productMember product ++ [("status", value)]) = some s) :
    StatusIs m statusField spec status (.object (productMember product ++ [("status", value)])) ↔
      s ≠ "" ∧ optionalProduct m (product.getD "") = .value spec ∧
        readStatus m s = some status := by
  -- the page never writes the old name of the field
  have hbrowser : stringField "browser_name" (productMember product ++ [("status", value)]) =
      some "" := by
    have h1 : foldsTo "product" "browser_name" = false := by decide
    have h2 : foldsTo "status" "browser_name" = false := by decide
    cases product <;> simp [stringField, fieldValues, productMember, h1, h2]
  have hproduct : stringField "product" (productMember product ++ [("status", value)]) =
      some (product.getD "") := by
    have h : foldsTo "status" "product" = false := by decide
    cases product <;> simp [stringField, fieldValues, productMember, h, decodeString]
  constructor
  · rintro ⟨ms, browserName, text, name, hms, hb, ht, hn, hne, hspec, hstatus⟩
    obtain rfl := Option.some_inj.mp hms
    rw [hbrowser, Option.some_inj] at hb
    rw [hproduct, Option.some_inj] at ht
    rw [hfield, Option.some_inj] at hn
    subst hb ht hn
    exact ⟨hne, by simpa using hspec, hstatus⟩
  · rintro ⟨hne, hspec, hstatus⟩
    exact ⟨_, "", product.getD "", s, rfl, hbrowser, hproduct, hfield, hne, by simpa using hspec,
      hstatus⟩

/-- The trees that the JSON of a structured query encodes. -/
theorem encodes_toJson {p : StructuredQuery} {q : AbstractQuery} :
    Encodes m q p.toJson ↔ EncodesKind m p q := by
  have hstatus : ∀ (product : Option String) (value : Json), ∀ member ∈
      productMember product ++ [("status", value)],
      member.1 = "status" ∨ member.1 = "product" ∨ member.1 = "where" := by
    intro product value
    cases product <;> simp [productMember]
  have hstring : ∀ (product : Option String) (s : String),
      stringField "status" (productMember product ++ [("status", .string s)]) = some s := by
    intro product s
    have h : foldsTo "product" "status" = false := by decide
    cases product <;> simp [stringField, fieldValues, productMember, h, decodeString]
  have hnot : ∀ (product : Option String) (s : String),
      (fieldValues "status" (productMember product ++
        [("status", .object [("not", .string s)])])).foldlM decodeNot "" = some s := by
    intro product s
    have h : foldsTo "product" "status" = false := by decide
    cases product <;>
      simp [fieldValues, productMember, h, decodeNot, Json.members, decodeString]
  cases p with
  | pattern s =>
    exact encodes_string (by decide)
      (fun q h => by cases q <;> simp [atomKey] at h; exact ⟨_, rfl⟩) fun _ _ => by rw [Encodes]
  | subtest s =>
    exact encodes_string (by decide)
      (fun q h => by cases q <;> simp [atomKey] at h; exact ⟨_, rfl⟩) fun _ _ => by rw [Encodes]
  | path s =>
    exact encodes_string (by decide)
      (fun q h => by cases q <;> simp [atomKey] at h; exact ⟨_, rfl⟩) fun _ _ => by rw [Encodes]
  | link s =>
    exact encodes_string (by decide)
      (fun q h => by cases q <;> simp [atomKey] at h; exact ⟨_, rfl⟩) fun _ _ => by rw [Encodes]
  | label s =>
    exact encodes_string (by decide)
      (fun q h => by cases q <;> simp [atomKey] at h; exact ⟨_, rfl⟩) fun _ _ => by rw [Encodes]
  | feature s =>
    exact encodes_string (by decide)
      (fun q h => by cases q <;> simp [atomKey] at h; exact ⟨_, rfl⟩) fun _ _ => by rw [Encodes]
  | is s =>
    constructor
    · intro h
      have hkey := atomKey_eq (show "is" ∈ atomKeys by decide) h (by simp)
      cases q <;> simp [atomKey] at hkey
      obtain ⟨s', hentry, hquality⟩ := h
      obtain rfl := entryIs_single.mp hentry
      exact ⟨_, rfl, hquality⟩
    · rintro ⟨quality, rfl, hquality⟩
      exact ⟨s, entryIs_single.mpr rfl, hquality⟩
  | triaged s =>
    constructor
    · intro h
      have hkey := atomKey_eq (show "triaged" ∈ atomKeys by decide) h (by simp)
      cases q <;> simp [atomKey] at hkey
      obtain ⟨s', hentry, hproduct⟩ := h
      obtain rfl := entryIs_single.mp hentry
      exact ⟨_, rfl, hproduct⟩
    · rintro ⟨product, rfl, hproduct⟩
      exact ⟨s, entryIs_single.mpr rfl, hproduct⟩
  | status product s =>
    constructor
    · intro h
      have hkey := atomKey_eq (show "status" ∈ atomKeys by decide) h (hstatus product _)
      cases q <;> simp [atomKey] at hkey
      · obtain ⟨hne, hspec, hread⟩ := (statusIs_iff (hstring product s)).mp h
        exact ⟨_, _, rfl, hne, hspec, hread⟩
      · -- a string is no object with `not`
        obtain ⟨ms, _, _, name, hms, _, _, hname, _⟩ := h
        obtain rfl := Option.some_inj.mp hms
        have h : foldsTo "product" "status" = false := by decide
        cases product <;>
          simp [fieldValues, productMember, h, decodeNot, Json.members] at hname
    · rintro ⟨spec, status, rfl, hne, hspec, hread⟩
      exact (statusIs_iff (hstring product s)).mpr ⟨hne, hspec, hread⟩
  | statusNot product s =>
    constructor
    · intro h
      have hkey := atomKey_eq (show "status" ∈ atomKeys by decide) h (hstatus product _)
      cases q <;> simp [atomKey] at hkey
      · -- an object is no string
        obtain ⟨ms, _, _, name, hms, _, _, hname, _⟩ := h
        obtain rfl := Option.some_inj.mp hms
        have h : foldsTo "product" "status" = false := by decide
        cases product <;>
          simp [stringField, fieldValues, productMember, h, decodeString] at hname
      · obtain ⟨hne, hspec, hread⟩ := (statusIs_iff (hnot product s)).mp h
        exact ⟨_, _, rfl, hne, hspec, hread⟩
    · rintro ⟨spec, status, rfl, hne, hspec, hread⟩
      exact (statusIs_iff (hnot product s)).mpr ⟨hne, hspec, hread⟩
  | not p =>
    constructor
    · intro h
      have hkey := atomKey_eq (show "not" ∈ atomKeys by decide) h (by simp)
      cases q <;> simp [atomKey] at hkey
      obtain ⟨value, harg, hencoded⟩ := h
      obtain rfl := argIs_single.mp harg
      exact ⟨_, rfl, hencoded⟩
    · rintro ⟨arg, rfl, hencoded⟩
      exact ⟨_, argIs_single.mpr rfl, hencoded⟩
  | and ps =>
    exact encodes_list (by decide)
      (fun q h => by cases q <;> simp [atomKey] at h; exact ⟨_, rfl⟩) fun _ _ => by rw [Encodes]
  | or ps =>
    exact encodes_list (by decide)
      (fun q h => by cases q <;> simp [atomKey] at h; exact ⟨_, rfl⟩) fun _ _ => by rw [Encodes]
  | «exists» ps =>
    exact encodes_list (by decide)
      (fun q h => by cases q <;> simp [atomKey] at h; exact ⟨_, rfl⟩) fun _ _ => by rw [Encodes]
  | all ps =>
    exact encodes_list (by decide)
      (fun q h => by cases q <;> simp [atomKey] at h; exact ⟨_, rfl⟩) fun _ _ => by rw [Encodes]
  | none ps =>
    exact encodes_list (by decide)
      (fun q h => by cases q <;> simp [atomKey] at h; exact ⟨_, rfl⟩) fun _ _ => by rw [Encodes]
  | sequential ps =>
    exact encodes_list (by decide)
      (fun q h => by cases q <;> simp [atomKey] at h; exact ⟨_, rfl⟩) fun _ _ => by rw [Encodes]
  | count n body =>
    exact encodes_count (by decide)
      (fun q h => by cases q <;> simp [atomKey] at h; exact ⟨_, _, rfl⟩)
      fun _ _ _ => by rw [Encodes]
  | moreThan n body =>
    exact encodes_count (by decide)
      (fun q h => by cases q <;> simp [atomKey] at h; exact ⟨_, _, rfl⟩)
      fun _ _ _ => by rw [Encodes]
  | lessThan n body =>
    exact encodes_count (by decide)
      (fun q h => by cases q <;> simp [atomKey] at h; exact ⟨_, _, rfl⟩)
      fun _ _ _ => by rw [Encodes]

end Objects

/-! ## No nil pointers

No node has a `null` under its key, so no attempt at it comes to a nil pointer. -/

section NoNull

variable {m : CaseTables}

/-- A document without `null` under a key that is read through a pointer, in itself
or in what it is decoded from. -/
theorem not_readsNull {b : Json}
    (hentry : ∀ ms, b.members = some ms → ∀ p ∈ pointerKeys, (p.2, .null) ∉ ms)
    (hchild : ∀ value, Child value b → ¬ ReadsNull m value) : ¬ ReadsNull m b := by
  intro h
  cases h with
  | entry hkey hms hnull _ => exact hentry _ hms _ hkey (mem_of_lastMember hnull)
  | arg hnext hread _ => exact hchild _ hnext.child hread

/-- Only objects have entries. -/
theorem not_readsNull_of_not_object {b : Json} (h : ∀ ms, b ≠ .object ms) : ¬ ReadsNull m b := by
  refine not_readsNull ?_ fun value hchild => ?_
  · intro ms hms p hp
    cases b with
    | null =>
      obtain rfl := Option.some_inj.mp hms
      exact List.not_mem_nil
    | object _ => exact absurd rfl (h _)
    | _ => exact absurd hms (by simp [Json.members])
  · cases hchild with
    | member _ _ => exact absurd rfl (h _)
    | elem _ _ _ => exact absurd rfl (h _)

/-- An object whose one value is not `null`. -/
theorem not_readsNull_single {key : String} {value : Json} (hne : value ≠ .null)
    (hvalue : ¬ ReadsNull m value)
    (helems : ∀ elems, value = .array elems → ∀ elem ∈ elems, ¬ ReadsNull m elem) :
    ¬ ReadsNull m (.object [(key, value)]) := by
  refine not_readsNull ?_ fun child hchild => ?_
  · rintro ms hms p _ hmem
    obtain rfl := Option.some_inj.mp hms
    obtain ⟨-, rfl⟩ := Prod.ext_iff.mp (List.mem_singleton.mp hmem)
    exact hne rfl
  · cases hchild with
    | member _ hmem =>
      obtain ⟨-, rfl⟩ := Prod.ext_iff.mp (List.mem_singleton.mp hmem)
      exact hvalue
    | elem _ hmem helem =>
      obtain ⟨-, heq⟩ := Prod.ext_iff.mp (List.mem_singleton.mp hmem)
      exact helems _ heq.symm _ helem

theorem not_readsNull_string {key s : String} : ¬ ReadsNull m (.object [(key, .string s)]) :=
  not_readsNull_single (by simp) (not_readsNull_of_not_object (by simp)) (by simp)

theorem not_readsNull_list {key : String} {elems : List Json}
    (h : ∀ elem ∈ elems, ¬ ReadsNull m elem) : ¬ ReadsNull m (.object [(key, .array elems)]) := by
  refine not_readsNull_single (by simp) (not_readsNull_of_not_object (by simp)) ?_
  rintro _ ⟨⟩
  exact h

/-- A status is read through no pointer. -/
theorem not_readsNull_status {product : Option String} {value : Json} (hne : value ≠ .null)
    (hvalue : ¬ ReadsNull m value) (harray : ∀ elems, value ≠ .array elems) :
    ¬ ReadsNull m (.object (productMember product ++ [("status", value)])) := by
  -- the members are a text and the value
  have hmem : ∀ {key : String} {child : Json},
      (key, child) ∈ productMember product ++ [("status", value)] →
      (∃ s, child = .string s) ∨ child = value := by
    intro key child hmem
    rcases List.mem_append.mp hmem with hproduct | hstatus
    · cases product with
      | none => exact absurd hproduct List.not_mem_nil
      | some s =>
        obtain ⟨-, rfl⟩ := Prod.ext_iff.mp (List.mem_singleton.mp hproduct)
        exact Or.inl ⟨s, rfl⟩
    · exact Or.inr (Prod.ext_iff.mp (List.mem_singleton.mp hstatus)).2
  refine not_readsNull ?_ fun child hchild => ?_
  · rintro ms hms p _ hnull
    obtain rfl := Option.some_inj.mp hms
    rcases hmem hnull with ⟨s, hs⟩ | heq
    · exact absurd hs (by simp)
    · exact hne heq.symm
  · cases hchild with
    | member _ hchild =>
      rcases hmem hchild with ⟨s, rfl⟩ | rfl
      · exact not_readsNull_of_not_object (by simp)
      · exact hvalue
    | elem _ hchild _ =>
      rcases hmem hchild with ⟨s, hs⟩ | heq
      · exact absurd hs (by simp)
      · exact absurd heq.symm (harray _)

/-- A count may be `null`, but its key is not read through a pointer. -/
theorem not_readsNull_count {key : String} {n : JsNumber} {body : Json}
    (hkey : ∀ p ∈ pointerKeys, p.2 ≠ key) (hne : body ≠ .null) (hbody : ¬ ReadsNull m body)
    (harray : ∀ elems, body ≠ .array elems) :
    ¬ ReadsNull m (.object [(key, n.toJson), ("where", body)]) := by
  have hnumber : (∀ ms, n.toJson ≠ .object ms) ∧ ∀ elems, n.toJson ≠ .array elems := by
    cases n <;> simp [JsNumber.toJson]
  have hmem : ∀ {key' : String} {child : Json}, (key', child) ∈ [(key, n.toJson), ("where", body)] →
      (key' = key ∧ child = n.toJson) ∨ child = body := by
    intro key' child hmem
    rcases List.mem_cons.mp hmem with heq | hmem
    · exact Or.inl (Prod.ext_iff.mp heq)
    · exact Or.inr (Prod.ext_iff.mp (List.mem_singleton.mp hmem)).2
  refine not_readsNull ?_ fun child hchild => ?_
  · rintro ms hms p hp hnull
    obtain rfl := Option.some_inj.mp hms
    rcases hmem hnull with ⟨heq, -⟩ | heq
    · exact hkey p hp heq
    · exact hne heq.symm
  · cases hchild with
    | member _ hchild =>
      rcases hmem hchild with ⟨-, rfl⟩ | rfl
      · exact not_readsNull_of_not_object hnumber.1
      · exact hbody
    | elem _ hchild _ =>
      rcases hmem hchild with ⟨-, heq⟩ | heq
      · exact absurd heq.symm (hnumber.2 _)
      · exact absurd heq.symm (harray _)

theorem exists_toJson_eq_object (p : StructuredQuery) : ∃ ms, p.toJson = .object ms := by
  cases p <;> exact ⟨_, by rw [toJson]⟩

mutual

/-- No structured query leads the decoder to a nil pointer. -/
theorem not_readsNull_toJson : ∀ p : StructuredQuery, ¬ ReadsNull m p.toJson
  | .pattern _ | .subtest _ | .path _ | .link _ | .label _ | .feature _ | .is _ | .triaged _ =>
    not_readsNull_string
  | .status _ _ =>
    not_readsNull_status (by simp) (not_readsNull_of_not_object (by simp)) (by simp)
  | .statusNot _ _ => not_readsNull_status (by simp) not_readsNull_string (by simp)
  | .not p => by
    obtain ⟨ms, hms⟩ := exists_toJson_eq_object p
    exact not_readsNull_single (by simp [hms]) (not_readsNull_toJson p) (by simp [hms])
  | .and ps | .or ps | .exists ps | .all ps | .none ps | .sequential ps =>
    not_readsNull_list (not_readsNull_toJsons ps)
  | .count _ p | .moreThan _ p | .lessThan _ p => by
    obtain ⟨ms, hms⟩ := exists_toJson_eq_object p
    exact not_readsNull_count (by decide) (by simp [hms]) (not_readsNull_toJson p) (by simp [hms])

theorem not_readsNull_toJsons :
    ∀ ps : List StructuredQuery, ∀ elem ∈ toJsons ps, ¬ ReadsNull m elem
  | [], _, helem => absurd helem List.not_mem_nil
  | p :: ps, elem, helem => by
    rcases List.mem_cons.mp helem with rfl | helem
    · exact not_readsNull_toJson p
    · exact not_readsNull_toJsons ps elem helem

end

end NoNull

/-! ## Decoding

By induction on the structured query: there is one tree of its shape if each literal in it is read,
and none otherwise. -/

section Decoding

variable {m : CaseTables}

/-- A status is read as what it is when its name and its product are. -/
theorem encodesStatus_iff {product : Option String} {s : String} {q : AbstractQuery}
    {atom : Option ProductSpec → TestStatus → AbstractQuery}
    (hinj : ∀ p p' st st', atom p st = atom p' st' → p = p' ∧ st = st')
    (h : EncodesStatus m product s atom q) :
    (∃ status, q = atom (product.map namedProduct) status ∧ TestStatus.toName status = s) ↔
      StatusReads m product s := by
  obtain ⟨spec, status, rfl, hne, hspec, hread⟩ := h
  -- no product is printed as none, so only one that is there must be readable
  have hproduct : spec = product.map namedProduct ↔
      ∀ text, product = some text → text ≠ "" ∧ ProductReads m text := by
    cases product with
    | none =>
      have hnone : Outcome.value Option.none = Outcome.value spec := hspec
      cases hnone
      simp
    | some text =>
      have hspec : optionalProduct m text = .value spec := hspec
      simp only [Option.map_some, Option.some_inj, forall_eq']
      unfold ProductReads
      rw [hspec]
      constructor
      · rintro rfl
        refine ⟨?_, rfl⟩
        rintro rfl
        exact absurd hspec (by simp [optionalProduct])
      · rintro ⟨-, heq⟩
        cases heq
        rfl
  constructor
  · rintro ⟨status', heq, hname⟩
    obtain ⟨hspec', rfl⟩ := hinj _ _ _ _ heq
    exact ⟨hne, hproduct.mp hspec', status, hread, hname⟩
  · rintro ⟨-, hreads, status', hread', hname⟩
    rw [hread, Option.some_inj] at hread'
    subst hread'
    exact ⟨status, by rw [hproduct.mpr hreads], hname⟩

theorem exists_encodesStatus {product : Option String} {s : String}
    {atom : Option ProductSpec → TestStatus → AbstractQuery} (h : StatusReads m product s) :
    ∃ q, EncodesStatus m product s atom q := by
  obtain ⟨hne, hreads, status, hread, -⟩ := h
  cases product with
  | none => exact ⟨_, Option.none, status, rfl, hne, rfl, hread⟩
  | some text => exact ⟨_, _, status, rfl, hne, (hreads text rfl).2, hread⟩

mutual

/-- A query that can be decoded encodes a tree. -/
theorem exists_encodes : ∀ {p : StructuredQuery}, Decodable m p → ∃ q, Encodes m q p.toJson
  | .pattern _, _ | .subtest _, _ | .path _, _ | .link _, _ | .label _, _ | .feature _, _ =>
    ⟨_, encodes_toJson.mpr rfl⟩
  | .is _, ⟨_, hquality, _⟩ => ⟨_, encodes_toJson.mpr ⟨_, rfl, hquality⟩⟩
  | .triaged s, h => by
    rcases h with rfl | hreads
    · exact ⟨_, encodes_toJson.mpr ⟨Option.none, rfl, rfl⟩⟩
    · exact ⟨_, encodes_toJson.mpr ⟨_, rfl, hreads⟩⟩
  | .status _ _, h => (exists_encodesStatus h).imp fun _ => encodes_toJson.mpr
  | .statusNot _ _, h => (exists_encodesStatus h).imp fun _ => encodes_toJson.mpr
  | .not p, h => by
    obtain ⟨arg, harg⟩ := exists_encodes (p := p) h
    exact ⟨_, encodes_toJson.mpr ⟨arg, rfl, harg⟩⟩
  | .and _, ⟨hne, h⟩ | .or _, ⟨hne, h⟩ | .exists _, ⟨hne, h⟩ | .all _, ⟨hne, h⟩
  | .none _, ⟨hne, h⟩ | .sequential _, ⟨hne, h⟩ => by
    obtain ⟨args, hargs⟩ := exists_encodesArgs h
    exact ⟨_, encodes_toJson.mpr ⟨hne, args, rfl, hargs⟩⟩
  | .count _ _, ⟨⟨k, _, hk⟩, h⟩ | .moreThan _ _, ⟨⟨k, _, hk⟩, h⟩
  | .lessThan _ _, ⟨⟨k, _, hk⟩, h⟩ => by
    obtain ⟨arg, harg⟩ := exists_encodes h
    exact ⟨_, encodes_toJson.mpr ⟨k, arg, rfl, hk, harg⟩⟩

theorem exists_encodesArgs : ∀ {ps : List StructuredQuery}, DecodableAll m ps →
    ∃ qs, EncodesArgs m qs (toJsons ps)
  | [], _ => ⟨[], trivial⟩
  | _ :: _, ⟨hp, hps⟩ => by
    obtain ⟨q, hq⟩ := exists_encodes hp
    obtain ⟨qs, hqs⟩ := exists_encodesArgs hps
    exact ⟨q :: qs, hq, hqs⟩

end

mutual

/-- Of the trees that the JSON encodes, those that can be decoded have its shape. -/
theorem sameShape_iff : ∀ {p : StructuredQuery} {q : AbstractQuery}, Encodes m q p.toJson →
    (SameShape m p q ↔ Decodable m p)
  | .pattern _, _, h | .subtest _, _, h | .path _, _, h | .link _, _, h | .label _, _, h
  | .feature _, _, h => iff_of_true (encodes_toJson.mp h) trivial
  | .is s, q, h => by
    obtain ⟨quality, rfl, hquality⟩ := encodes_toJson.mp h
    constructor
    · rintro ⟨_, ⟨⟩, hlower⟩
      exact ⟨quality, hquality, hlower⟩
    · rintro ⟨quality', hquality', hlower⟩
      rw [hquality, Option.some_inj] at hquality'
      exact ⟨quality, rfl, hquality' ▸ hlower⟩
  | .triaged s, q, h => by
    obtain ⟨product, rfl, hproduct⟩ := encodes_toJson.mp h
    simp only [SameShape, Decodable, AbstractQuery.abstractTriaged.injEq, ProductReads, hproduct]
    -- an empty browser asks for no product
    by_cases hs : s = ""
    · subst hs
      cases hproduct
      simp
    · simp [hs]
  | .status _ _, _, h =>
    encodesStatus_iff (fun _ _ _ _ heq => by cases heq; exact ⟨rfl, rfl⟩) (encodes_toJson.mp h)
  | .statusNot _ _, _, h =>
    encodesStatus_iff (fun _ _ _ _ heq => by cases heq; exact ⟨rfl, rfl⟩) (encodes_toJson.mp h)
  | .not p, q, h => by
    obtain ⟨arg, rfl, harg⟩ := encodes_toJson.mp h
    rw [Decodable, ← sameShape_iff harg]
    exact ⟨fun ⟨_, heq, hshape⟩ => by cases heq; exact hshape, fun hshape => ⟨arg, rfl, hshape⟩⟩
  | .and ps, q, h | .or ps, q, h | .exists ps, q, h | .all ps, q, h | .none ps, q, h
  | .sequential ps, q, h => by
    obtain ⟨hne, args, rfl, hargs⟩ := encodes_toJson.mp h
    rw [Decodable, and_iff_right hne, ← sameShapes_iff hargs]
    exact ⟨fun ⟨_, heq, hshape⟩ => by cases heq; exact hshape, fun hshape => ⟨args, rfl, hshape⟩⟩
  | .count n p, q, h | .moreThan n p, q, h | .lessThan n p, q, h => by
    obtain ⟨k, arg, rfl, hk, harg⟩ := encodes_toJson.mp h
    rw [Decodable, ← sameShape_iff harg]
    constructor
    · rintro ⟨_, _, heq, hn, hshape⟩
      cases heq
      exact ⟨⟨k, hn, hk⟩, hshape⟩
    · rintro ⟨⟨k', hn, hk'⟩, hshape⟩
      rw [hk, Option.some_inj] at hk'
      exact ⟨k, arg, rfl, hk' ▸ hn, hshape⟩

theorem sameShapes_iff : ∀ {ps : List StructuredQuery} {qs : List AbstractQuery},
    EncodesArgs m qs (toJsons ps) → (SameShapes m ps qs ↔ DecodableAll m ps)
  | [], [], _ => Iff.rfl
  | [], _ :: _, h => absurd h (by simp [toJsons, EncodesArgs])
  | _ :: _, [], h => absurd h (by simp [toJsons, EncodesArgs])
  | _ :: _, _ :: _, ⟨hq, hqs⟩ => and_congr (sameShape_iff hq) (sameShapes_iff hqs)

end

mutual

/-- The JSON encodes one tree at most. -/
theorem encodes_unique : ∀ {p : StructuredQuery} {q q' : AbstractQuery},
    Encodes m q p.toJson → Encodes m q' p.toJson → q = q'
  | .pattern _, _, _, h, h' | .subtest _, _, _, h, h' | .path _, _, _, h, h'
  | .link _, _, _, h, h' | .label _, _, _, h, h' | .feature _, _, _, h, h' =>
    (encodes_toJson.mp h).trans (encodes_toJson.mp h').symm
  -- where a field is read, it is read in one way
  | .is _, _, _, h, h' => by
    obtain ⟨quality, rfl, hquality⟩ := encodes_toJson.mp h
    obtain ⟨quality', rfl, hquality'⟩ := encodes_toJson.mp h'
    rw [Option.some_inj.mp (hquality.symm.trans hquality')]
  | .triaged _, _, _, h, h' => by
    obtain ⟨product, rfl, hproduct⟩ := encodes_toJson.mp h
    obtain ⟨product', rfl, hproduct'⟩ := encodes_toJson.mp h'
    cases hproduct.symm.trans hproduct'
    rfl
  | .status _ _, _, _, h, h' | .statusNot _ _, _, _, h, h' => by
    obtain ⟨spec, status, rfl, -, hspec, hread⟩ := encodes_toJson.mp h
    obtain ⟨spec', status', rfl, -, hspec', hread'⟩ := encodes_toJson.mp h'
    cases hspec.symm.trans hspec'
    cases hread.symm.trans hread'
    rfl
  | .not p, _, _, h, h' => by
    obtain ⟨arg, rfl, harg⟩ := encodes_toJson.mp h
    obtain ⟨arg', rfl, harg'⟩ := encodes_toJson.mp h'
    rw [encodes_unique harg harg']
  | .and _, _, _, h, h' | .or _, _, _, h, h' | .exists _, _, _, h, h' | .all _, _, _, h, h'
  | .none _, _, _, h, h' | .sequential _, _, _, h, h' => by
    obtain ⟨-, args, rfl, hargs⟩ := encodes_toJson.mp h
    obtain ⟨-, args', rfl, hargs'⟩ := encodes_toJson.mp h'
    rw [encodesArgs_unique hargs hargs']
  | .count _ _, _, _, h, h' | .moreThan _ _, _, _, h, h' | .lessThan _ _, _, _, h, h' => by
    obtain ⟨k, arg, rfl, hk, harg⟩ := encodes_toJson.mp h
    obtain ⟨k', arg', rfl, hk', harg'⟩ := encodes_toJson.mp h'
    cases hk.symm.trans hk'
    rw [encodes_unique harg harg']

theorem encodesArgs_unique : ∀ {ps : List StructuredQuery} {qs qs' : List AbstractQuery},
    EncodesArgs m qs (toJsons ps) → EncodesArgs m qs' (toJsons ps) → qs = qs'
  | [], [], [], _, _ => rfl
  | [], [], _ :: _, _, h' => absurd h' (by simp [toJsons, EncodesArgs])
  | [], _ :: _, _, h, _ => absurd h (by simp [toJsons, EncodesArgs])
  | _ :: _, [], _, h, _ => absurd h (by simp [toJsons, EncodesArgs])
  | _ :: _, _ :: _, [], _, h' => absurd h' (by simp [toJsons, EncodesArgs])
  | _ :: _, _ :: _, _ :: _, ⟨hq, hqs⟩, ⟨hq', hqs'⟩ => by
    rw [encodes_unique hq hq', encodesArgs_unique hqs hqs']

end

/-- The tree that a structured query is decoded to is the one its JSON encodes. -/
theorem unmarshalQ_toJson_iff {p : StructuredQuery} {q : AbstractQuery} :
    unmarshalQ m p.toJson = .value q ↔ Encodes m q p.toJson := by
  have hspec := unmarshalQ_spec (m := m) p.toJson
  refine ⟨hspec.encodes q, fun h => ?_⟩
  cases hout : unmarshalQ m p.toJson with
  | error err => exact absurd hout (hspec.accepts q err h)
  | nilDeref => exact absurd (hspec.nil_iff.mp hout) (not_readsNull_toJson p)
  | value q' => rw [encodes_unique h (hspec.encodes q' hout)]

/-- **Decoding a structured query** gives a tree of the same shape exactly when every
node can be decoded as what it is. -/
theorem decodes_iff (p : StructuredQuery) : Decodes m p ↔ Decodable m p := by
  constructor
  · rintro ⟨q, hq, hshape⟩
    exact (sameShape_iff (unmarshalQ_toJson_iff.mp hq)).mp hshape
  · intro h
    obtain ⟨q, hq⟩ := exists_encodes h
    exact ⟨q, unmarshalQ_toJson_iff.mpr hq, (sameShape_iff hq).mpr h⟩

end Decoding

end StructuredQuery

end WptFyi.Webapp
