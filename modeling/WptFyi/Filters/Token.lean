import WptFyi.Filters.Query
import WptFyi.Lib.Fallible

/-!
# Filters as tokens

The token of a page is a filter in JSON and base64. Every field is a member of its own,
so reading a token is reading these members.

Decoding an object runs through its members and fills the fields in; a field whose member was left
out keeps its zero value. As `marshalJSON` writes each member once, the fields of the decoded filter
can be read off the list of written members (`fieldValues_member`), and what is left is one lemma
for each kind of field. The times are written in JSON with all digits of their fraction, so unlike a
link a token keeps them; its zones must be less than a day, since otherwise `MarshalJSON` fails and
the token is that of an empty text.

- `pointerField_map`, `sliceField_stringArray`: a field that was written as a member;
- `unmarshalJSON_writtenMembers`: all of them;
- `tokenReturns_iff`: which filters come back from their tokens.
-/

namespace WptFyi.Filters

open Lib Lib.GoStrings Shared

/-! ## Members

A field that was written once is the only one of its name, and what is not written stays empty. -/

section Members

variable {ms : List (String × Json)} {name : String}

theorem fieldValues_append (ms ms' : List (String × Json)) :
    Json.fieldValues name (ms ++ ms') = Json.fieldValues name ms ++ Json.fieldValues name ms' := by
  rw [Json.fieldValues, List.filter_append, List.map_append]
  rfl

theorem fieldValues_member (key : String) (value : Option Json) :
    Json.fieldValues name (member key value) =
      if Json.foldsTo key name then value.toList else [] := by
  cases value with
  | none => split_ifs <;> rfl
  | some value =>
    show (([(key, value)].filter _).map _) = _
    rw [List.filter_singleton, cond_eq_ite]
    show (if Json.foldsTo key name = true then [(key, value)] else []).map Prod.snd = _
    split_ifs <;> rfl

theorem decodePointer_of_ne_null {α : Type} {decode : Json → Option α} {value : Json}
    (h : value ≠ .null) : decodePointer decode value = (decode value).map some := by
  cases value with
  | null => exact absurd rfl h
  | _ => rfl

/-- A field behind a pointer that was written. -/
theorem pointerField_map {α β : Type} {decode : Json → Option β} {encode : α → Json} {read : α → β}
    {a : Option α} (hvalues : Json.fieldValues name ms = (a.map encode).toList)
    (h : ∀ a' ∈ a, encode a' ≠ .null ∧ decode (encode a') = some (read a')) :
    pointerField decode name ms = some (a.map read) := by
  rw [pointerField, hvalues]
  cases a with
  | none => rfl
  | some a =>
    obtain ⟨hnull, hdecode⟩ := h a rfl
    show (List.foldlM _ none [encode a]) = _
    rw [List.foldlM_cons, decodePointer_of_ne_null hnull, hdecode]
    rfl

theorem mapM_zipIdx {α β : Type} {f : α × Nat → Option β} {g : α → Option β}
    (h : ∀ a i, f (a, i) = g a) (l : List α) (n : Nat) : (l.zipIdx n).mapM f = l.mapM g := by
  induction l generalizing n with
  | nil => rfl
  | cons a l ih => rw [List.zipIdx_cons, List.mapM_cons, List.mapM_cons, h, ih]

/-- A slice that is decoded once holds the elements, each decoded on its own. -/
theorem decodeSlice_array {α : Type} (decode : Option α → Json → Option α) (elems : List Json) :
    (decodeSlice decode {} (.array elems)).map (fun s => s.backing.take s.len) =
      elems.mapM (decode none) := by
  cases elems with
  | nil => rfl
  | cons elem elems =>
    have hmap : ((elem :: elems).zipIdx.mapM fun entry : Json × Nat =>
        decode ([] : List α)[entry.2]? entry.1) = (elem :: elems).mapM (decode none) :=
      mapM_zipIdx (fun value i => rfl) _ 0
    rw [decodeSlice, hmap]
    · cases (elem :: elems).mapM (decode none) with
      | none => rfl
      | some decoded =>
        show some ((decoded ++ [].drop decoded.length).take decoded.length) = _
        rw [List.drop_nil, List.append_nil, List.take_length]
    · exact fun h => nomatch h

/-- A slice that was written as an array. -/
theorem sliceField_array {α : Type} {decode : Option α → Json → Option α} {elems : List Json}
    (hvalues : Json.fieldValues name ms = if elems = [] then [] else [.array elems]) :
    sliceField decode name ms = elems.mapM (decode none) := by
  rw [sliceField, hvalues]
  split_ifs with hempty
  · rw [hempty]
    rfl
  · rw [← decodeSlice_array decode elems, List.foldlM_cons]
    cases decodeSlice decode {} (.array elems) <;> rfl

/-- A slice that was written as strings. -/
theorem sliceField_stringArray {α : Type} {decode : Option α → Json → Option α}
    {read : String → Option α} {strings : List String}
    (hvalues : Json.fieldValues name ms = (stringArray strings).toList)
    (h : ∀ s, decode none (.string s) = read s) :
    sliceField decode name ms = strings.mapM read := by
  have harray : Json.fieldValues name ms =
      if strings.map Json.string = [] then [] else [.array (strings.map Json.string)] := by
    rw [hvalues, stringArray]
    simp only [List.map_eq_nil_iff]
    split_ifs <;> rfl
  rw [sliceField_array harray, List.mapM_map]
  exact congrArg (fun f => List.mapM f strings) (funext h)

end Members

/-! ## Writing

The JSON as a list of members, each there when its field is not empty. Only a time can make it
fail, by its year or by its zone. -/

section Token

variable (order : RangeOrder String) (f : TestRunFilter)

def timeJson (t : GoTime) : Json := .string (String.ofList (t.format true))

theorem marshalTime_of_lt {t : Option GoTime}
    (h : ∀ t' ∈ t, t'.Valid ∧ t'.offset.natAbs < 24 * 60) :
    marshalTime t = some (t.map timeJson) := by
  cases t with
  | none => rfl
  | some t =>
    obtain ⟨hvalid, hoffset⟩ := h t rfl
    have hyear := hvalid.year
    rw [marshalTime, GoTime.formatStrict, if_neg (by omega)]
    rfl

theorem lt_of_marshalTime {t : Option GoTime} {json : Option Json} (h : marshalTime t = some json) :
    ∀ t' ∈ t, t'.offset.natAbs < 24 * 60 := by
  rintro t' rfl
  by_contra hoffset
  rw [marshalTime, GoTime.formatStrict, if_pos (Or.inr (by omega))] at h
  cases h

/-- What is written of a field. -/
def writtenMember (name : String) : Option Json :=
  if name = "shas" then stringArray f.shas
  else if name = "aligned" then f.aligned.map Json.bool
  else if name = "from" then f.fromTime.map timeJson
  else if name = "to" then f.toTime.map timeJson
  else if name = "maxcount" then f.maxCount.map fun n => .number (Json.intLiteral n)
  else if name = "offset" then f.offset.map fun n => .number (Json.intLiteral n)
  else if name = "products" then stringArray (f.products.map ProductSpec.string)
  else if name = "view" then f.view.map Json.string
  else if name = "labels" then stringArray (order f.labels).1
  else none

/-- The names of the fields, in the order of the members. -/
def fieldNames : List String :=
  ["shas", "aligned", "from", "to", "maxcount", "offset", "products", "view", "labels"]

def writtenMembers : List (String × Json) :=
  fieldNames.flatMap fun name => member name (writtenMember order f name)

theorem marshalJSON_of_lt (h : f.WellFormed) (hoffset : ∀ t ∈ f.times, t.offset.natAbs < 24 * 60) :
    f.marshalJSON order = some (.object (writtenMembers order f)) := by
  obtain ⟨hfrom, hto⟩ := (forall_times_iff f).mp hoffset
  rw [TestRunFilter.marshalJSON, marshalTime_of_lt fun t ht => ⟨h.fromTime t ht, hfrom t ht⟩,
    marshalTime_of_lt fun t ht => ⟨h.toTime t ht, hto t ht⟩, writtenMembers]
  simp only [fieldNames, List.flatMap_cons, List.flatMap_nil, List.append_nil, List.append_assoc]
  rfl

theorem lt_of_marshalJSON {json : Json} (h : f.marshalJSON order = some json) :
    ∀ t ∈ f.times, t.offset.natAbs < 24 * 60 := by
  obtain ⟨fromJson, hfrom, h⟩ := Option.bind_eq_some_iff.mp h
  obtain ⟨toJson, hto, -⟩ := Option.bind_eq_some_iff.mp h
  exact (forall_times_iff f).mpr ⟨lt_of_marshalTime hfrom, lt_of_marshalTime hto⟩

/-- A field of an object with one member for each name is decoded from its own member, if no other
name folds to it. -/
theorem fieldValues_flatMap {names : List String} (hnodup : names.Nodup)
    (hfolds : ∀ key ∈ names, ∀ name ∈ names, Json.foldsTo key name = decide (key = name))
    (written : String → Option Json) {name : String} (hname : name ∈ names) :
    Json.fieldValues name (names.flatMap fun key => member key (written key)) =
      (written name).toList := by
  have hloop : ∀ keys ⊆ names, keys.Nodup → Json.fieldValues name
      (keys.flatMap fun key => member key (written key)) =
        if name ∈ keys then (written name).toList else [] := by
    intro keys hkeys hnodup
    induction keys with
    | nil => rfl
    | cons key keys ih =>
      obtain ⟨hkey, hnodup⟩ := List.nodup_cons.mp hnodup
      obtain ⟨hmem, hkeys⟩ := List.cons_subset.mp hkeys
      rw [List.flatMap_cons, fieldValues_append, ih hkeys hnodup, fieldValues_member,
        hfolds key hmem name hname]
      by_cases heq : key = name
      · subst heq
        simp [hkey]
      · simp [heq, Ne.symm heq]
  rw [hloop names (List.Subset.refl names) hnodup, if_pos hname]

theorem fieldValues_writtenMembers {name : String} (hname : name ∈ fieldNames) :
    Json.fieldValues name (writtenMembers order f) = (writtenMember order f name).toList :=
  fieldValues_flatMap (by decide) (by decide +kernel) _ hname

/-- Every member is read again as it is. -/
theorem readable_writtenMembers (depth : Nat) :
    Json.Readable (depth + 2) (.object (writtenMembers order f)) := by
  have hstrings : ∀ strings, ∀ json ∈ stringArray strings, Json.Readable (depth + 1) json := by
    intro strings json hjson
    rw [stringArray] at hjson
    split_ifs at hjson
    · cases hjson
    · obtain rfl := Option.some.inj hjson
      refine .array fun elem helem => ?_
      obtain ⟨s, -, rfl⟩ := List.mem_map.mp helem
      exact .string _ s
  have hmap : ∀ {α : Type} {a : Option α} {encode : α → Json},
      (∀ a, Json.Readable (depth + 1) (encode a)) → ∀ json ∈ a.map encode,
        Json.Readable (depth + 1) json := by
    intro α a encode h json hjson
    obtain ⟨a', -, rfl⟩ := Option.map_eq_some_iff.mp hjson
    exact h a'
  -- one fact for each kind of member
  have hwritten : ∀ name, ∀ json ∈ writtenMember order f name,
      Json.Readable (depth + 1) json := by
    intro name
    unfold writtenMember
    split_ifs
    · exact hstrings _
    · exact hmap fun b => .bool _ b
    · exact hmap fun t => .string _ _
    · exact hmap fun t => .string _ _
    · exact hmap fun n => .number _ n
    · exact hmap fun n => .number _ n
    · exact hstrings _
    · exact hmap fun view => .string _ view
    · exact hstrings _
    · exact fun json hjson => nomatch hjson
  refine .object fun m hm => ?_
  obtain ⟨name, -, hm⟩ := List.mem_flatMap.mp hm
  obtain ⟨json, hjson, rfl⟩ := Option.map_eq_some_iff.mp (Option.mem_toList.mp hm)
  exact hwritten name json hjson

/-! ## Reading

Each field is read as it was written but for the products, which are written as texts and parsed
again. -/

variable (m : LowerCase)

/-- **What was written** is read again, but for products that are not accepted. -/
theorem unmarshalJSON_writtenMembers (h : f.WellFormed)
    (hoffset : ∀ t ∈ f.times, t.offset.natAbs < 24 * 60) :
    unmarshalJSON m (.object (writtenMembers order f)) =
      ((f.products.map ProductSpec.string).mapM (acceptedSpec m)).map
        fun products => { f with products } := by
  have hvalues := fun name => @fieldValues_writtenMembers order f name
  -- a list and a pointer, whatever the name of the field
  have hstrings : ∀ {name : String} {strings : List String},
      Json.fieldValues name (writtenMembers order f) = (stringArray strings).toList →
        sliceField decodeElem name (writtenMembers order f) = some strings := fun hvalues =>
    (sliceField_stringArray hvalues fun _ => rfl).trans <|
      (mapM_eq_some (g := id) fun _ _ => rfl).trans (congrArg some (List.map_id _))
  have hpointer : ∀ {name : String} {α : Type} {decode : Json → Option α} {encode : α → Json}
      {a : Option α}, Json.fieldValues name (writtenMembers order f) = (a.map encode).toList →
        (∀ a' ∈ a, encode a' ≠ .null ∧ decode (encode a') = some a') →
          pointerField decode name (writtenMembers order f) = some a := by
    intro name α decode encode a hvalues hread
    rw [pointerField_map hvalues hread, Option.map_id']
  have htime : ∀ t : GoTime, t.Valid → t.offset.natAbs < 24 * 60 →
      timeJson t ≠ .null ∧ decodeTime (timeJson t) = some t := by
    intro t hvalid ht
    refine ⟨nofun, ?_⟩
    show GoTime.parse GoTime.rfc3339 (String.ofList (t.format true)).toList = _
    rw [String.toList_ofList, GoTime.parse_format hvalid (by omega)]
    rfl
  obtain ⟨hfromOffset, htoOffset⟩ := (forall_times_iff f).mp hoffset
  have hshas := hstrings (hvalues "shas" (by decide))
  have haligned : pointerField decodeBool "aligned" (writtenMembers order f) = some f.aligned :=
    hpointer (hvalues "aligned" (by decide)) fun b _ => ⟨nofun, rfl⟩
  have hfrom : pointerField decodeTime "from" (writtenMembers order f) = some f.fromTime :=
    hpointer (hvalues "from" (by decide)) fun t ht => htime t (h.fromTime t ht) (hfromOffset t ht)
  have hto : pointerField decodeTime "to" (writtenMembers order f) = some f.toTime :=
    hpointer (hvalues "to" (by decide)) fun t ht => htime t (h.toTime t ht) (htoOffset t ht)
  have hmaxCount : pointerField (Json.decodeInt 0) "maxcount" (writtenMembers order f) =
      some f.maxCount := hpointer (hvalues "maxcount" (by decide)) fun n hn =>
    ⟨nofun, Json.int64Literal_intLiteral (by have hbounds := h.maxCount n hn; omega)⟩
  have hoffsetField : pointerField (Json.decodeInt 0) "offset" (writtenMembers order f) =
      some f.offset := hpointer (hvalues "offset" (by decide)) fun n hn =>
    ⟨nofun, Json.int64Literal_intLiteral (h.offset n hn)⟩
  have hproducts : sliceField (fun _ value => decodeProductSpec m value) "products"
      (writtenMembers order f) = (f.products.map ProductSpec.string).mapM (acceptedSpec m) :=
    sliceField_stringArray (hvalues "products" (by decide)) fun _ => rfl
  have hview : pointerField (Json.decodeString "") "view" (writtenMembers order f) = some f.view :=
    hpointer (hvalues "view" (by decide)) fun view _ => ⟨nofun, rfl⟩
  have hlabels := hstrings (hvalues "labels" (by decide))
  rw [unmarshalJSON, Json.members]
  simp only [Option.bind_eq_bind, Option.bind_some, hshas, haligned, hfrom, hto, hmaxCount,
    hoffsetField, hproducts, hview, hlabels, (order f.labels).2.2]
  cases (f.products.map ProductSpec.string).mapM (acceptedSpec m) <;> rfl

/-- `ParsePageToken` gives the filter for its token. -/
def TokenReturns : Prop :=
  ∃ token g, f.token order = some token ∧
    parsePageToken m ((∅ : Values).set "page" token) = .ok (some g) ∧ SameFilter f g

/-- A token leads back to what its JSON is decoded to. -/
theorem parsePageToken_encode_iff {json : Json} (hjson : json.Readable Json.maxNestingDepth)
    {g : TestRunFilter} : parsePageToken m ((∅ : Values).set "page"
      (String.ofList (Base64.encode json.toBytes))) = .ok (some g) ↔
        unmarshalJSON m json = some g := by
  have hbytes := Json.ofBytes_toBytes hjson
  have hdecode := Base64.decode_encode json.toBytes
  have hget : ((∅ : Values).set "page" (String.ofList (Base64.encode json.toBytes))).get "page" =
      String.ofList (Base64.encode json.toBytes) := by
    rw [Values.get, Values.all, Values.set, Finmap.lookup_insert]
    rfl
  have hne : String.ofList (Base64.encode json.toBytes) ≠ "" := by
    intro hempty
    -- no bytes denote a value
    rw [String.ofList_eq_empty_iff.mp hempty] at hdecode
    rw [← Option.some.inj hdecode] at hbytes
    cases hbytes
  rw [parsePageToken, hget]
  simp only [hne, if_false, String.toList_ofList, hdecode, Option.bind_some, hbytes]
  cases unmarshalJSON m json with
  | none =>
    refine iff_of_false (fun h => ?_) fun h => ?_
    · cases h
    · cases h
  | some g' =>
    constructor
    · intro h
      cases h
      rfl
    · intro h
      cases h
      rfl

/-- A list can be mapped into related values when each of its elements can. -/
theorem exists_mapM_iff {α β : Type} {g : α → Option β} {R : α → β → Prop} (l : List α) :
    (∃ l', l.mapM g = some l' ∧ List.Forall₂ R l l') ↔ ∀ a ∈ l, ∃ b, g a = some b ∧ R a b := by
  induction l with
  | nil => exact iff_of_true ⟨[], rfl, .nil⟩ fun a ha => absurd ha List.not_mem_nil
  | cons a l ih =>
    rw [List.forall_mem_cons, ← ih, List.mapM_cons]
    constructor
    · rintro ⟨_, hall, hR⟩
      obtain ⟨b, hb, hall⟩ := Option.bind_eq_some_iff.mp hall
      obtain ⟨l', hl', hall⟩ := Option.bind_eq_some_iff.mp hall
      cases hall
      obtain ⟨hhead, htail⟩ := List.forall₂_cons.mp hR
      exact ⟨⟨b, hb, hhead⟩, l', hl', htail⟩
    · rintro ⟨⟨b, hb, hhead⟩, l', hl', htail⟩
      exact ⟨b :: l', by rw [hb, hl']; rfl, .cons hhead htail⟩

/-- A spec comes back when its text is accepted and means the same. -/
theorem comesBack_iff {p : ProductSpec} :
    ComesBack m p ↔ ∃ q, acceptedSpec m p.string = some q ∧ SameSpec p q := by
  rw [ComesBack, acceptedSpec]
  rcases parseProductSpec m p.string with ⟨q, _ | err⟩
  · refine ⟨fun h => ⟨q, rfl, h.2⟩, ?_⟩
    rintro ⟨_, hq, h⟩
    cases hq
    exact ⟨rfl, h⟩
  · refine iff_of_false (fun h => ?_) ?_
    · cases h.1
    · rintro ⟨_, hq, _⟩
      cases hq

/-- **A token** gives its filter again exactly when its zones are within a day and its
products come back. -/
theorem tokenReturns_iff (h : f.WellFormed) : TokenReturns order f m ↔
    (∀ t ∈ f.times, t.offset.natAbs < 24 * 60) ∧ ∀ p ∈ f.products, ComesBack m p := by
  have hread : (∀ p ∈ f.products, ComesBack m p) ↔ ∃ products,
      (f.products.map ProductSpec.string).mapM (acceptedSpec m) = some products ∧
        List.Forall₂ SameSpec f.products products := by
    rw [List.mapM_map, exists_mapM_iff]
    exact forall₂_congr fun p _ => comesBack_iff m
  have hjson := readable_writtenMembers order f 9998
  rw [hread]
  constructor
  · rintro ⟨token, g, htoken, hpage, hsame⟩
    obtain ⟨json, hmarshal, rfl⟩ := Option.map_eq_some_iff.mp htoken
    have hoffset := lt_of_marshalJSON order f hmarshal
    obtain rfl := Option.some.inj ((marshalJSON_of_lt order f h hoffset).symm.trans hmarshal)
    rw [parsePageToken_encode_iff m hjson,
      unmarshalJSON_writtenMembers order f m h hoffset] at hpage
    obtain ⟨products, hproducts, rfl⟩ := Option.map_eq_some_iff.mp hpage
    exact ⟨hoffset, products, hproducts, hsame.products⟩
  · rintro ⟨hoffset, products, hproducts, hsame⟩
    refine ⟨_, { f with products }, Option.map_eq_some_iff.mpr
      ⟨_, marshalJSON_of_lt order f h hoffset, rfl⟩, ?_, Or.inl rfl, rfl, rfl, rfl, rfl, rfl, rfl,
        hsame, rfl⟩
    rw [parsePageToken_encode_iff m hjson, unmarshalJSON_writtenMembers order f m h hoffset,
      hproducts]
    rfl

end Token

end WptFyi.Filters
