import WptFyi.Query.Encoding

/-!
# What `unmarshalQ` does with a document

The specification of decoding is proved attempt by attempt. For the attempt at a position,
`AttemptSpec` says when it comes to a nil pointer and, if it does not, which trees it returns.
Atoms of one family have one lemma, with the key and the constructor as parameters. The attempts
from a position on are put together by `firstDecoded_spec`, going down from the last one: there the
order counts, as an attempt that returns a tree or dereferences nil keeps the others from being
made.

The attempts with arguments call `unmarshalQ` again, so the whole is an induction over the
document, and their lemmas take the specification for what the document nests as a hypothesis
(`ChildrenSpec`).

- `attemptSpec_string`, `attemptSpec_status`, `attemptSpec_args`, ...: what one
  attempt does, for each family of atoms;
- `firstDecoded_spec`: what the attempts from a position on do together;
- `unmarshalQ_spec`: a tree that decodes is one the document encodes, a document
  that encodes a tree is not refused, and `ReadsNull` is exact.
-/

namespace WptFyi.Query

open Lib Lib.Json Lib.GoStrings Shared

/-! ## Outcomes -/

namespace Outcome

variable {α β : Type} {x : Outcome α} {f : α → Outcome β}

@[simp] theorem value_bind (a : α) (f : α → Outcome β) : (value a >>= f) = f a := rfl

@[simp] theorem error_bind (err : DecodeError) (f : α → Outcome β) :
    (error err >>= f) = error err := rfl

@[simp] theorem nilDeref_bind (f : α → Outcome β) : (nilDeref >>= f) = nilDeref := rfl

theorem bind_eq_value {b : β} : x >>= f = .value b ↔ ∃ a, x = .value a ∧ f a = .value b := by
  cases x <;> simp

theorem bind_eq_nilDeref :
    x >>= f = .nilDeref ↔ x = .nilDeref ∨ ∃ a, x = .value a ∧ f a = .nilDeref := by
  cases x <;> simp

theorem ofJson_eq_value {o : Option α} {a : α} : ofJson o = .value a ↔ o = some a := by
  cases o <;> simp [ofJson]

theorem ofJson_ne_nilDeref {o : Option α} : ofJson o ≠ .nilDeref := by
  cases o <;> simp [ofJson]

end Outcome

open Outcome

/-! ## Attempts at one node

For an atom, an attempt gives the query exactly when the node encodes it. Only the atoms that read
a pointer can panic. -/

section Attempts

variable {m : CaseTables} {b : Json} {i : Nat} {key : String}

theorem unmarshalEntry_eq_value {missing notString s : String} :
    unmarshalEntry key missing notString b = .value s ↔ EntryIs key s b := by
  unfold unmarshalEntry EntryIs
  rw [bind_eq_value]
  refine exists_congr fun ms => and_congr ofJson_eq_value ?_
  cases hlast : lastMember key ms with
  | none => simp
  | some value => cases value <;> simp

theorem unmarshalEntry_eq_nilDeref {missing notString : String} :
    unmarshalEntry key missing notString b = .nilDeref ↔
      ∃ ms, b.members = some ms ∧ lastMember key ms = some .null := by
  unfold unmarshalEntry
  rw [bind_eq_nilDeref, or_iff_right ofJson_ne_nilDeref]
  refine exists_congr fun ms => and_congr ofJson_eq_value ?_
  cases hlast : lastMember key ms with
  | none => simp
  | some value => cases value <;> simp

/-- Only lists, counts and `not` have arguments. -/
theorem not_nextArg_of_pointerKey {arg : Json} (hkey : (i, key) ∈ pointerKeys) :
    ¬ NextArg m i arg b := by
  have hpointer : i ∈ pointerKeys.map Prod.fst := List.mem_map_of_mem hkey
  have hnone : ∀ j ∈ pointerKeys.map Prod.fst,
      j ≠ 5 ∧ j ∉ listKeys.map Prod.fst ∧ j ∉ countKeys.map Prod.fst := by decide
  obtain ⟨hnot, hlist, hcount⟩ := hnone i hpointer
  intro h
  cases h with
  | not _ => exact hnot rfl
  | list hmem _ _ => exact hlist (List.mem_map_of_mem hmem)
  | count hmem _ => exact hcount (List.mem_map_of_mem hmem)

theorem nilAt_of_pointerKey (hkey : (i, key) ∈ pointerKeys) :
    NilAt m i b ↔ ∃ ms, b.members = some ms ∧ lastMember key ms = some .null := by
  have hunique : ∀ p ∈ pointerKeys, ∀ p' ∈ pointerKeys, p.1 = p'.1 → p = p' := by decide
  constructor
  · rintro (⟨key', ms, hkey', hms, hnull⟩ | ⟨_, hnext, _⟩)
    · obtain ⟨-, rfl⟩ := Prod.ext_iff.mp (hunique _ hkey' _ hkey rfl)
      exact ⟨ms, hms, hnull⟩
    · exact absurd hnext (not_nextArg_of_pointerKey hkey)
  · rintro ⟨ms, hms, hnull⟩
    exact Or.inl ⟨key, ms, hkey, hms, hnull⟩

/-- An attempt whose values are known exactly. -/
theorem attemptSpec_of_value {outcome : Outcome AbstractQuery}
    (hvalue : ∀ q, outcome = .value q ↔ q.position = i ∧ Encodes m q b)
    (hnil : outcome = .nilDeref ↔ NilAt m i b) : AttemptSpec m b i outcome where
  encodes q h := (hvalue q).mp h
  accepts q err hq hi := by
    rw [(hvalue q).mpr ⟨hi, hq⟩]
    simp
  nil_iff := hnil

/-- An attempt that reads a map entry and goes on with its string. -/
theorem attemptSpec_entry {missing notString : String} {f : String → Outcome AbstractQuery}
    (hkey : (i, key) ∈ pointerKeys) (hnil : ∀ s, f s ≠ .nilDeref)
    (hvalue : ∀ q, (∃ s, EntryIs key s b ∧ f s = .value q) ↔ q.position = i ∧ Encodes m q b) :
    AttemptSpec m b i (unmarshalEntry key missing notString b >>= f) := by
  refine attemptSpec_of_value (fun q => ?_) ?_
  · rw [bind_eq_value, ← hvalue q]
    exact exists_congr fun s => and_congr_left' unmarshalEntry_eq_value
  · rw [bind_eq_nilDeref, unmarshalEntry_eq_nilDeref, nilAt_of_pointerKey hkey, or_iff_left]
    rintro ⟨s, -, hs⟩
    exact hnil s hs

/-- An attempt whose atom is the string of a map entry. -/
theorem attemptSpec_string {missing notString : String} {atom : String → AbstractQuery}
    (hkey : (i, key) ∈ pointerKeys) (hposition : ∀ s, (atom s).position = i)
    (hencodes : ∀ s, Encodes m (atom s) b ↔ EntryIs key s b)
    (hatom : ∀ q : AbstractQuery, q.position = i → ∃ s, q = atom s) :
    AttemptSpec m b i (unmarshalEntry key missing notString b >>= fun s => .value (atom s)) := by
  refine attemptSpec_entry hkey (by simp) fun q => ⟨?_, ?_⟩
  · rintro ⟨s, hs, ⟨⟩⟩
    exact ⟨hposition s, (hencodes s).mpr hs⟩
  · rintro ⟨hi, hq⟩
    obtain ⟨s, rfl⟩ := hatom q hi
    exact ⟨s, (hencodes s).mp hq, rfl⟩

/-- The attempt for a quality, which is read through a pointer and must be known. -/
theorem attemptSpec_metadataQuality : AttemptSpec m b 16 (unmarshalMetadataQuality b) := by
  refine attemptSpec_entry (show (16, "is") ∈ pointerKeys by decide) (fun s => ?_) fun q => ⟨?_, ?_⟩
  · cases metadataQualityFromString s <;> simp
  · rintro ⟨s, hs, hq⟩
    cases hquality : metadataQualityFromString s with
    | none => simp [hquality] at hq
    | some quality =>
      rw [hquality] at hq
      cases hq
      exact ⟨rfl, s, hs, hquality⟩
  · rintro ⟨hi, hq⟩
    cases q <;> first | (simp [AbstractQuery.position] at hi; done) | skip
    obtain ⟨s, hs, hquality⟩ := hq
    exact ⟨s, hs, by rw [hquality]⟩

theorem optionalProduct_ne_nilDeref {text : String} : optionalProduct m text ≠ .nilDeref := by
  unfold optionalProduct
  split_ifs
  · simp
  · obtain ⟨p, hp | err⟩ := parseProductSpec m.lower text <;> simp

/-- The attempt for a triaged product, which may be the empty text for none. -/
theorem attemptSpec_triaged : AttemptSpec m b 17 (unmarshalTriaged m b) := by
  refine attemptSpec_entry (show (17, "triaged") ∈ pointerKeys by decide) (fun s => ?_) fun q =>
    ⟨?_, ?_⟩
  · rw [Ne, bind_eq_nilDeref]
    rintro (hnil | ⟨_, _, ⟨⟩⟩)
    exact optionalProduct_ne_nilDeref hnil
  · rintro ⟨s, hs, hq⟩
    obtain ⟨product, hproduct, ⟨⟩⟩ := bind_eq_value.mp hq
    exact ⟨rfl, s, hs, hproduct⟩
  · rintro ⟨hi, hq⟩
    cases q <;> first | (simp [AbstractQuery.position] at hi; done) | skip
    obtain ⟨s, hs, hproduct⟩ := hq
    exact ⟨s, hs, bind_eq_value.mpr ⟨_, hproduct, rfl⟩⟩

/-! ## The statuses -/

section Status

variable {statusField : List (String × Json) → Option String} {missing : String}
  {shown : String → String} {atom : Option ProductSpec → TestStatus → AbstractQuery}

/-- A status atom is returned where the document has a status that is known and no product, or one
that is accepted. -/
theorem unmarshalStatus_eq_value {q : AbstractQuery} :
    unmarshalStatus m statusField missing shown atom b = .value q ↔
      ∃ product status, q = atom product status ∧ StatusIs m statusField product status b := by
  unfold unmarshalStatus StatusIs
  simp only [bind_eq_value, ofJson_eq_value]
  constructor
  · rintro ⟨ms, hms, browserName, hbrowser, text, htext, name, hname, hq⟩
    -- an empty status is reported before the product is parsed
    by_cases hempty : name = ""
    · simp [hempty] at hq
    · rw [if_neg hempty] at hq
      obtain ⟨product, hproduct, hq⟩ := bind_eq_value.mp hq
      cases hstatus : readStatus m name with
      | none => simp [hstatus] at hq
      | some status =>
        rw [hstatus] at hq
        cases hq
        exact ⟨product, status, rfl, ms, browserName, text, name, hms, hbrowser, htext, hname,
          hempty, hproduct, hstatus⟩
  · rintro ⟨product, status, rfl, ms, browserName, text, name, hms, hbrowser, htext, hname,
      hempty, hproduct, hstatus⟩
    refine ⟨ms, hms, browserName, hbrowser, text, htext, name, hname, ?_⟩
    rw [if_neg hempty]
    exact bind_eq_value.mpr ⟨product, hproduct, by rw [hstatus]⟩

theorem unmarshalStatus_ne_nilDeref :
    unmarshalStatus m statusField missing shown atom b ≠ .nilDeref := by
  unfold unmarshalStatus
  simp only [Ne, bind_eq_nilDeref, ofJson_ne_nilDeref, false_or, not_exists, not_and]
  intro ms _ browserName _ text _ name _
  by_cases hempty : name = ""
  · simp [hempty]
  · rw [if_neg hempty, bind_eq_nilDeref]
    rintro (hnil | ⟨product, _, hmatch⟩)
    · exact optionalProduct_ne_nilDeref hnil
    · cases hstatus : readStatus m name <;> simp [hstatus] at hmatch

/-- Neither status has a pointer or an argument. -/
theorem not_nilAt_of_status (h : i = 3 ∨ i = 4) : ¬ NilAt m i b := by
  rintro (⟨key, _, hkey, _⟩ | ⟨_, hnext, _⟩)
  · rcases h with rfl | rfl <;> simp [pointerKeys] at hkey
  · cases hnext with
    | not _ => simp at h
    | list hmem _ _ => rcases h with rfl | rfl <;> simp [listKeys] at hmem
    | count hmem _ => rcases h with rfl | rfl <;> simp [countKeys] at hmem

/-- The two attempts for a status, which differ in the field and the atom. -/
theorem attemptSpec_status (hi : i = 3 ∨ i = 4) (hposition : ∀ p s, (atom p s).position = i)
    (hencodes : ∀ p s, Encodes m (atom p s) b ↔ StatusIs m statusField p s b)
    (hatom : ∀ q : AbstractQuery, q.position = i → ∃ p s, q = atom p s) :
    AttemptSpec m b i (unmarshalStatus m statusField missing shown atom b) := by
  refine attemptSpec_of_value (fun q => ?_)
    (iff_of_false unmarshalStatus_ne_nilDeref (not_nilAt_of_status hi))
  rw [unmarshalStatus_eq_value]
  constructor
  · rintro ⟨product, status, rfl, hstatus⟩
    exact ⟨hposition _ _, (hencodes _ _).mpr hstatus⟩
  · rintro ⟨hq, hstatus⟩
    obtain ⟨product, status, rfl⟩ := hatom q hq
    exact ⟨product, status, rfl, (hencodes _ _).mp hstatus⟩

end Status

end Attempts

/-! ## Raw messages

The messages of a node are its children, so what is shown of the children by induction is known of
them. -/

section Messages

variable {m : CaseTables} {b : Json}

/-- The raw message of a value. -/
def messageOf (m : CaseTables) (value : Json) : Message :=
  { json := value, query := unmarshalQ m value, elems := sliceQueries m value }

theorem messages_eq_map (ms : List (String × Json)) :
    messages m ms = ms.map fun member => (member.1, messageOf m member.2) := by
  induction ms with
  | nil => rfl
  | cons member ms ih => rw [messages, ih, List.map_cons]; rfl

theorem elemQueries_eq_map (elems : List Json) :
    elemQueries m elems = elems.map (unmarshalQ m) := by
  induction elems with
  | nil => rfl
  | cons elem elems ih => rw [elemQueries, ih, List.map_cons]

theorem sliceQueries_eq (value : Json) :
    sliceQueries m value = (decodeRawSlice value).map (List.map (unmarshalQ m)) := by
  cases value <;> simp [sliceQueries, decodeRawSlice, elemQueries_eq_map]

theorem fieldValues_messages (name : String) (ms : List (String × Json)) :
    fieldValues name (messages m ms) = (fieldValues name ms).map (messageOf m) := by
  rw [fieldValues, fieldValues, messages_eq_map, List.filter_map, List.map_map, List.map_map]
  rfl

theorem rawField_messages (name : String) (ms : List (String × Json)) :
    rawField name (messages m ms) = (rawField name ms).map (messageOf m) := by
  rw [rawField, rawField, fieldValues_messages, List.getLast?_map]

/-- The raw messages of a list field are those of its elements. -/
theorem rawSliceField_messages (name : String) (ms : List (String × Json)) :
    (fieldValues name (messages m ms)).foldlM (fun _ message => message.elems) [] =
      (rawSliceField name ms).map (List.map (unmarshalQ m)) := by
  have hloop : ∀ (values start : List Json),
      (values.map (messageOf m)).foldlM (fun _ message => message.elems)
          (start.map (unmarshalQ m)) =
        (values.foldlM (fun _ value => decodeRawSlice value) start).map
          (List.map (unmarshalQ m)) := by
    intro values
    induction values with
    | nil => exact fun _ => rfl
    | cons value values ih =>
      intro start
      rw [List.map_cons, List.foldlM_cons, List.foldlM_cons]
      simp only [messageOf, sliceQueries_eq]
      cases decodeRawSlice value with
      | none => rfl
      | some elems => exact ih elems
  rw [fieldValues_messages, rawSliceField]
  exact hloop _ []

theorem unmarshalQ_eq (b : Json) :
    unmarshalQ m b = firstDecoded (attempts m b (b.members.map (messages m))) := by
  cases b <;> simp [unmarshalQ, Json.members, messages]

/-! ## Attempts with arguments

The same for queries with arguments, given what is known of the messages they decode. The first
message that fails or panics decides. -/

/-- Every argument decodes as it should. -/
def ChildrenSpec (m : CaseTables) (b : Json) : Prop :=
  ∀ value, Child value b → DecodeSpec m value (unmarshalQ m value)

theorem ArgIs.child {key : String} {value : Json} (h : ArgIs key value b) : Child value b := by
  obtain ⟨ms, hms, hvalue⟩ := h
  obtain ⟨key', hmem⟩ := mem_of_rawField hvalue
  cases b <;> simp only [Json.members, Option.some_inj, reduceCtorEq] at hms
  · exact absurd (hms ▸ hmem) List.not_mem_nil
  · exact hms ▸ .member key' hmem

theorem ArgsAre.child {key : String} {elems : List Json} {value : Json} (h : ArgsAre key elems b)
    (hvalue : value ∈ elems) : Child value b := by
  obtain ⟨ms, hms, helems, hne⟩ := h
  obtain ⟨key', hmem⟩ := exists_of_rawSliceField helems hne
  cases b <;> simp only [Json.members, Option.some_inj, reduceCtorEq] at hms
  · exact absurd (hms ▸ hmem) List.not_mem_nil
  · exact hms ▸ .elem key' hmem hvalue

theorem CountIs.argIs {key : String} {n : Int} {value : Json} (h : CountIs key n value b) :
    ArgIs "where" value b := by
  obtain ⟨ms, _, hms, _, hvalue, _⟩ := h
  exact ⟨ms, hms, hvalue⟩

theorem NextArg.child {i : Nat} {value : Json} (h : NextArg m i value b) : Child value b := by
  cases h with
  | not harg => exact harg.child
  | list _ hargs _ => exact hargs.child (by simp)
  | count _ hcount => exact hcount.argIs.child

theorem bind_value_eq_nilDeref {α β : Type} {x : Outcome α} {f : α → β} :
    (x >>= fun a => .value (f a)) = .nilDeref ↔ x = .nilDeref := by
  cases x <;> simp

theorem bind_value_eq_error {α β : Type} {x : Outcome α} {f : α → β} {err : DecodeError} :
    (x >>= fun a => .value (f a)) = .error err ↔ x = .error err := by
  cases x <;> simp

/-- Decoding a negation, with what it nests decoded by `unmarshalQ`. -/
theorem unmarshalNot_eq (b : Json) :
    unmarshalNot (b.members.map (messages m)) = ofJson b.members >>= fun ms =>
      match rawField "not" ms with
      | none => .error (.message "missing negation property: \"not\"")
      | some arg => unmarshalQ m arg >>= fun q => .value (.abstractNot q) := by
  unfold unmarshalNot
  cases b.members with
  | none => rfl
  | some ms =>
    have hmessage := rawField_messages (m := m) "not" ms
    cases hraw : rawField "not" ms with
    | none =>
      rw [hraw] at hmessage
      simp [ofJson, hraw, hmessage]
    | some arg =>
      rw [hraw] at hmessage
      simp [ofJson, hraw, hmessage, messageOf]
      rfl

/-- It returns a tree where what it nests does. -/
theorem unmarshalNot_eq_value {q : AbstractQuery} :
    unmarshalNot (b.members.map (messages m)) = .value q ↔
      ∃ arg q', ArgIs "not" arg b ∧ unmarshalQ m arg = .value q' ∧ q = .abstractNot q' := by
  rw [unmarshalNot_eq, bind_eq_value]
  constructor
  · rintro ⟨ms, hms, hq⟩
    cases hraw : rawField "not" ms with
    | none => simp [hraw] at hq
    | some arg =>
      rw [hraw] at hq
      obtain ⟨q', hq', ⟨⟩⟩ := bind_eq_value.mp hq
      exact ⟨arg, q', ⟨ms, ofJson_eq_value.mp hms, hraw⟩, hq', rfl⟩
  · rintro ⟨arg, q', ⟨ms, hms, hraw⟩, hq', rfl⟩
    refine ⟨ms, ofJson_eq_value.mpr hms, ?_⟩
    rw [hraw]
    exact bind_eq_value.mpr ⟨q', hq', rfl⟩

/-- The outcome of `not` is that of its argument, where there is one. -/
theorem unmarshalNot_of_argIs {arg : Json} (harg : ArgIs "not" arg b) :
    unmarshalNot (b.members.map (messages m)) =
      unmarshalQ m arg >>= fun q => .value (.abstractNot q) := by
  obtain ⟨ms, hms, hraw⟩ := harg
  rw [unmarshalNot_eq, ofJson_eq_value.mpr hms, value_bind, hraw]

/-- The attempt for a negation. -/
theorem attemptSpec_not (h : ChildrenSpec m b) :
    AttemptSpec m b 5 (unmarshalNot (b.members.map (messages m))) where
  encodes q hq := by
    obtain ⟨arg, q', harg, hq', rfl⟩ := unmarshalNot_eq_value.mp hq
    exact ⟨rfl, arg, harg, (h arg harg.child).encodes q' hq'⟩
  accepts q err hq hi := by
    cases q <;> first | (simp [AbstractQuery.position] at hi; done) | skip
    obtain ⟨arg, harg, hq⟩ := hq
    rw [unmarshalNot_of_argIs harg]
    exact fun herr => (h arg harg.child).accepts _ err hq (bind_value_eq_error.mp herr)
  nil_iff := by
    constructor
    · -- `not` has no pointer of its own, so nil comes from its argument
      intro hnil
      rw [unmarshalNot_eq, bind_eq_nilDeref, or_iff_right ofJson_ne_nilDeref] at hnil
      obtain ⟨ms, hms, hnil⟩ := hnil
      cases hraw : rawField "not" ms with
      | none => simp [hraw] at hnil
      | some arg =>
        rw [hraw] at hnil
        have harg : ArgIs "not" arg b := ⟨ms, ofJson_eq_value.mp hms, hraw⟩
        exact Or.inr ⟨arg, .not harg, (h arg harg.child).nil_iff.mp
          (bind_value_eq_nilDeref.mp hnil)⟩
    · rintro (⟨key, _, hkey, _⟩ | ⟨arg, hnext, hread⟩)
      · simp [pointerKeys] at hkey
      · cases hnext with
        | not harg =>
          rw [unmarshalNot_of_argIs harg]
          exact bind_value_eq_nilDeref.mpr ((h arg harg.child).nil_iff.mpr hread)
        | list hmem _ _ => simp [listKeys] at hmem
        | count hmem _ => simp [countKeys] at hmem

/-- The arguments of a list, one after the other. -/
theorem collectArgs_spec {elems : List Json}
    (h : ∀ value ∈ elems, DecodeSpec m value (unmarshalQ m value)) :
    (∀ qs, collectArgs (elems.map (unmarshalQ m)) = .value qs → EncodesArgs m qs elems) ∧
      (∀ qs err, EncodesArgs m qs elems → collectArgs (elems.map (unmarshalQ m)) ≠ .error err) ∧
      (collectArgs (elems.map (unmarshalQ m)) = .nilDeref ↔ ∃ before value after,
        elems = before ++ value :: after ∧ (∀ a ∈ before, IsQuery m a) ∧ ReadsNull m value) := by
  induction elems with
  | nil =>
    refine ⟨?_, ?_, ?_⟩
    · rintro qs ⟨⟩
      trivial
    · simp [collectArgs]
    · simp [collectArgs]
  | cons elem elems ih =>
    obtain ⟨hencodes, haccepts, hnil⟩ := ih fun value hvalue =>
      h value (List.mem_cons_of_mem _ hvalue)
    have helem := h elem List.mem_cons_self
    rw [List.map_cons]
    unfold collectArgs
    refine ⟨?_, ?_, ?_⟩
    · intro qs hqs
      obtain ⟨q, hq, hqs⟩ := bind_eq_value.mp hqs
      obtain ⟨rest, hrest, ⟨⟩⟩ := bind_eq_value.mp hqs
      exact ⟨helem.encodes q hq, hencodes rest hrest⟩
    · intro qs err hqs
      cases qs with
      | nil => exact absurd hqs (by simp [EncodesArgs])
      | cons q qs =>
        obtain ⟨hq, hqs⟩ := hqs
        -- the first argument that is no query decides
        cases hout : unmarshalQ m elem with
        | error err' => exact absurd hout (helem.accepts q err' hq)
        | nilDeref => simp
        | value q' =>
          rw [value_bind]
          exact fun herr => haccepts qs err hqs (bind_value_eq_error.mp herr)
    · rw [bind_eq_nilDeref, helem.nil_iff]
      -- nil is read at the first argument, or at a later one after queries only
      constructor
      · rintro (hread | ⟨q, hq, hrest⟩)
        · exact ⟨[], elem, elems, rfl, by simp, hread⟩
        · obtain ⟨before, value, after, rfl, hbefore, hread⟩ :=
            hnil.mp (bind_value_eq_nilDeref.mp hrest)
          refine ⟨elem :: before, value, after, rfl, ?_, hread⟩
          exact List.forall_mem_cons.mpr ⟨⟨q, helem.encodes q hq⟩, hbefore⟩
      · rintro ⟨before, value, after, heq, hbefore, hread⟩
        cases before with
        | nil =>
          obtain ⟨rfl, rfl⟩ := List.cons.inj heq
          exact Or.inl hread
        | cons first before =>
          obtain ⟨rfl, rfl⟩ := List.cons.inj heq
          obtain ⟨⟨q, hq⟩, hbefore⟩ := List.forall_mem_cons.mp hbefore
          cases hout : unmarshalQ m elem with
          | error err => exact absurd hout (helem.accepts q err hq)
          | nilDeref => exact Or.inl (helem.nil_iff.mp hout)
          | value q' =>
            exact Or.inr ⟨q', rfl, bind_value_eq_nilDeref.mpr
              (hnil.mpr ⟨before, value, after, rfl, hbefore, hread⟩)⟩

section Args

variable {i : Nat} {key missing : String} {atom : List AbstractQuery → AbstractQuery}

/-- Without a list, or with an empty one, the attempt is an error. -/
theorem unmarshalArgs_cases (key missing : String) (atom : List AbstractQuery → AbstractQuery)
    (b : Json) :
    (∃ err, (∀ elems, ¬ ArgsAre key elems b) ∧
      unmarshalArgs key missing atom (b.members.map (messages m)) = .error err) ∨
    ∃ elems, ArgsAre key elems b ∧
      unmarshalArgs key missing atom (b.members.map (messages m)) =
        collectArgs (elems.map (unmarshalQ m)) >>= fun qs => .value (atom qs) := by
  unfold unmarshalArgs ArgsAre
  cases hms : b.members with
  | none => exact Or.inl ⟨_, by simp, rfl⟩
  | some ms =>
    simp only [Option.map_some, ofJson, value_bind, rawSliceField_messages]
    cases hraw : rawSliceField key ms with
    | none => exact Or.inl ⟨_, by simp [hraw], rfl⟩
    | some elems =>
      simp only [Option.map_some, value_bind]
      by_cases hempty : elems = []
      · subst hempty
        exact Or.inl ⟨_, by simp [hraw], rfl⟩
      · refine Or.inr ⟨elems, ⟨ms, rfl, hraw, hempty⟩, ?_⟩
        rw [if_neg (by simpa using hempty)]
        rfl

theorem ArgsAre.unique {elems elems' : List Json} (h : ArgsAre key elems b)
    (h' : ArgsAre key elems' b) : elems = elems' := by
  obtain ⟨ms, hms, helems, -⟩ := h
  obtain ⟨ms', hms', helems', -⟩ := h'
  rw [hms, Option.some_inj] at hms'
  subst hms'
  rw [helems, Option.some_inj] at helems'
  exact helems'

/-- The attempts for a list of arguments, which differ in the key and the atom. -/
theorem attemptSpec_args (h : ChildrenSpec m b) (hkey : (i, key) ∈ listKeys)
    (hposition : ∀ qs, (atom qs).position = i)
    (hencodes : ∀ qs, Encodes m (atom qs) b ↔ ∃ elems, ArgsAre key elems b ∧ EncodesArgs m qs elems)
    (hatom : ∀ q : AbstractQuery, q.position = i → ∃ qs, q = atom qs) :
    AttemptSpec m b i (unmarshalArgs key missing atom (b.members.map (messages m))) := by
  have hnilAt : NilAt m i b ↔ ∃ before value after, ArgsAre key (before ++ value :: after) b ∧
      (∀ a ∈ before, IsQuery m a) ∧ ReadsNull m value := by
    -- the attempts have different positions, and one key each
    have hdisjoint : ∀ p ∈ listKeys, p.1 ≠ 5 ∧ p.1 ∉ pointerKeys.map Prod.fst ∧
        p.1 ∉ countKeys.map Prod.fst ∧ ∀ p' ∈ listKeys, p'.1 = p.1 → p'.2 = p.2 := by decide
    obtain ⟨hnot, hpointer, hcount, hunique⟩ := hdisjoint _ hkey
    constructor
    · rintro (⟨_, _, hkey', _⟩ | ⟨value, hnext, hread⟩)
      · exact absurd (List.mem_map_of_mem hkey') hpointer
      · cases hnext with
        | not _ => exact absurd rfl hnot
        | list hmem hargs hbefore =>
          obtain rfl := hunique _ hmem rfl
          exact ⟨_, value, _, hargs, hbefore, hread⟩
        | count hmem _ => exact absurd (List.mem_map_of_mem hmem) hcount
    · rintro ⟨before, value, after, hargs, hbefore, hread⟩
      exact Or.inr ⟨value, .list hkey hargs hbefore, hread⟩
  rcases unmarshalArgs_cases key missing atom b with
    ⟨err, hnone, herr⟩ | ⟨elems, hargs, heq⟩
  · rw [herr]
    refine ⟨by simp, ?_, ?_⟩
    · intro q _ hq hi
      obtain ⟨qs, rfl⟩ := hatom q hi
      obtain ⟨elems, hargs, -⟩ := (hencodes qs).mp hq
      exact absurd hargs (hnone elems)
    · rw [hnilAt]
      refine iff_of_false (by simp) ?_
      rintro ⟨before, value, after, hargs, -⟩
      exact hnone _ hargs
  · obtain ⟨hcollect, haccepts, hnil⟩ := collectArgs_spec fun value hvalue =>
      h value (hargs.child hvalue)
    rw [heq]
    refine ⟨?_, ?_, ?_⟩
    · intro q hq
      obtain ⟨qs, hqs, ⟨⟩⟩ := bind_eq_value.mp hq
      exact ⟨hposition qs, (hencodes qs).mpr ⟨elems, hargs, hcollect qs hqs⟩⟩
    · intro q err hq hi herr
      obtain ⟨qs, rfl⟩ := hatom q hi
      obtain ⟨elems', hargs', hqs⟩ := (hencodes qs).mp hq
      obtain rfl := hargs.unique hargs'
      exact haccepts qs err hqs (bind_value_eq_error.mp herr)
    · rw [bind_value_eq_nilDeref, hnil, hnilAt]
      constructor
      · rintro ⟨before, value, after, rfl, hrest⟩
        exact ⟨before, value, after, hargs, hrest⟩
      · rintro ⟨before, value, after, hargs', hrest⟩
        exact ⟨before, value, after, hargs.unique hargs', hrest⟩

end Args

section Count

variable {i : Nat} {key : String} {atom : Int → AbstractQuery → AbstractQuery}

/-- Without a number, or without something to count, the attempt is an error. -/
theorem unmarshalCountOf_cases (key : String) (atom : Int → AbstractQuery → AbstractQuery)
    (b : Json) :
    (∃ err, (∀ n body, ¬ CountIs key n body b) ∧
      unmarshalCountOf key atom (b.members.map (messages m)) = .error err) ∨
    ∃ n body, CountIs key n body b ∧
      unmarshalCountOf key atom (b.members.map (messages m)) =
        unmarshalQ m body >>= fun q => .value (atom n q) := by
  unfold unmarshalCountOf CountIs
  cases hms : b.members with
  | none => exact Or.inl ⟨_, by simp, rfl⟩
  | some ms =>
    simp only [Option.map_some, ofJson, value_bind, rawField_messages]
    cases hcount : rawField key ms with
    | none => exact Or.inl ⟨_, by simp [hcount], rfl⟩
    | some count =>
      cases hbody : rawField "where" ms with
      | none => exact Or.inl ⟨_, by simp [hbody], rfl⟩
      | some body =>
        cases hn : decodeInt 0 count with
        | none => exact Or.inl ⟨_, by simp [hcount, hn], by simp [messageOf, hn]; rfl⟩
        | some n =>
          refine Or.inr ⟨n, body, ⟨ms, count, rfl, hcount, hbody, hn⟩, ?_⟩
          simp only [Option.map_some, messageOf, hn, value_bind]
          rfl

theorem CountIs.unique {n n' : Int} {body body' : Json} (h : CountIs key n body b)
    (h' : CountIs key n' body' b) : n = n' ∧ body = body' := by
  obtain ⟨ms, count, hms, hcount, hbody, hn⟩ := h
  obtain ⟨ms', count', hms', hcount', hbody', hn'⟩ := h'
  rw [hms, Option.some_inj] at hms'
  subst hms'
  rw [hcount, Option.some_inj] at hcount'
  subst hcount'
  rw [hn, Option.some_inj] at hn'
  rw [hbody, Option.some_inj] at hbody'
  exact ⟨hn', hbody'⟩

/-- The attempts for a count and its two variants. -/
theorem attemptSpec_count (h : ChildrenSpec m b) (hkey : (i, key) ∈ countKeys)
    (hposition : ∀ n q, (atom n q).position = i)
    (hencodes : ∀ n q, Encodes m (atom n q) b ↔ ∃ body, CountIs key n body b ∧ Encodes m q body)
    (hatom : ∀ q : AbstractQuery, q.position = i → ∃ n arg, q = atom n arg) :
    AttemptSpec m b i (unmarshalCountOf key atom (b.members.map (messages m))) := by
  have hnilAt : NilAt m i b ↔ ∃ n value, CountIs key n value b ∧ ReadsNull m value := by
    -- the attempts have different positions, and one key each
    have hdisjoint : ∀ p ∈ countKeys, p.1 ≠ 5 ∧ p.1 ∉ pointerKeys.map Prod.fst ∧
        p.1 ∉ listKeys.map Prod.fst ∧ ∀ p' ∈ countKeys, p'.1 = p.1 → p'.2 = p.2 := by decide
    obtain ⟨hnot, hpointer, hlist, hunique⟩ := hdisjoint _ hkey
    constructor
    · rintro (⟨_, _, hkey', _⟩ | ⟨value, hnext, hread⟩)
      · exact absurd (List.mem_map_of_mem hkey') hpointer
      · cases hnext with
        | not _ => exact absurd rfl hnot
        | list hmem _ _ => exact absurd (List.mem_map_of_mem hmem) hlist
        | count hmem hcount =>
          obtain rfl := hunique _ hmem rfl
          exact ⟨_, value, hcount, hread⟩
    · rintro ⟨n, value, hcount, hread⟩
      exact Or.inr ⟨value, .count hkey hcount, hread⟩
  rcases unmarshalCountOf_cases key atom b with
    ⟨err, hnone, herr⟩ | ⟨n, body, hcount, heq⟩
  · rw [herr]
    refine ⟨by simp, ?_, ?_⟩
    · intro q _ hq hi
      obtain ⟨n, arg, rfl⟩ := hatom q hi
      obtain ⟨body, hcount, -⟩ := (hencodes n arg).mp hq
      exact absurd hcount (hnone n body)
    · rw [hnilAt]
      refine iff_of_false (by simp) ?_
      rintro ⟨n, value, hcount, -⟩
      exact hnone n value hcount
  · have hbody := h body hcount.argIs.child
    rw [heq]
    refine ⟨?_, ?_, ?_⟩
    · intro q hq
      obtain ⟨q', hq', ⟨⟩⟩ := bind_eq_value.mp hq
      exact ⟨hposition n q', (hencodes n q').mpr ⟨body, hcount, hbody.encodes q' hq'⟩⟩
    · intro q err hq hi herr
      obtain ⟨n', arg, rfl⟩ := hatom q hi
      obtain ⟨body', hcount', harg'⟩ := (hencodes n' arg).mp hq
      obtain ⟨-, rfl⟩ := hcount.unique hcount'
      exact hbody.accepts arg err harg' (bind_value_eq_error.mp herr)
    · rw [bind_value_eq_nilDeref, hbody.nil_iff, hnilAt]
      constructor
      · exact fun hread => ⟨n, body, hcount, hread⟩
      · rintro ⟨n', value, hcount', hread⟩
        obtain ⟨-, rfl⟩ := hcount.unique hcount'
        exact hread

end Count

end Messages

/-! ## All attempts

The first attempt that does not fail decides. So a `null` is met only if no attempt before the one
that reads it returns a tree. -/

section Trees

variable {m : CaseTables} {b : Json}

theorem position_lt_of_encodes {q : AbstractQuery} (h : Encodes m q b) : q.position < 20 := by
  cases q with
  | trueQ => exact absurd h (by simp [Encodes])
  | _ => simp [AbstractQuery.position]

theorem lt_of_nilAt {i : Nat} (h : NilAt m i b) : i < 20 := by
  have hkeys : ∀ p ∈ pointerKeys ++ listKeys ++ countKeys, p.1 < 20 := by decide
  rcases h with ⟨key, _, hkey, _⟩ | ⟨_, hnext, _⟩
  · exact hkeys (i, key) (by simp [hkey])
  · cases hnext with
    | not _ => decide
    | @list _ key _ _ _ _ hmem _ _ => exact hkeys (i, key) (by simp [hmem])
    | @count _ key _ _ _ hmem _ => exact hkeys (i, key) (by simp [hmem])

/-- What the attempts from a position on do together. -/
theorem firstDecoded_spec {i : Nat} {outcomes : List (Outcome AbstractQuery)}
    (h : AttemptsFrom m b i outcomes) :
    (∀ q, firstDecoded outcomes = .value q → i ≤ q.position ∧ Encodes m q b) ∧
      (∀ q err, Encodes m q b → i ≤ q.position → firstDecoded outcomes ≠ .error err) ∧
      (firstDecoded outcomes = .nilDeref ↔ ∃ j, i ≤ j ∧ NilAt m j b ∧
        ∀ q, Encodes m q b → i ≤ q.position → j ≤ q.position) := by
  induction outcomes generalizing i with
  | nil =>
    obtain rfl : i = 20 := h
    refine ⟨by simp [firstDecoded], ?_, ?_⟩
    · intro q _ hq hi
      have hlt := position_lt_of_encodes hq
      omega
    · refine iff_of_false (by simp [firstDecoded]) ?_
      rintro ⟨j, hj, hnil, -⟩
      have hlt := lt_of_nilAt hnil
      omega
  | cons outcome outcomes ih =>
    obtain ⟨hspec, hrest⟩ := h
    obtain ⟨hencodes, haccepts, hnil⟩ := ih hrest
    cases outcome with
    | value q =>
      -- this attempt decides: no later nil pointer is come to
      obtain ⟨hi, hq⟩ := hspec.encodes q rfl
      refine ⟨?_, by simp [firstDecoded], ?_⟩
      · rintro _ ⟨⟩
        exact ⟨hi.ge, hq⟩
      · refine iff_of_false (by simp [firstDecoded]) ?_
        rintro ⟨j, hj, hnilAt, hfirst⟩
        obtain rfl : j = i := le_antisymm (hi ▸ hfirst q hq hi.ge) hj
        exact absurd (hspec.nil_iff.mpr hnilAt) (by simp)
    | nilDeref =>
      refine ⟨by simp [firstDecoded], by simp [firstDecoded], ?_⟩
      exact iff_of_true rfl ⟨i, le_rfl, hspec.nil_iff.mp rfl, fun _ _ hi => hi⟩
    | error err =>
      -- nothing at this position, so the later ones decide
      have hlater : ∀ q, Encodes m q b → i ≤ q.position → i + 1 ≤ q.position := by
        intro q hq hi
        have hne : q.position ≠ i := fun heq => hspec.accepts q err hq heq rfl
        omega
      refine ⟨?_, ?_, ?_⟩
      · intro q hq
        obtain ⟨hi, hq⟩ := hencodes q hq
        exact ⟨by omega, hq⟩
      · exact fun q err' hq hi => haccepts q err' hq (hlater q hq hi)
      · show firstDecoded outcomes = .nilDeref ↔ _
        rw [hnil]
        constructor
        · rintro ⟨j, hj, hnilAt, hfirst⟩
          exact ⟨j, by omega, hnilAt, fun q hq hi => hfirst q hq (hlater q hq hi)⟩
        · rintro ⟨j, hj, hnilAt, hfirst⟩
          have hne : j ≠ i := by
            rintro rfl
            exact absurd (hspec.nil_iff.mpr hnilAt) (by simp)
          exact ⟨j, by omega, hnilAt, fun q hq hi => hfirst q hq (by omega)⟩

/-- **All attempts**, in their order. -/
theorem attempts_spec (h : ChildrenSpec m b) :
    AttemptsFrom m b 0 (attempts m b (b.members.map (messages m))) := by
  refine ⟨attemptSpec_string (by decide) (fun _ => rfl) (fun _ => by rw [Encodes]) ?_,
    attemptSpec_string (by decide) (fun _ => rfl) (fun _ => by rw [Encodes]) ?_,
    attemptSpec_string (by decide) (fun _ => rfl) (fun _ => by rw [Encodes]) ?_,
    attemptSpec_status (Or.inl rfl) (fun _ _ => rfl) (fun _ _ => by rw [Encodes]) ?_,
    attemptSpec_status (Or.inr rfl) (fun _ _ => rfl) (fun _ _ => by rw [Encodes]) ?_,
    attemptSpec_not h,
    attemptSpec_args h (by decide) (fun _ => rfl) (fun _ => by rw [Encodes]) ?_,
    attemptSpec_args h (by decide) (fun _ => rfl) (fun _ => by rw [Encodes]) ?_,
    attemptSpec_args h (by decide) (fun _ => rfl) (fun _ => by rw [Encodes]) ?_,
    attemptSpec_args h (by decide) (fun _ => rfl) (fun _ => by rw [Encodes]) ?_,
    attemptSpec_args h (by decide) (fun _ => rfl) (fun _ => by rw [Encodes]) ?_,
    attemptSpec_args h (by decide) (fun _ => rfl) (fun _ => by rw [Encodes]) ?_,
    attemptSpec_count h (by decide) (fun _ _ => rfl) (fun _ _ => by rw [Encodes]) ?_,
    attemptSpec_count h (by decide) (fun _ _ => rfl) (fun _ _ => by rw [Encodes]) ?_,
    attemptSpec_count h (by decide) (fun _ _ => rfl) (fun _ _ => by rw [Encodes]) ?_,
    attemptSpec_string (by decide) (fun _ => rfl) (fun _ => by rw [Encodes]) ?_,
    attemptSpec_metadataQuality, attemptSpec_triaged,
    attemptSpec_string (by decide) (fun _ => rfl) (fun _ => by rw [Encodes]) ?_,
    attemptSpec_string (by decide) (fun _ => rfl) (fun _ => by rw [Encodes]) ?_, rfl⟩
  -- one constructor is at each position
  all_goals
    intro q hi
    cases q <;> first | exact ⟨_, rfl⟩ | exact ⟨_, _, rfl⟩ | cases hi

/-- **Decoding a document**: a tree that decodes is one the document encodes, a
document that encodes a tree is not refused, and a nil pointer is come to on the
documents of `ReadsNull`. -/
theorem unmarshalQ_spec (b : Json) : DecodeSpec m b (unmarshalQ m b) := by
  induction b using childInduction with
  | step b ih =>
    obtain ⟨hencodes, haccepts, hnil⟩ := firstDecoded_spec (attempts_spec ih)
    rw [unmarshalQ_eq]
    refine ⟨fun q hq => (hencodes q hq).2, fun q err hq => haccepts q err hq (Nat.zero_le _), ?_⟩
    rw [hnil, readsNull_iff]
    simp [Tried]

theorem EncodesArgs.ne_nil {qs : List AbstractQuery} {elems : List Json}
    (h : EncodesArgs m qs elems) (hne : elems ≠ []) : qs ≠ [] := by
  rintro rfl
  cases elems with
  | nil => exact hne rfl
  | cons elem elems => exact absurd h (by simp [EncodesArgs])

mutual

/-- A tree that a document encodes has no empty list of arguments. -/
theorem Encodes.wellFormed : ∀ {q : AbstractQuery} {b : Json}, Encodes m q b → q.WellFormed
  | .trueQ, _, h => by simp [Encodes] at h
  | .abstractNot _, _, h => by
    obtain ⟨_, _, harg⟩ := h
    exact harg.wellFormed
  | .abstractOr _, _, h | .abstractAnd _, _, h | .abstractExists _, _, h
  | .abstractAll _, _, h | .abstractNone _, _, h | .abstractSequential _, _, h => by
    obtain ⟨elems, ⟨_, _, _, hne⟩, hargs⟩ := h
    exact ⟨hargs.ne_nil hne, hargs.wellFormed⟩
  | .abstractCount _ _, _, h | .abstractLessThan _ _, _, h | .abstractMoreThan _ _, _, h => by
    obtain ⟨_, _, harg⟩ := h
    exact harg.wellFormed
  | .testNamePattern _, _, _ | .subtestNamePattern _, _, _ | .testPath _, _, _
  | .testStatusEq _ _, _, _ | .testStatusNeq _ _, _, _ | .abstractLink _, _, _
  | .metadataQuality _, _, _ | .abstractTriaged _, _, _ | .abstractTestLabel _, _, _
  | .abstractTestWebFeature _, _, _ => trivial

theorem EncodesArgs.wellFormed : ∀ {qs : List AbstractQuery} {elems : List Json},
    EncodesArgs m qs elems → AbstractQuery.ArgsWellFormed qs
  | [], _, _ => trivial
  | _ :: _, [], h => by simp [EncodesArgs] at h
  | _ :: _, _ :: _, h => ⟨h.1.wellFormed, h.2.wellFormed⟩

end

end Trees

end WptFyi.Query
