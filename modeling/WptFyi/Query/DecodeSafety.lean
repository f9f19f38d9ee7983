import WptFyi.Query.DecodeSpec

/-!
# When decoding a search request dereferences nil

A `null` under a key that is read through a pointer is a nil pointer, and nothing
checks it. Whether one is met depends on the order of the attempts: an atom that is tried
before, and decodes, hides the key, and an argument after one that does not decode is not
looked at. `ReadsNull` says this of a tree, and the request body adds the run IDs, which are
decoded first and may be `null` themselves or end the decoding with an error.

- `DecodesSafely`: what the decoders of a body should do, whatever its bytes;
- `BodyReadsNull`: the bodies on which they do not;
- `decodesSafely_iff`: these and no others.
-/

namespace WptFyi.Query

open Lib Lib.Json Lib.GoStrings Shared Outcome

/-! ## Request bodies

The run IDs are decoded before the tree, so a body whose IDs are refused never comes to the `null`
that it would panic on. -/

/-- A request body is decoded without dereferencing nil: there is an error, or run
IDs and a tree; and for the other decoder an error, or run IDs. -/
def DecodesSafely (m : CaseTables) (body : List UInt8) : Prop :=
  ((∃ err, runQueryUnmarshalJSON m body = .error err) ∨
    ∃ runIDs q, runQueryUnmarshalJSON m body = .value (runIDs, q) ∧ runIDs ≠ [] ∧ q.Decoded) ∧
  ((∃ err, extractRunIDsBodyParam body = .error err) ∨
    ∃ runIDs, extractRunIDsBodyParam body = .value runIDs)

/-- The run IDs of a request body are `null`, or there are some, and its query comes
to a nil pointer. -/
def BodyReadsNull (m : CaseTables) (body : List UInt8) : Prop :=
  ∃ b ms, Json.ofBytes body = some b ∧ b.members = some ms ∧
    (lastMember "run_ids" ms = some .null ∨
      ∃ runIDs query, intSliceField "run_ids" ms = some runIDs ∧ runIDs ≠ [] ∧
        rawField "query" ms = some query ∧ ReadsNull m query)

section Bodies

variable {m : CaseTables} {body : List UInt8}

theorem Outcome.cases_of_ne_nilDeref {α : Type} {x : Outcome α} (h : x ≠ .nilDeref) :
    (∃ err, x = .error err) ∨ ∃ a, x = .value a := by
  cases x with
  | value a => exact Or.inr ⟨a, rfl⟩
  | error err => exact Or.inl ⟨err, rfl⟩
  | nilDeref => exact absurd rfl h

/-- What a request body with run IDs decodes to. -/
theorem runQueryUnmarshalJSON_of_runIDs {b : Json} {ms : List (String × Json)}
    {runIDs : List Int} (hb : Json.ofBytes body = some b) (hms : b.members = some ms)
    (hids : intSliceField "run_ids" ms = some runIDs) (hne : runIDs ≠ []) :
    runQueryUnmarshalJSON m body = match rawField "query" ms with
      | none => .value (runIDs, .trueQ)
      | some query => unmarshalQ m query >>= fun q => .value (runIDs, q) := by
  unfold runQueryUnmarshalJSON unmarshalRunQuery
  simp only [hb, hms, hids, ofJson, value_bind, if_neg hne]
  rfl

/-- A request body that is not refused at once has run IDs. -/
theorem exists_runIDs (h : ∀ err, runQueryUnmarshalJSON m body ≠ .error err) :
    ∃ b ms runIDs, Json.ofBytes body = some b ∧ b.members = some ms ∧
      intSliceField "run_ids" ms = some runIDs ∧ runIDs ≠ [] := by
  unfold runQueryUnmarshalJSON unmarshalRunQuery at h
  cases hb : Json.ofBytes body with
  | none => exact absurd rfl (hb ▸ h .json)
  | some b =>
    simp only [hb, ofJson, value_bind] at h
    cases hms : b.members with
    | none => exact absurd rfl (hms ▸ h .json)
    | some ms =>
      simp only [hms, value_bind] at h
      cases hids : intSliceField "run_ids" ms with
      | none => exact absurd rfl (hids ▸ h .json)
      | some runIDs =>
        simp only [hids, value_bind] at h
        refine ⟨b, ms, runIDs, rfl, hms, hids, ?_⟩
        rintro rfl
        exact h _ rfl

/-- Run IDs are decoded first: only when there are some is the query looked at. -/
theorem runQueryUnmarshalJSON_eq_nilDeref :
    runQueryUnmarshalJSON m body = .nilDeref ↔ ∃ b ms, Json.ofBytes body = some b ∧
      b.members = some ms ∧ ∃ runIDs query, intSliceField "run_ids" ms = some runIDs ∧
        runIDs ≠ [] ∧ rawField "query" ms = some query ∧ ReadsNull m query := by
  constructor
  · intro hnil
    have hnoerror : ∀ err, runQueryUnmarshalJSON m body ≠ .error err := by simp [hnil]
    obtain ⟨b, ms, runIDs, hb, hms, hids, hne⟩ := exists_runIDs hnoerror
    rw [runQueryUnmarshalJSON_of_runIDs hb hms hids hne] at hnil
    cases hquery : rawField "query" ms with
    | none => simp [hquery] at hnil
    | some query =>
      rw [hquery] at hnil
      exact ⟨b, ms, hb, hms, runIDs, query, hids, hne, hquery,
        (unmarshalQ_spec query).nil_iff.mp (bind_value_eq_nilDeref.mp hnil)⟩
  · rintro ⟨b, ms, hb, hms, runIDs, query, hids, hne, hquery, hread⟩
    rw [runQueryUnmarshalJSON_of_runIDs hb hms hids hne, hquery]
    exact bind_value_eq_nilDeref.mpr ((unmarshalQ_spec query).nil_iff.mpr hread)

/-- A request that decodes has run IDs, and a tree as the decoder builds them. -/
theorem runQueryUnmarshalJSON_eq_value {runIDs : List Int} {q : AbstractQuery}
    (h : runQueryUnmarshalJSON m body = .value (runIDs, q)) : runIDs ≠ [] ∧ q.Decoded := by
  have hnoerror : ∀ err, runQueryUnmarshalJSON m body ≠ .error err := by simp [h]
  obtain ⟨b, ms, runIDs', hb, hms, hids, hne⟩ := exists_runIDs hnoerror
  rw [runQueryUnmarshalJSON_of_runIDs hb hms hids hne] at h
  cases hquery : rawField "query" ms with
  | none =>
    rw [hquery] at h
    cases h
    exact ⟨hne, Or.inl rfl⟩
  | some query =>
    rw [hquery] at h
    obtain ⟨q', hq', heq⟩ := bind_eq_value.mp h
    cases heq
    exact ⟨hne, Or.inr ((unmarshalQ_spec query).encodes q hq').wellFormed⟩

theorem extractRunIDsBodyParam_eq_nilDeref :
    extractRunIDsBodyParam body = .nilDeref ↔ ∃ b ms, Json.ofBytes body = some b ∧
      b.members = some ms ∧ lastMember "run_ids" ms = some .null := by
  unfold extractRunIDsBodyParam extractRunIDs
  rw [bind_eq_nilDeref, or_iff_right ofJson_ne_nilDeref]
  refine exists_congr fun b => ?_
  rw [ofJson_eq_value, bind_eq_nilDeref, or_iff_right ofJson_ne_nilDeref, ← exists_and_left]
  refine exists_congr fun ms => and_congr_right fun _ => and_congr ofJson_eq_value ?_
  cases lastMember "run_ids" ms with
  | none => simp
  | some msg => cases msg <;> simp [ofJson_ne_nilDeref]

/-- **Decoding a request** dereferences nil exactly when the run IDs or an entry that
the query's decoding comes to are `null`. -/
theorem decodesSafely_iff (m : CaseTables) (body : List UInt8) :
    DecodesSafely m body ↔ ¬ BodyReadsNull m body := by
  -- a body is decoded twice: once for the query and once for the IDs
  have hbody : BodyReadsNull m body ↔ runQueryUnmarshalJSON m body = .nilDeref ∨
      extractRunIDsBodyParam body = .nilDeref := by
    rw [runQueryUnmarshalJSON_eq_nilDeref, extractRunIDsBodyParam_eq_nilDeref]
    constructor
    · rintro ⟨b, ms, hb, hms, hnull | hquery⟩
      · exact Or.inr ⟨b, ms, hb, hms, hnull⟩
      · exact Or.inl ⟨b, ms, hb, hms, hquery⟩
    · rintro (⟨b, ms, hb, hms, hquery⟩ | ⟨b, ms, hb, hms, hnull⟩)
      · exact ⟨b, ms, hb, hms, Or.inr hquery⟩
      · exact ⟨b, ms, hb, hms, Or.inl hnull⟩
  rw [hbody, not_or]
  constructor
  · rintro ⟨hquery, hids⟩
    constructor
    · rcases hquery with ⟨err, herr⟩ | ⟨runIDs, q, hq, -⟩
      · simp [herr]
      · simp [hq]
    · rcases hids with ⟨err, herr⟩ | ⟨runIDs, hruns⟩
      · simp [herr]
      · simp [hruns]
  · rintro ⟨hquery, hids⟩
    refine ⟨(Outcome.cases_of_ne_nilDeref hquery).imp_right ?_, Outcome.cases_of_ne_nilDeref hids⟩
    rintro ⟨⟨runIDs, q⟩, hq⟩
    exact ⟨runIDs, q, hq, runQueryUnmarshalJSON_eq_value hq⟩

end Bodies

/-- Bytes of ASCII text. -/
def asciiBytes (text : String) : List UInt8 := text.toList.map fun c => UInt8.ofNat c.toNat

/-- A pattern that is `null`. -/
theorem not_decodesSafely_null_pattern :
    ¬ DecodesSafely ⟨.ascii, .ascii⟩
      (asciiBytes "\x7b\"run_ids\":[1],\"query\":\x7b\"pattern\":null\x7d\x7d") := by
  rintro ⟨hquery, -⟩
  have hnil : (match runQueryUnmarshalJSON ⟨.ascii, .ascii⟩
      (asciiBytes "\x7b\"run_ids\":[1],\"query\":\x7b\"pattern\":null\x7d\x7d") with
      | .nilDeref => true
      | _ => false) = true := by decide +kernel
  rcases hquery with ⟨err, herr⟩ | ⟨runIDs, q, hq, -⟩
  · simp [herr] at hnil
  · simp [hq] at hnil

end WptFyi.Query
