import WptFyi.Filters.TestRunFilter
import WptFyi.Shared.PluralProducts

/-!
# The fields of a filter

Every field is read from parameters of its own, so a filter is read when all its fields
are. What is read is in the ranges that writing it again relies on.

`ParseTestRunFilterParams` returns the first error that it meets, and its fields do not depend on
each other. `Reads` says that each field is what the parameters give for it, and the first theorem
that reading is just this; from then on the fields are dealt with one at a time. Two fields come
from more than one parameter: labels from the repeated one, the plural one and the user, SHAs from
the singular and the plural one.

- `parseTestRunFilterParams_iff`: a filter field by field;
- `parseRepeatedParamValues_of_nodup`: a list that was written as repeated values is read again;
- `Reads`: what the parameters give.
-/

namespace WptFyi.Filters

open Lib Lib.GoStrings Shared

variable {m : LowerCase} {v : Values} {f : TestRunFilter}

/-- The fields of a filter are those that the parameters give. -/
structure Reads (m : LowerCase) (v : Values) (f : TestRunFilter) : Prop where
  shas : parseSHAParam v = .ok f.shas
  labels : parseLabelsAndUser v = f.labels
  aligned : parseAlignedParam v = .ok f.aligned
  products : parseProductOrBrowserParams m v = .ok f.products
  maxCount : parseMaxCountParam v = .ok f.maxCount
  offset : parseOffsetParam v = .ok f.offset
  fromTime : parseDateTimeParam v "from" = .ok f.fromTime
  toTime : parseDateTimeParam v "to" = .ok f.toTime
  view : parseViewParam v = f.view

/-- **Without a token** a filter is read field by field. -/
theorem parseTestRunFilterParams_iff (hpage : v.get "page" = "") :
    parseTestRunFilterParams m v = .ok f ↔ Reads m v f := by
  have htoken : parsePageToken m v = .ok none := by
    rw [parsePageToken]
    exact if_pos hpage
  -- the first error is the result, so a result means that no field had one
  have hbind : ∀ {α β : Type} {x : Except ParamError α} {k : α → Except ParamError β} {b : β},
      x >>= k = .ok b ↔ ∃ a, x = .ok a ∧ k a = .ok b := by
    intro α β x k b
    cases x with
    | error err => exact iff_of_false nofun fun h => nomatch h.choose_spec.1
    | ok a => exact ⟨fun h => ⟨a, rfl, h⟩, fun ⟨a', ha, h⟩ => by cases ha; exact h⟩
  rw [parseTestRunFilterParams, htoken]
  constructor
  · intro h
    obtain ⟨_, hpage, h⟩ := hbind.mp h
    cases hpage
    obtain ⟨shas, hshas, h⟩ := hbind.mp h
    obtain ⟨aligned, haligned, h⟩ := hbind.mp h
    obtain ⟨products, hproducts, h⟩ := hbind.mp h
    obtain ⟨maxCount, hmaxCount, h⟩ := hbind.mp h
    obtain ⟨offset, hoffset, h⟩ := hbind.mp h
    obtain ⟨fromTime, hfrom, h⟩ := hbind.mp h
    obtain ⟨toTime, hto, h⟩ := hbind.mp h
    cases h
    exact ⟨hshas, rfl, haligned, hproducts, hmaxCount, hoffset, hfrom, hto, rfl⟩
  · intro h
    refine hbind.mpr ⟨none, rfl, ?_⟩
    refine hbind.mpr ⟨_, h.shas, hbind.mpr ⟨_, h.aligned, hbind.mpr ⟨_, h.products,
      hbind.mpr ⟨_, h.maxCount, hbind.mpr ⟨_, h.offset, hbind.mpr ⟨_, h.fromTime,
        hbind.mpr ⟨_, h.toTime, ?_⟩⟩⟩⟩⟩⟩⟩
    rw [h.labels, h.view]
    rfl

/-! ## Repeated parameters -/

/-- A value that is kept is given and not empty. -/
theorem mem_distinctValues {params : List String} (values : List String) {value : String}
    (h : value ∈ distinctValues params values) : value ∈ params ∨ value ∈ values ∧ value ≠ "" := by
  induction values generalizing params with
  | nil => exact Or.inl h
  | cons value' values ih =>
    rw [distinctValues] at h
    split at h
    · rcases ih h with hparams | ⟨hmem, hne⟩
      · exact Or.inl hparams
      · exact Or.inr ⟨List.mem_cons_of_mem _ hmem, hne⟩
    · next hnew =>
      rcases ih h with hparams | ⟨hmem, hne⟩
      · rcases List.mem_append.mp hparams with hparams | hlast
        · exact Or.inl hparams
        · rw [List.mem_singleton.mp hlast]
          exact Or.inr ⟨List.mem_cons_self, fun hempty => hnew (Or.inl hempty)⟩
      · exact Or.inr ⟨List.mem_cons_of_mem _ hmem, hne⟩

theorem ne_empty_of_mem_parseRepeatedParamValues {repeatedParam : List String}
    {pluralParam : String}
    {value : String} (h : value ∈ parseRepeatedParamValues repeatedParam pluralParam) :
    value ≠ "" := by
  unfold parseRepeatedParamValues at h
  split_ifs at h
  · exact absurd h List.not_mem_nil
  all_goals
    rcases mem_distinctValues _ h with hnil | ⟨-, hne⟩
    · exact absurd hnil List.not_mem_nil
    · exact hne

theorem nodup_parseRepeatedParamValues (repeatedParam : List String) (pluralParam : String) :
    (parseRepeatedParamValues repeatedParam pluralParam).Nodup := by
  unfold parseRepeatedParamValues
  split_ifs
  · exact List.nodup_nil
  all_goals exact nodup_distinctValues _ List.nodup_nil

theorem parseRepeatedParamValues_repeated (values : List String) :
    parseRepeatedParamValues values "" = distinctValues [] values := by
  rw [parseRepeatedParamValues, if_neg (not_not.mpr rfl)]
  split_ifs with hnil
  · rw [hnil.1]
    rfl
  · rfl

/-- Distinct values that are not empty are all kept. -/
theorem parseRepeatedParamValues_of_nodup {values : List String} (hnodup : values.Nodup)
    (hne : ∀ value ∈ values, value ≠ "") : parseRepeatedParamValues values "" = values := by
  rw [parseRepeatedParamValues_repeated]
  exact distinctValues_of_nodup hne hnodup

/-! ## What is read

What the parsers of single fields let through, which is what a filter keeps to: its numbers are in
their bounds, its times are dates, its revisions match. -/

/-- SHAs that are accepted are kept as they were given. -/
theorem parseSHAs_spec {values shas : List String} (hne : ∀ value ∈ values, value ≠ "")
    (h : parseSHAs values = .ok shas) :
    shas = values ∧ ∀ sha ∈ shas, parseSHA sha = (sha, none) := by
  induction values generalizing shas with
  | nil =>
    cases h
    exact ⟨rfl, fun sha hsha => absurd hsha List.not_mem_nil⟩
  | cons value values ih =>
    obtain ⟨hvalue, hvalues⟩ := List.forall_mem_cons.mp hne
    rw [parseSHAs] at h
    rcases hparse : parseSHA value with ⟨sha, _ | err⟩
    · rw [hparse] at h
      cases hrest : parseSHAs values with
      | error err =>
        rw [hrest] at h
        cases h
      | ok shas' =>
        rw [hrest] at h
        cases h
        obtain ⟨rfl, hall⟩ := ih hvalues hrest
        -- a value is `latest`, or matches and is kept; only the empty one would be replaced
        have hsame : sha = value := by
          rw [parseSHA] at hparse
          split_ifs at hparse with hlatest hmatches
          · cases hparse
            exact (hlatest.resolve_left hvalue).symm
          · cases hparse
            rfl
          · cases hparse
        subst hsame
        exact ⟨rfl, List.forall_mem_cons.mpr ⟨hparse, hall⟩⟩
    · rw [hparse] at h
      cases h

theorem parseSHAs_of_forall {shas : List String} (h : ∀ sha ∈ shas, parseSHA sha = (sha, none)) :
    parseSHAs shas = .ok shas := by
  induction shas with
  | nil => rfl
  | cons sha shas ih =>
    obtain ⟨hsha, hshas⟩ := List.forall_mem_cons.mp h
    rw [parseSHAs, hsha]
    simp only
    rw [ih hshas]
    rfl

/-- A number that is read fits into 64 bits. -/
theorem parseInt_bounds {s : String} {n : Int} (h : parseInt s = some n) :
    -2 ^ 63 ≤ n ∧ n < 2 ^ 63 := by
  unfold parseInt at h
  split at h
  next negative digits hsign =>
  by_cases hempty : digits = [] ∨ (!digits.all Char.isDigit) = true
  · rw [if_pos hempty] at h
    cases h
  · rw [if_neg hempty, Option.ite_none_right_eq_some] at h
    obtain ⟨hbounds, hvalue⟩ := h
    cases hvalue
    exact hbounds

/-- So does one of a parameter, which is read the same way. -/
theorem parseIntegerParam_bounds {name : String} {n : Int}
    (h : parseIntegerParam v name = .ok (some n)) : -2 ^ 63 ≤ n ∧ n < 2 ^ 63 := by
  rw [parseIntegerParam] at h
  split_ifs at h with hempty
  · cases h
  cases hparse : parseInt (v.get name) with
  | none =>
    rw [hparse] at h
    cases h
  | some n' =>
    rw [hparse] at h
    cases h
    exact parseInt_bounds hparse

/-- A time of a parameter is one that there is. -/
theorem parseDateTimeParam_valid {name : String} {t : GoTime}
    (h : parseDateTimeParam v name = .ok (some t)) : t.Valid := by
  unfold parseDateTimeParam at h
  simp only at h
  split_ifs at h with hempty
  · cases h
  all_goals
    split at h
    · next hparse =>
      cases h
      exact GoTime.parse_valid hparse
    · cases h

end WptFyi.Filters
