import WptFyi.Filters.Products

/-!
# Filters as parameters

`ToQuery` writes every field as parameters of its own, and these are read again.

What comes back is compared up to what a filter means (`SameFilter`), as some fields have more than
one form: labels are a set, a time is an instant whatever zone it is written in, and no SHA at all
is the same as the SHA `latest`. Two things are lost for good: a part of a second, because the
layout of the parameters has whole seconds, and zones that RFC 3339 cannot write. The maximum count
and the offset were bounded when they were read, so that reading them again changes nothing.

- `WellFormed`, `Reads.wellFormed`: what holds of every filter that was read;
- `writtenValues`: the values that are written for a key;
- `SameFilter`: filters that mean the same;
- `queryReturns_iff`: which filters come back from their parameters.
-/

namespace WptFyi.Filters

open Lib Lib.GoStrings Shared

/-- What holds of every filter that was read. -/
structure TestRunFilter.WellFormed (f : TestRunFilter) : Prop where
  nodup : f.shas.Nodup
  shas : ∀ sha ∈ f.shas, sha ≠ "" ∧ parseSHA sha = (sha, none)
  labels : "" ∉ f.labels
  maxCount : ∀ n ∈ f.maxCount, 1 ≤ n ∧ n ≤ 500
  offset : ∀ n ∈ f.offset, -2 ^ 63 ≤ n ∧ n < 2 ^ 63
  fromTime : ∀ t ∈ f.fromTime, t.Valid
  toTime : ∀ t ∈ f.toTime, t.Valid
  view : ∀ view ∈ f.view, view ∈ ["subtest", "interop", "test"]
  products : ∀ p ∈ f.products, ¬ commaPlaceholder <:+: p.string.toList

/-- The same filter: labels as sets, times as instants, no SHA and the latest alike. -/
structure SameFilter (f g : TestRunFilter) : Prop where
  shas : f.shas = g.shas ∨ emptyOrLatest f.shas = true ∧ emptyOrLatest g.shas = true
  labels : f.labels = g.labels
  aligned : f.aligned = g.aligned
  fromTime : f.fromTime.map GoTime.instant = g.fromTime.map GoTime.instant
  toTime : f.toTime.map GoTime.instant = g.toTime.map GoTime.instant
  maxCount : f.maxCount = g.maxCount
  offset : f.offset = g.offset
  products : List.Forall₂ SameSpec f.products g.products
  view : f.view = g.view

/-- The times of a filter. -/
def TestRunFilter.times (f : TestRunFilter) : List GoTime := f.fromTime.toList ++ f.toTime.toList

section Reading

variable {m : LowerCase} {v : Values} {f : TestRunFilter}

/-- A count that is read was cut to what is allowed. -/
theorem parseMaxCountParam_bounds {n : Int} (h : parseMaxCountParam v = .ok (some n)) :
    1 ≤ n ∧ n ≤ 500 := by
  rw [parseMaxCountParam] at h
  cases hcount : parseIntegerParam v "max-count" with
  | error err =>
    rw [hcount] at h
    cases h
  | ok count =>
    rw [hcount] at h
    obtain ⟨count, rfl, hn⟩ := Option.map_eq_some_iff.mp (Except.ok.inj h)
    rw [← hn]
    simp only [maxCountMinValue, maxCountMaxValue]
    split_ifs <;> omega

/-- What was read from parameters has no placeholder in it: it would have been turned back. -/
theorem not_placeholder_infix_read (h : Reads m v f) {p : ProductSpec} (hp : p ∈ f.products) :
    ¬ commaPlaceholder <:+: p.string.toList := by
  obtain ⟨haccepted, hbrowsers, hproducts⟩ := parseProductOrBrowserParams_spec h.products
  rw [hproducts] at hp
  rcases List.mem_append.mp hp with hspec | hbrowser
  · obtain ⟨spec, htext, rfl⟩ := List.mem_map.mp hspec
    have hok := haccepted spec htext
    have hplaceholder : ¬ commaPlaceholder <:+: spec.toList := by
      obtain ⟨param, -, rfl⟩ := List.mem_map.mp htext
      rw [String.toList_ofList]
      exact not_placeholder_infix_revertCommas _
    obtain ⟨parts, hparts, rfl⟩ := exists_parts hok
    rw [parseProductSpec_text m hparts] at hok ⊢
    exact not_placeholder_infix_printed hparts hok hplaceholder
  · obtain ⟨browser, hmem, rfl⟩ := List.mem_map.mp hbrowser
    exact not_placeholder_infix_of_notMem
      (notMem_of_isBrowserName (hbrowsers browser hmem) (by decide) (by decide))

/-- **Every filter** that is read is well formed. -/
theorem Reads.wellFormed (h : Reads m v f) : f.WellFormed := by
  -- the bounds of a field are those that its own parser keeps to
  have hne : ∀ value ∈ parseRepeatedParam v "sha" "shas", value ≠ "" :=
    fun value hvalue => ne_empty_of_mem_parseRepeatedParamValues hvalue
  obtain ⟨hshas, hparse⟩ := parseSHAs_spec hne h.shas
  refine ⟨?_, fun sha hsha => ⟨hne sha (hshas ▸ hsha), hparse sha hsha⟩, ?_, ?_, ?_, ?_, ?_, ?_,
    fun p hp => not_placeholder_infix_read h hp⟩
  · rw [hshas]
    exact nodup_parseRepeatedParamValues _ _
  · rw [← h.labels]
    have hlabels : "" ∉ (parseLabelsParam v).toFinset := by
      rw [List.mem_toFinset]
      exact fun hmem => ne_empty_of_mem_parseRepeatedParamValues hmem rfl
    rw [parseLabelsAndUser]
    split_ifs
    · rw [Finset.mem_insert, not_or]
      refine ⟨fun hempty => ?_, hlabels⟩
      have hlen := congrArg (fun s => s.toList.length) hempty
      simp [getUserLabel, String.toList_append] at hlen
    · exact hlabels
  · intro n hn
    refine parseMaxCountParam_bounds (h.maxCount.trans ?_)
    rw [Option.mem_def.mp hn]
  · intro n hn
    refine parseIntegerParam_bounds (h.offset.trans ?_)
    rw [Option.mem_def.mp hn]
  · intro t ht
    refine parseDateTimeParam_valid (h.fromTime.trans ?_)
    rw [Option.mem_def.mp ht]
  · intro t ht
    refine parseDateTimeParam_valid (h.toTime.trans ?_)
    rw [Option.mem_def.mp ht]
  · intro view hview
    rw [← h.view, parseViewParam] at hview
    split_ifs at hview with hknown
    · obtain rfl := Option.some.inj hview
      simpa using hknown
    · cases hview

end Reading

/-! ## Parameters by name

The query is built name by name. Each name has its own values, whatever was written under the
others, in the order in which they were added. -/

section Keys

variable {q : Values} {key k : String}

theorem all_add {value : String} :
    (q.add key value).all k = if k = key then q.all key ++ [value] else q.all k := by
  rw [Values.all, Values.add]
  split_ifs with hk
  · rw [hk, Finmap.lookup_insert]
    rfl
  · rw [Finmap.lookup_insert_of_ne _ hk]
    rfl

/-- Adding the texts of some values under one key. -/
theorem all_foldl_add {α : Type} (text : α → String) (values : List α) :
    (values.foldl (fun q value => q.add key (text value)) q).all k =
      if k = key then q.all key ++ values.map text else q.all k := by
  induction values generalizing q with
  | nil =>
    split_ifs with hk
    · rw [hk, List.map_nil, List.append_nil]
      rfl
    · rfl
  | cons value values ih =>
    rw [List.foldl_cons, ih, all_add, all_add, if_pos rfl]
    split_ifs <;> simp

theorem all_foldl_add_self {α : Type} (text : α → String) (values : List α) :
    (values.foldl (fun q value => q.add key (text value)) q).all key =
      q.all key ++ values.map text :=
  (all_foldl_add text values).trans (if_pos rfl)

theorem all_foldl_add_of_ne {α : Type} (text : α → String) (values : List α) (h : k ≠ key) :
    (values.foldl (fun q value => q.add key (text value)) q).all k = q.all k :=
  (all_foldl_add text values).trans (if_neg h)

theorem all_setSome_self (value : Option String) :
    (q.setSome key value).all key = value.elim (q.all key) ([·]) := by
  cases value with
  | none => rfl
  | some value =>
    show ((q.insert key [value]).lookup key).getD [] = _
    rw [Finmap.lookup_insert]
    rfl

theorem all_setSome_of_ne (value : Option String) (h : k ≠ key) :
    (q.setSome key value).all k = q.all k := by
  cases value with
  | none => rfl
  | some value =>
    show ((q.insert key [value]).lookup k).getD [] = _
    rw [Finmap.lookup_insert_of_ne _ h]
    rfl

theorem mem_of_all_ne_nil (h : q.all k ≠ []) : k ∈ q := by
  by_contra hmem
  refine h ?_
  rw [Values.all, Finmap.lookup_eq_none.mpr hmem]
  rfl

/-- Every key has values. -/
def Values.Filled (q : Values) : Prop := ∀ k ∈ q, q.all k ≠ []

theorem Values.Filled.add (h : q.Filled) (key value : String) : (q.add key value).Filled := by
  intro k hk
  rw [all_add]
  split_ifs with hkey
  · exact List.append_ne_nil_of_right_ne_nil _ (List.cons_ne_nil _ _)
  · exact h k ((Finmap.mem_insert.mp hk).resolve_left hkey)

theorem Values.Filled.foldl_add {α : Type} (h : q.Filled) (text : α → String) (values : List α) :
    (values.foldl (fun q value => q.add key (text value)) q).Filled := by
  induction values generalizing q with
  | nil => exact h
  | cons value values ih => exact ih (h.add key (text value))

theorem Values.Filled.setSome (h : q.Filled) (key : String) (value : Option String) :
    (q.setSome key value).Filled := by
  cases value with
  | none => exact h
  | some value =>
    intro k hk
    by_cases hkey : k = key
    · rw [hkey, all_setSome_self]
      exact List.cons_ne_nil _ _
    · rw [all_setSome_of_ne _ hkey]
      exact h k ((Finmap.mem_insert.mp hk).resolve_left hkey)

end Keys

section Query

variable (order : RangeOrder String) (f : TestRunFilter)

/-- The values that are written for a key. -/
def writtenValues (k : String) : List String :=
  if k = "sha" then (if emptyOrLatest f.shas then [] else f.shas)
  else if k = "label" then (order f.labels).1
  else if k = "product" then f.products.map ProductSpec.string
  else if k = "aligned" then (f.aligned.map fun b => if b then "true" else "false").toList
  else if k = "max-count" then (f.maxCount.map fun n => toString n).toList
  else if k = "offset" then (f.offset.map fun n => toString n).toList
  else if k = "from" then (f.fromTime.map fun t => String.ofList (t.format false)).toList
  else if k = "to" then (f.toTime.map fun t => String.ofList (t.format false)).toList
  else if k = "view" then f.view.toList
  else []

/-- The values of every key of the query that is written. -/
theorem all_toQuery (k : String) : (f.toQuery order).all k = writtenValues order f k := by
  have hshas : ∀ k, (if !emptyOrLatest f.shas then
      f.shas.foldl (fun q sha => q.add "sha" sha) (∅ : Values) else ∅).all k =
        if k = "sha" then (if emptyOrLatest f.shas then [] else f.shas) else [] := by
    intro k
    cases emptyOrLatest f.shas with
    | true => exact (ite_self []).symm
    | false =>
      refine (all_foldl_add (fun sha : String => sha) f.shas).trans ?_
      rw [List.map_id']
      rfl
  have helim : ∀ value : Option String, value.elim [] ([·]) = value.toList := fun value => by
    cases value <;> rfl
  simp only [TestRunFilter.toQuery]
  generalize (if !emptyOrLatest f.shas then _ else _ : Values) = q at hshas
  rw [writtenValues]
  split_ifs <;>
    (try subst k) <;>
    simp (disch := first | assumption | decide) only [all_setSome_self, all_setSome_of_ne,
      all_foldl_add_self, all_foldl_add_of_ne, if_true, if_false, List.map_id', List.nil_append,
      Bool.false_eq_true, *]

theorem get_toQuery (k : String) :
    (f.toQuery order).get k = (writtenValues order f k).headD "" := by
  rw [Values.get, all_toQuery]

theorem filled_toQuery : (f.toQuery order).Filled := by
  have hempty : Values.Filled ∅ := fun k hk => absurd hk Finmap.notMem_empty
  have hshas : Values.Filled (if !emptyOrLatest f.shas then
      f.shas.foldl (fun q sha => q.add "sha" sha) (∅ : Values) else ∅) := by
    split_ifs
    · exact hempty.foldl_add (fun sha : String => sha) f.shas
    · exact hempty
  exact ((((((((hshas.foldl_add (fun label : String => label) _).foldl_add ProductSpec.string
    _).setSome _ _).setSome _ _).setSome _ _).setSome _ _).setSome _ _).setSome _ _)

theorem mem_toQuery_iff (k : String) : k ∈ f.toQuery order ↔ writtenValues order f k ≠ [] := by
  rw [← all_toQuery]
  exact ⟨filled_toQuery order f k, mem_of_all_ne_nil⟩

/-! ## Reading them again

One lemma for each field: the parameter that was written is read as the value it was written
for. -/

theorem parseSHAParam_toQuery (h : f.WellFormed) : parseSHAParam (f.toQuery order) =
    .ok (if emptyOrLatest f.shas then [] else f.shas) := by
  rw [parseSHAParam, parseRepeatedParam, all_toQuery, get_toQuery]
  show parseSHAs (parseRepeatedParamValues (if emptyOrLatest f.shas then [] else f.shas) "") = _
  split_ifs with hlatest
  · rfl
  · rw [parseRepeatedParamValues_of_nodup h.nodup fun sha hsha => (h.shas sha hsha).1]
    exact parseSHAs_of_forall fun sha hsha => (h.shas sha hsha).2

theorem parseLabelsAndUser_toQuery (h : f.WellFormed) :
    parseLabelsAndUser (f.toQuery order) = f.labels := by
  rw [parseLabelsAndUser, parseLabelsParam, parseRepeatedParam, all_toQuery, get_toQuery,
    get_toQuery]
  show (if "" ≠ "" then _ else
    (parseRepeatedParamValues (order f.labels).1 "").toFinset) = _
  rw [if_neg (not_not.mpr rfl), parseRepeatedParamValues_of_nodup (order f.labels).2.1
    fun label hlabel hempty => ?_, (order f.labels).2.2]
  rw [mem_rangeOrder, hempty] at hlabel
  exact h.labels hlabel

/-- A switch is read from the parameter that has it. -/
theorem parseBooleanParam_written {v : Values} {name : String} {b : Option Bool}
    (hmem : name ∈ v ↔ b ≠ none)
    (hget : v.get name = (b.map fun b => if b then "true" else "false").toList.headD "") :
    parseBooleanParam v name = .ok b := by
  rw [parseBooleanParam]
  cases b with
  | none => exact if_pos fun hname => hmem.mp hname rfl
  | some b =>
    rw [if_neg (not_not.mpr (hmem.mpr (Option.some_ne_none b))), hget]
    cases b <;> rfl

theorem parseAlignedParam_toQuery : parseAlignedParam (f.toQuery order) = .ok f.aligned := by
  have hcomplete : parseBooleanParam (f.toQuery order) "complete" = .ok none :=
    if_pos fun hmem => (mem_toQuery_iff order f _).mp hmem rfl
  have hmem : "aligned" ∈ f.toQuery order ↔ f.aligned ≠ none := by
    rw [mem_toQuery_iff]
    show (f.aligned.map _).toList ≠ [] ↔ _
    cases f.aligned <;> simp
  rw [parseAlignedParam, hcomplete,
    parseBooleanParam_written hmem (get_toQuery order f "aligned")]
  cases f.aligned <;> rfl

/-- An integer of 64 bits is read again from its text. -/
theorem parseInt_toString {n : Int} (h : -2 ^ 63 ≤ n ∧ n < 2 ^ 63) :
    parseInt (toString n) = some n := by
  obtain ⟨d, ds, hdigits⟩ := List.exists_cons_of_ne_nil (@Nat.toDigits_ne_nil n.natAbs 10)
  have hall : ∀ c ∈ d :: ds, c.isDigit = true := by
    rw [← hdigits]
    exact fun c hc => Json.isDigit_of_mem_toDigits hc
  have hminus : d ≠ '-' := by
    rintro rfl
    exact absurd (hall '-' List.mem_cons_self) (by decide)
  have hplus : d ≠ '+' := by
    rintro rfl
    exact absurd (hall '+' List.mem_cons_self) (by decide)
  have hvalue : digitsValue (d :: ds) = n.natAbs := by
    rw [digitsValue, ← hdigits, ← Nat.ofDigitChars_eq_foldl, Nat.ofDigitChars_ten_toDigits]
  have hdigit : ¬(d :: ds = [] ∨ (!(d :: ds).all Char.isDigit) = true) := by
    rw [List.all_eq_true.mpr hall]
    simp
  unfold parseInt
  rw [show (toString n).toList = _ from Json.toList_intLiteral n, hdigits]
  by_cases hneg : n < 0
  · have habs : -(n.natAbs : Int) = n := by omega
    rw [if_pos hneg]
    simp only [List.singleton_append, hdigit, if_false, hvalue, if_true, habs, h, and_self]
  · have habs : (n.natAbs : Int) = n := by omega
    rw [if_neg hneg, List.nil_append]
    split
    next negative digits hsign =>
    obtain ⟨rfl, rfl⟩ : negative = false ∧ digits = d :: ds := by
      split at hsign
      · next heq => exact absurd (List.cons.inj heq).1 hminus
      · next heq => exact absurd (List.cons.inj heq).1 hplus
      · cases hsign
        exact ⟨rfl, rfl⟩
    simp only [hdigit, if_false, hvalue, Bool.false_eq_true, habs, h, and_self, if_true]

theorem toString_ne_empty (n : Int) : toString n ≠ "" := by
  intro hempty
  have hdigits := (Json.toList_intLiteral n).symm.trans (congrArg String.toList hempty)
  exact Nat.toDigits_ne_nil (List.append_eq_nil_iff.mp hdigits).2

/-- A number is read from the parameter that has it. -/
theorem parseIntegerParam_written {v : Values} {name : String} {n : Option Int}
    (hget : v.get name = ((n.map fun n => toString n).toList).headD "")
    (hbounds : ∀ n' ∈ n, -2 ^ 63 ≤ n' ∧ n' < 2 ^ 63) : parseIntegerParam v name = .ok n := by
  rw [parseIntegerParam, hget]
  cases n with
  | none => rfl
  | some n =>
    show (if toString n = "" then _ else _) = _
    rw [if_neg (toString_ne_empty n)]
    simp only [Option.map_some, Option.toList_some, List.headD_cons,
      parseInt_toString (hbounds n rfl)]

/-- A count that is within its bounds comes back. -/
theorem parseMaxCountParam_toQuery (h : f.WellFormed) :
    parseMaxCountParam (f.toQuery order) = .ok f.maxCount := by
  have hcount : parseIntegerParam (f.toQuery order) "max-count" = .ok f.maxCount :=
    parseIntegerParam_written (get_toQuery order f "max-count") fun n hn => by
      have hbounds := h.maxCount n hn
      omega
  rw [parseMaxCountParam, hcount]
  cases hn : f.maxCount with
  | none => rfl
  | some n =>
    obtain ⟨hmin, hmax⟩ := h.maxCount n hn
    show Except.ok
      (some (if (if n < 1 then 1 else n) > 500 then 500 else if n < 1 then 1 else n)) = _
    rw [if_neg (show ¬ n < 1 by omega), if_neg (show ¬ n > 500 by omega)]

theorem parseOffsetParam_toQuery (h : f.WellFormed) :
    parseOffsetParam (f.toQuery order) = .ok f.offset :=
  parseIntegerParam_written (get_toQuery order f "offset") h.offset

theorem parseViewParam_toQuery (h : f.WellFormed) : parseViewParam (f.toQuery order) = f.view := by
  have hwritten : writtenValues order f "view" = f.view.toList := rfl
  rw [parseViewParam, get_toQuery, hwritten]
  cases hview : f.view with
  | none => rfl
  | some view =>
    refine if_pos ?_
    simpa using h.view view hview

theorem length_le_utf8ByteSize (cs : List Char) : cs.length ≤ (String.ofList cs).utf8ByteSize := by
  induction cs with
  | nil => exact Nat.zero_le _
  | cons c cs ih =>
    have hpos : 0 < c.utf8Size := Char.utf8Size_pos c
    rw [String.ofList_cons, String.utf8ByteSize_append, String.utf8ByteSize_singleton,
      List.length_cons]
    omega

/-- A time is read from what is written in the full layout. -/
theorem parseDateTimeParam_format {v : Values} {name : String} {t : GoTime}
    (hget : v.get name = String.ofList (t.format false)) (ht : t.Valid) :
    parseDateTimeParam v name = (GoTime.parse GoTime.rfc3339 (t.format false)).elim
      (.error (.parseTime (String.ofList (t.format false)))) (fun t => .ok (some t)) := by
  have hlayout : GoTime.rfc3339.idxOf 'Z' = 19 := by decide
  have hsize : 19 < (String.ofList (t.format false)).utf8ByteSize :=
    (GoTime.lt_length_format ht false).trans_le (length_le_utf8ByteSize _)
  have hne : String.ofList (t.format false) ≠ "" := by
    intro hempty
    rw [hempty] at hsize
    exact absurd hsize (by decide)
  rw [parseDateTimeParam, hget]
  simp only [hne, if_false, hlayout]
  rw [if_neg (by omega), String.toList_ofList]
  cases GoTime.parse GoTime.rfc3339 (t.format false) <;> rfl

/-- The time of a parameter that has it, without its part of a second. -/
theorem parseDateTimeParam_written {v : Values} {name : String} {t : Option GoTime}
    (hget : v.get name = ((t.map fun t => String.ofList (t.format false)).toList).headD "")
    (ht : ∀ t' ∈ t, t'.Valid ∧ t'.offset.natAbs < 25 * 60) :
    parseDateTimeParam v name = .ok (t.map fun t => { t with nanosecond := 0 }) := by
  cases t with
  | none =>
    rw [parseDateTimeParam, hget]
    rfl
  | some t =>
    obtain ⟨hvalid, hoffset⟩ := ht t rfl
    rw [parseDateTimeParam_format hget hvalid, GoTime.parse_format hvalid hoffset]
    rfl

theorem lt_of_parseDateTimeParam_written {v : Values} {name : String} {t read : Option GoTime}
    (hget : v.get name = ((t.map fun t => String.ofList (t.format false)).toList).headD "")
    (ht : ∀ t' ∈ t, t'.Valid) (h : parseDateTimeParam v name = .ok read) :
    ∀ t' ∈ t, t'.offset.natAbs < 25 * 60 := by
  rintro t' rfl
  by_contra hoffset
  rw [parseDateTimeParam_format hget (ht t' rfl),
    GoTime.parse_format_eq_none (ht t' rfl) (by omega)] at h
  cases h

theorem forall_times_iff {P : GoTime → Prop} :
    (∀ t ∈ f.times, P t) ↔ (∀ t ∈ f.fromTime, P t) ∧ ∀ t ∈ f.toTime, P t := by
  simp only [TestRunFilter.times, List.forall_mem_append, Option.mem_toList, Option.mem_def]

variable (m : LowerCase)

/-- Parsing what `ToQuery` writes gives the filter. -/
def QueryReturns : Prop :=
  ∃ g, parseTestRunFilterParams m (f.toQuery order) = .ok g ∧ SameFilter f g

theorem instant_wholeSecond_iff (t : GoTime) :
    t.instant = { t with nanosecond := 0 : GoTime }.instant ↔ t.nanosecond = 0 := by
  rw [GoTime.instant, GoTime.instant, Prod.mk.injEq]
  exact and_iff_right rfl

theorem map_instant_wholeSecond_iff (t : Option GoTime) :
    t.map GoTime.instant = (t.map fun t => { t with nanosecond := 0 : GoTime }).map GoTime.instant ↔
      ∀ t' ∈ t.toList, t'.nanosecond = 0 := by
  cases t with
  | none => simp
  | some t =>
    rw [Option.map_some, Option.map_some, Option.map_some, Option.some_inj,
      instant_wholeSecond_iff]
    simp

/-- **The parameters** give a filter again exactly when its times have whole seconds and a
zone that can be written, and its products come back from distinct texts. -/
theorem queryReturns_iff (h : f.WellFormed) : QueryReturns order f m ↔
    (∀ t ∈ f.times, t.nanosecond = 0 ∧ t.offset.natAbs < 25 * 60) ∧
      (f.products.map ProductSpec.string).Nodup ∧ ∀ p ∈ f.products, ComesBack m p := by
  have hpage : (f.toQuery order).get "page" = "" := get_toQuery order f "page"
  have hget := get_toQuery order f
  have hbrowsers : browserParams (f.toQuery order) = [] := by
    rw [browserParams, parseRepeatedParam, all_toQuery, hget]
    rfl
  -- a zone that can be written comes back, the part of a second does not
  have htimes : (∀ t ∈ f.times, t.offset.natAbs < 25 * 60) →
      parseDateTimeParam (f.toQuery order) "from" =
          .ok (f.fromTime.map fun t => { t with nanosecond := 0 }) ∧
        parseDateTimeParam (f.toQuery order) "to" =
          .ok (f.toTime.map fun t => { t with nanosecond := 0 }) := by
    intro hoffset
    obtain ⟨hfrom, hto⟩ := (forall_times_iff f).mp hoffset
    exact ⟨parseDateTimeParam_written (hget "from") fun t ht => ⟨h.fromTime t ht, hfrom t ht⟩,
      parseDateTimeParam_written (hget "to") fun t ht => ⟨h.toTime t ht, hto t ht⟩⟩
  rw [← parseProductOrBrowserParams_printed_iff h.products (all_toQuery order f "product")
    (hget "products") hbrowsers]
  constructor
  · rintro ⟨g, hok, hsame⟩
    have hreads := (parseTestRunFilterParams_iff hpage).mp hok
    have hoffset : ∀ t ∈ f.times, t.offset.natAbs < 25 * 60 := (forall_times_iff f).mpr
      ⟨lt_of_parseDateTimeParam_written (hget "from") h.fromTime hreads.fromTime,
        lt_of_parseDateTimeParam_written (hget "to") h.toTime hreads.toTime⟩
    obtain ⟨hfrom, hto⟩ := htimes hoffset
    have hwhole : ∀ t ∈ f.times, t.nanosecond = 0 := by
      rw [TestRunFilter.times, List.forall_mem_append, ← map_instant_wholeSecond_iff,
        ← map_instant_wholeSecond_iff, Except.ok.inj (hfrom.symm.trans hreads.fromTime),
        Except.ok.inj (hto.symm.trans hreads.toTime)]
      exact ⟨hsame.fromTime, hsame.toTime⟩
    exact ⟨fun t ht => ⟨hwhole t ht, hoffset t ht⟩, g.products, hreads.products, hsame.products⟩
  · rintro ⟨hall, products, hproducts, hsame⟩
    obtain ⟨hfrom, hto⟩ := htimes fun t ht => (hall t ht).2
    have hwhole := fun t ht => (hall t ht).1
    rw [TestRunFilter.times, List.forall_mem_append, ← map_instant_wholeSecond_iff,
      ← map_instant_wholeSecond_iff] at hwhole
    refine ⟨⟨if emptyOrLatest f.shas then [] else f.shas, f.labels, f.aligned, _, _, f.maxCount,
      f.offset, products, f.view⟩, (parseTestRunFilterParams_iff hpage).mpr
        ⟨parseSHAParam_toQuery order f h, parseLabelsAndUser_toQuery order f h,
          parseAlignedParam_toQuery order f, hproducts, parseMaxCountParam_toQuery order f h,
          parseOffsetParam_toQuery order f h, hfrom, hto, parseViewParam_toQuery order f h⟩,
      ⟨?_, rfl, rfl, hwhole.1, hwhole.2, rfl, rfl, hsame, rfl⟩⟩
    cases hlatest : emptyOrLatest f.shas with
    | true => exact Or.inr ⟨rfl, rfl⟩
    | false => exact Or.inl rfl

end Query

end WptFyi.Filters
