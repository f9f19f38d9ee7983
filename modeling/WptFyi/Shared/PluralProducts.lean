import WptFyi.Shared.CommaPlaceholder

/-!
# Plural and repeated products

A `products` parameter that joins specs by commas must mean the same as the specs given
one by one.

The loop that protects the commas between labels replaces from the left and the longest match
first, and it runs until nothing matches. Its result has a description without turns, `hideInside`:
a comma becomes a placeholder when a bracket was opened before it and not closed since. On joined
specs that are accepted, this leaves exactly the commas that join them, and splitting gives the
specs with their own commas hidden. What is left is to turn these back, which goes wrong only where
a label has a piece of a placeholder.

- `hideInside`: what the loop of `protectNested` leaves, character by character
  (`protectNested_eq`);
- `split_protected`: the pieces of joined specs are the specs with their commas hidden;
- `Joinable`: the lists of specs on which the two ways are compared;
- `parseProductsParam_join_iff`: the two ways of giving the specs agree exactly when
  reading them back keeps them apart and keeps their labels.
-/

namespace WptFyi.Shared

open Lib Lib.GoStrings

/-! ## What the loop leaves

The loop replaces commas inside of brackets until there are none. What it leaves can be said in one
pass over the characters that knows whether a bracket is open. -/

/-- Whether a bracket is open after a text. -/
def openAfter : Bool → List Char → Bool
  | isOpen, [] => isOpen
  | isOpen, c :: cs =>
    openAfter (if c = '[' then true else if c = ']' then false else isOpen) cs

/-- The text with placeholders for the commas where a bracket is open. -/
def hideInside : Bool → List Char → List Char
  | _, [] => []
  | isOpen, c :: cs =>
    (if c = ',' ∧ isOpen then commaPlaceholder else [c]) ++
      hideInside (if c = '[' then true else if c = ']' then false else isOpen) cs

theorem openAfter_append (isOpen : Bool) (as bs : List Char) :
    openAfter isOpen (as ++ bs) = openAfter (openAfter isOpen as) bs := by
  induction as generalizing isOpen with
  | nil => rfl
  | cons a as ih => exact ih _

theorem hideInside_append (isOpen : Bool) (as bs : List Char) :
    hideInside isOpen (as ++ bs) = hideInside isOpen as ++ hideInside (openAfter isOpen as) bs := by
  induction as generalizing isOpen with
  | nil => rfl
  | cons a as ih =>
    rw [List.cons_append, hideInside, ih, hideInside, List.append_assoc]
    rfl

theorem openAfter_placeholder (isOpen : Bool) : openAfter isOpen commaPlaceholder = isOpen := rfl

theorem hideInside_placeholder (isOpen : Bool) :
    hideInside isOpen commaPlaceholder = commaPlaceholder := by
  cases isOpen <;> rfl

theorem openAfter_of_notMem {cs : List Char} (h : ']' ∉ cs) : openAfter true cs = true := by
  induction cs with
  | nil => rfl
  | cons c cs ih =>
    obtain ⟨hc, hcs⟩ := List.ne_and_not_mem_of_not_mem_cons h
    rw [openAfter, if_neg (Ne.symm hc)]
    split <;> exact ih hcs

/-- One replacement hides commas that are to be hidden. -/
theorem hideInside_replaceNested (cs : List Char) (isOpen : Bool) :
    hideInside isOpen (replaceNested 0 cs) = hideInside isOpen cs := by
  refine replaceNested_induction
    (P := fun cs out => ∀ isOpen, hideInside isOpen out = hideInside isOpen cs) (fun _ => rfl)
    ?_ ?_ cs isOpen
  · intro c cs out _ h isOpen
    rw [hideInside, hideInside, h]
  · intro inner rest out hinner h isOpen
    have hopen : openAfter isOpen ('[' :: inner) = true := openAfter_of_notMem hinner
    rw [hideInside_append, hideInside_append, hideInside_append, openAfter_append, hopen,
      openAfter_placeholder, hideInside_placeholder, h, List.append_assoc]
    rfl

/-- Where nothing matches, nothing is to be hidden. -/
theorem hideInside_of_not_matches {cs : List Char} (h : matchesNested cs = false) (isOpen : Bool)
    (hopen : isOpen = true → ',' ∉ cs.takeWhile (· ≠ ']')) : hideInside isOpen cs = cs := by
  induction cs generalizing isOpen with
  | nil => rfl
  | cons c cs ih =>
    rw [matchesNested, Bool.or_eq_false_iff] at h
    obtain ⟨hgroup, hrest⟩ := h
    have hkeep : ¬(c = ',' ∧ isOpen = true) := by
      rintro ⟨rfl, hisOpen⟩
      exact hopen hisOpen (by simp)
    rw [hideInside, if_neg hkeep, List.singleton_append]
    refine congrArg (c :: ·) (ih hrest _ ?_)
    split
    · next hc =>
      intro _ hcomma
      have hmatch : nestedGroup (c :: cs) =
          some (c :: upToLastComma (cs.takeWhile (· ≠ ']'))) := if_pos ⟨hc, hcomma⟩
      rw [hmatch] at hgroup
      cases hgroup
    · split
      · exact fun hfalse => absurd hfalse Bool.false_ne_true
      · next hc hc' =>
        intro hisOpen hcomma
        refine hopen hisOpen ?_
        rw [List.takeWhile_cons_of_pos (by simpa using hc')]
        exact List.mem_cons_of_mem _ hcomma

/-- **What the loop leaves**: placeholders for the commas after an opening bracket that
is not closed yet. -/
theorem protectNested_eq (cs : List Char) : protectNested cs = hideInside false cs := by
  fun_induction protectNested cs with
  | case1 cs hmatch ih => rw [ih, hideInside_replaceNested]
  | case2 cs hmatch =>
    exact (hideInside_of_not_matches (by simpa using hmatch) false (by simp)).symm

/-! ## Specs

A spec by itself closes each bracket that it opens, so in a list of specs only the commas inside of
one are hidden. -/

/-- Inside brackets all commas are hidden. -/
theorem hideInside_true {cs : List Char} (h : ']' ∉ cs) : hideInside true cs = hideCommas cs := by
  induction cs with
  | nil => rfl
  | cons c cs ih =>
    obtain ⟨hc, hcs⟩ := List.ne_and_not_mem_of_not_mem_cons h
    have hstate : (if c = '[' then true else if c = ']' then false else true) = true := by
      rw [if_neg (Ne.symm hc)]
      split <;> rfl
    rw [hideInside, hstate, ih hcs, hideCommas, hideCommas, List.flatMap_cons]
    simp

/-- Outside brackets none is. -/
theorem hideInside_false {cs : List Char} (h : '[' ∉ cs) :
    hideInside false cs = cs ∧ openAfter false cs = false := by
  induction cs with
  | nil => exact ⟨rfl, rfl⟩
  | cons c cs ih =>
    obtain ⟨hc, hcs⟩ := List.ne_and_not_mem_of_not_mem_cons h
    have hstate : (if c = '[' then true else if c = ']' then false else false) = false := by
      rw [if_neg (Ne.symm hc)]
      split <;> rfl
    rw [hideInside, openAfter, hstate, if_neg (by simp)]
    exact ⟨congrArg (c :: ·) (ih hcs).1, (ih hcs).2⟩

/-- A spec's brackets are closed, and the commas between them are all it has. -/
structure Hideable (cs : List Char) : Prop where
  hidden : hideInside false cs = hideCommas cs
  closed : openAfter false cs = false

theorem hideable_of_notMem {cs : List Char} (hopen : '[' ∉ cs) (hcomma : ',' ∉ cs) :
    Hideable cs := by
  obtain ⟨hhidden, hclosed⟩ := hideInside_false hopen
  exact ⟨by rw [hhidden, hideCommas_of_notMem hcomma], hclosed⟩

theorem Hideable.append {as bs : List Char} (ha : Hideable as) (hb : Hideable bs) :
    Hideable (as ++ bs) where
  hidden := by rw [hideInside_append, ha.hidden, ha.closed, hb.hidden, hideCommas_append]
  closed := by rw [openAfter_append, ha.closed, hb.closed]

/-- Labels in brackets. -/
theorem hideable_labels {labels : List Char} (hclose : ']' ∉ labels) :
    Hideable ('[' :: labels ++ [']']) where
  hidden := by
    rw [List.cons_append, hideInside, hideInside_append]
    show '[' :: (hideInside true labels ++ hideInside (openAfter true labels) [']']) = _
    rw [hideInside_true hclose, openAfter_of_notMem hclose]
    show _ = hideCommas (['['] ++ (labels ++ [']']))
    rw [hideCommas_append, hideCommas_append]
    rfl
  closed := by
    rw [List.cons_append, openAfter, openAfter_append]
    show openAfter (openAfter true labels) [']'] = false
    rw [openAfter_of_notMem hclose]
    rfl

/-- **An accepted spec** with no comma before its labels is hideable. -/
theorem hideable_spec {m : LowerCase} {spec : String} (hok : (parseProductSpec m spec).2 = none)
    (hcommas : CommasInLabels spec) : Hideable spec.toList := by
  obtain ⟨parts, hvalid, rfl⟩ := exists_parts hok
  have hproduct : Hideable parts.product.toList :=
    hideable_of_notMem hvalid.product (SpecParts.comma_notMem_product hvalid hcommas)
  have hname : Hideable parts.name.toList := by
    rw [toList_name]
    cases hlabels : parts.labels with
    | none => exact hproduct
    | some labels => exact hproduct.append (hideable_labels (hvalid.labels labels hlabels).2)
  rw [SpecParts.toList_text]
  cases hsha : parts.sha with
  | none => exact hname
  | some sha =>
    have hok := hvalid.sha sha hsha
    refine hname.append (hideable_of_notMem ?_ ?_)
    · exact List.not_mem_cons_of_ne_of_not_mem (by decide) (notMem_sha hok (by decide) (by decide))
    · exact List.not_mem_cons_of_ne_of_not_mem (by decide) (notMem_sha hok (by decide) (by decide))

/-! ## Joined specs -/

/-- A spec with its commas hidden. -/
def hideSpec (spec : String) : String := String.ofList (hideCommas spec.toList)

theorem toList_hideSpec (spec : String) : (hideSpec spec).toList = hideCommas spec.toList :=
  String.toList_ofList

/-- **Hiding in joined specs** hides in each and leaves the commas between them. -/
theorem hideInside_join {specs : List String} (h : ∀ spec ∈ specs, Hideable spec.toList) :
    hideInside false (join specs ',').toList = (join (specs.map hideSpec) ',').toList := by
  induction specs with
  | nil => rfl
  | cons spec specs ih =>
    have hspec := h spec List.mem_cons_self
    cases specs with
    | nil =>
      rw [List.map_singleton, join_singleton, join_singleton, hspec.hidden, toList_hideSpec]
    | cons spec' specs =>
      rw [List.map_cons, List.map_cons, toList_join_cons_cons, toList_join_cons_cons,
        hideInside_append, hspec.hidden, hspec.closed, toList_hideSpec]
      refine congrArg (hideCommas spec.toList ++ ·) ?_
      show ',' :: hideInside false (join (spec' :: specs) ',').toList = _
      rw [ih fun s hs => h s (List.mem_cons_of_mem _ hs)]
      rfl

theorem split_protected {specs : List String} (hne : specs ≠ [])
    (h : ∀ spec ∈ specs, Hideable spec.toList) :
    split (String.ofList (protectNested (join specs ',').toList)) ',' = specs.map hideSpec := by
  rw [protectNested_eq, hideInside_join h, String.ofList_toList]
  refine split_join (by simpa using hne) fun piece hpiece => ?_
  obtain ⟨spec, -, rfl⟩ := List.mem_map.mp hpiece
  rw [toList_hideSpec]
  exact notMem_hideCommas _

/-! ## Distinct values -/

theorem distinctValues_of_nodup {params values : List String} (hne : ∀ v ∈ values, v ≠ "")
    (hnodup : (params ++ values).Nodup) : distinctValues params values = params ++ values := by
  induction values generalizing params with
  | nil => exact (List.append_nil params).symm
  | cons value values ih =>
    have hfresh : value ∉ params := by
      intro hmem
      exact (List.disjoint_of_nodup_append hnodup) hmem List.mem_cons_self
    rw [distinctValues, if_neg (not_or.mpr ⟨hne value List.mem_cons_self, hfresh⟩),
      ih (fun v hv => hne v (List.mem_cons_of_mem _ hv)) (by simpa using hnodup)]
    simp

/-- The loop keeps each value once. -/
theorem nodup_distinctValues {params : List String} (values : List String) (h : params.Nodup) :
    (distinctValues params values).Nodup := by
  induction values generalizing params with
  | nil => exact h
  | cons value values ih =>
    rw [distinctValues]
    split
    · exact ih h
    · next hnew =>
      refine ih (List.Nodup.append h (List.nodup_singleton _) ?_)
      intro v hv hv'
      rw [List.mem_singleton.mp hv'] at hv
      exact hnew (Or.inr hv)

theorem length_distinctValues_le (params values : List String) :
    (distinctValues params values).length ≤ params.length + values.length := by
  induction values generalizing params with
  | nil => exact Nat.le_refl _
  | cons value values ih =>
    rw [distinctValues, List.length_cons]
    split
    · exact (ih params).trans (by omega)
    · have := ih (params ++ [value])
      rw [List.length_append, List.length_singleton] at this
      omega

/-- Where none is dropped, they are all there. -/
theorem distinctValues_of_length {params values : List String}
    (h : (distinctValues params values).length = params.length + values.length) :
    distinctValues params values = params ++ values := by
  induction values generalizing params with
  | nil => exact (List.append_nil params).symm
  | cons value values ih =>
    rw [distinctValues] at h ⊢
    split at h
    · have := length_distinctValues_le params values
      rw [List.length_cons] at h
      omega
    · next hnew =>
      rw [if_neg hnew, ih]
      · simp
      · rw [h, List.length_append, List.length_singleton, List.length_cons]
        omega

/-! ## Both ways -/

section BothWays

variable {m : LowerCase} {specs : List String}

/-- A list of specs is accepted when each of them is. -/
theorem parseProductSpecs_eq_ok_iff {products : List ProductSpec} :
    parseProductSpecs m specs = .ok products ↔
      specs.map (parseProductSpec m) = products.map fun product => (product, none) := by
  induction specs generalizing products with
  | nil =>
    rw [parseProductSpecs, List.map_nil]
    cases products with
    | nil => exact iff_of_true rfl rfl
    | cons product products => exact iff_of_false (by simp) (by simp)
  | cons spec specs ih =>
    rw [parseProductSpecs, List.map_cons]
    rcases hspec : parseProductSpec m spec with ⟨product, _ | err⟩
    · cases hrest : parseProductSpecs m specs with
      | error err =>
        refine iff_of_false (by simp [Except.map]) fun hmap => ?_
        cases products with
        | nil => cases hmap
        | cons product' products =>
          have := ih.mpr (List.cons.inj hmap).2
          rw [hrest] at this
          cases this
      | ok products' =>
        have hmap := ih.mp hrest
        rw [hmap]
        cases products with
        | nil => simp [Except.map]
        | cons product' products =>
          have hinj : Function.Injective
              fun product : ProductSpec => (product, (none : Option String)) :=
            fun _ _ h => (Prod.mk.inj h).1
          simp [Except.map, List.map_inj_right hinj]
    -- the first spec has an error and ends the loop
    · cases products with
      | nil => simp
      | cons product' products => simp

/-- The empty text is no spec. -/
theorem not_accepted_empty : (parseProductSpec m "").2 = some "invalid browser name: " := by
  have hlower : m.toLower "" = "" := m.toLower_of_ascii (by simp)
  have hat : splitAtNonMainAt "" = [""] := by decide
  have hbracket : split "" '[' = [""] := by decide
  have hdash : split "" '-' = [""] := by decide
  have hname : isBrowserName "" = false := by decide
  rw [parseProductSpec, hat]
  show (parseLabelled m _ _ "").2 = _
  rw [parseLabelled, hbracket]
  show (parseProduct m "").2 = _
  rw [parseProduct, hdash, if_neg (by decide)]
  show (if !isBrowserName (m.toLower "") then _ else _ : Product × Option String).2 = _
  rw [hlower, hname]
  rfl

theorem ne_empty_of_accepted {spec : String} (hok : (parseProductSpec m spec).2 = none) :
    spec ≠ "" := by
  rintro rfl
  rw [not_accepted_empty] at hok
  cases hok

/-- The parameters that are parsed, each with its placeholders turned back. -/
theorem parseProductsParam_of_params {repeatedParam : List String} {pluralParam : String}
    {params : List String} (hparams : parseRepeatedParamValues repeatedParam
      (String.ofList (protectNested pluralParam.toList)) = params) (hne : params ≠ []) :
    parseProductsParam m repeatedParam pluralParam =
      (parseProductSpecs m
        (params.map fun param => String.ofList (revertCommas 0 param.toList))).map some := by
  rw [parseProductsParam, hparams]
  cases params with
  | nil => exact absurd rfl hne
  | cons param params => rfl

/-- What an accepted list of specs is parsed to. -/
def parsedSpecs (m : LowerCase) (specs : List String) : List ProductSpec :=
  specs.map fun spec => (parseProductSpec m spec).1

theorem parseProductSpecs_of_accepted (hok : ∀ spec ∈ specs, (parseProductSpec m spec).2 = none) :
    parseProductSpecs m specs = .ok (parsedSpecs m specs) := by
  rw [parseProductSpecs_eq_ok_iff, parsedSpecs, List.map_map]
  exact List.map_congr_left fun spec hspec => Prod.ext rfl (hok spec hspec)

/-- The lists of specs the two ways are compared on: distinct and accepted, with commas
in the labels only, and no placeholder written out. -/
structure Joinable (m : LowerCase) (specs : List String) : Prop where
  distinct : specs.Nodup
  accepted : ∀ spec ∈ specs, (parseProductSpec m spec).2 = none
  commas : ∀ spec ∈ specs, CommasInLabels spec
  placeholder : ∀ spec ∈ specs, ¬ commaPlaceholder <:+: spec.toList

/-- Specs given one by one are parsed as they are. -/
theorem parseProductsParam_repeated (h : Joinable m specs) (hne : specs ≠ []) :
    parseProductsParam m specs "" = .ok (some (parsedSpecs m specs)) := by
  have hparams : parseRepeatedParamValues specs (String.ofList (protectNested "".toList)) =
      specs := by
    rw [protectNested_eq]
    show (if specs = [] ∧ "" = "" then [] else distinctValues [] specs) = specs
    have hdistinct : distinctValues [] specs = [] ++ specs :=
      distinctValues_of_nodup (fun spec hspec => ne_empty_of_accepted (h.accepted spec hspec))
        h.distinct
    rw [if_neg fun hnone => hne hnone.1, hdistinct, List.nil_append]
  have hrevert : specs.map (fun param => String.ofList (revertCommas 0 param.toList)) = specs := by
    conv_rhs => rw [← List.map_id specs]
    refine List.map_congr_left fun spec hspec => ?_
    rw [revertCommas_eq_self (h.placeholder spec hspec), String.ofList_toList, id]
  rw [parseProductsParam_of_params hparams hne, hrevert,
    parseProductSpecs_of_accepted h.accepted]
  rfl

theorem hideSpec_ne_empty {spec : String} (h : spec ≠ "") : hideSpec spec ≠ "" := by
  intro hempty
  have hne : spec.toList ≠ [] := by simpa using h
  refine hideCommas_ne_nil hne ?_
  rw [← toList_hideSpec, hempty]
  rfl

/-- Joined specs are split into the specs with their commas hidden. -/
theorem parseRepeatedParamValues_join (h : Joinable m specs) (hne : specs ≠ []) :
    parseRepeatedParamValues [] (String.ofList (protectNested (join specs ',').toList)) =
      distinctValues [] (specs.map hideSpec) := by
  have hpieces := split_protected hne fun spec hspec =>
    hideable_spec (h.accepted spec hspec) (h.commas spec hspec)
  have hplural : String.ofList (protectNested (join specs ',').toList) ≠ "" := by
    intro hempty
    have hsplit : split "" ',' = [""] := by decide
    rw [hempty, hsplit] at hpieces
    obtain ⟨spec, hspec, hhide⟩ := List.mem_map.mp (hpieces ▸ List.mem_singleton_self "")
    exact hideSpec_ne_empty (ne_empty_of_accepted (h.accepted spec hspec)) hhide
  rw [parseRepeatedParamValues, if_neg fun hnone => hplural hnone.2, if_pos hplural, hpieces,
    List.nil_append]

/-- The pieces of joined specs, turned back. -/
theorem map_hideSpec_revert : (specs.map hideSpec).map
    (fun param => String.ofList (revertCommas 0 param.toList)) = specs.map readBack := by
  rw [List.map_map]
  refine List.map_congr_left fun spec _ => ?_
  show String.ofList (revertCommas 0 (hideSpec spec).toList) = readBack spec
  rw [toList_hideSpec]
  rfl

/-- Specs are told apart with their commas hidden as they are when read back. -/
theorem nodup_hideSpec_iff : (specs.map hideSpec).Nodup ↔ (specs.map readBack).Nodup := by
  rw [← map_hideSpec_revert]
  refine ⟨fun hnodup => hnodup.map_on ?_, List.Nodup.of_map _⟩
  intro a ha b hb heq
  obtain ⟨spec, -, rfl⟩ := List.mem_map.mp ha
  obtain ⟨spec', -, rfl⟩ := List.mem_map.mp hb
  rw [String.ofList_inj, toList_hideSpec, toList_hideSpec] at heq
  have hhide := congrArg hideCommas heq
  rw [hideCommas_revertCommas (notMem_hideCommas _),
    hideCommas_revertCommas (notMem_hideCommas _)] at hhide
  rw [hideSpec, hhide, hideSpec]

/-- Reading the specs back keeps them apart and keeps their labels. -/
structure ReadsBack (specs : List String) : Prop where
  distinct : (specs.map readBack).Nodup
  labels : ∀ spec ∈ specs, specLabels (readBack spec) = specLabels spec

theorem parseProductsParam_join_of_distinct (h : Joinable m specs) (hne : specs ≠ [])
    (hdistinct : (specs.map readBack).Nodup) : parseProductsParam m [] (join specs ',') =
      (parseProductSpecs m (specs.map readBack)).map some := by
  have hvalues : distinctValues [] (specs.map hideSpec) = [] ++ specs.map hideSpec := by
    refine distinctValues_of_nodup ?_ (nodup_hideSpec_iff.mpr hdistinct)
    intro value hvalue
    obtain ⟨spec, hspec, rfl⟩ := List.mem_map.mp hvalue
    exact hideSpec_ne_empty (ne_empty_of_accepted (h.accepted spec hspec))
  have hparams := parseRepeatedParamValues_join h hne
  rw [hvalues, List.nil_append] at hparams
  rw [parseProductsParam_of_params hparams (by simpa using hne), map_hideSpec_revert]

theorem parseProductSpecs_readBack_iff (h : Joinable m specs) :
    parseProductSpecs m (specs.map readBack) = .ok (parsedSpecs m specs) ↔
      ∀ spec ∈ specs, specLabels (readBack spec) = specLabels spec := by
  have hparsed := parseProductSpecs_eq_ok_iff.mp (parseProductSpecs_of_accepted h.accepted)
  rw [parseProductSpecs_eq_ok_iff, ← hparsed, List.map_map, List.map_inj_left]
  refine forall₂_congr fun spec hspec => ?_
  rw [Function.comp_apply]
  exact parseProductSpec_readBack_iff (h.accepted spec hspec) (h.commas spec hspec)
    (h.placeholder spec hspec)

/-- Where as many specs come out as go in, none was taken for another. -/
theorem distinct_of_join (h : Joinable m specs) (hne : specs ≠ [])
    (hjoin : parseProductsParam m [] (join specs ',') = .ok (some (parsedSpecs m specs))) :
    (specs.map readBack).Nodup := by
  have hparams := parseRepeatedParamValues_join h hne
  generalize hvalues : distinctValues [] (specs.map hideSpec) = values at hparams
  have hnil : values ≠ [] := by
    rintro rfl
    rw [parseProductsParam, hparams] at hjoin
    cases hjoin
  rw [parseProductsParam_of_params hparams hnil] at hjoin
  cases hspecs : parseProductSpecs m
      (values.map fun param => String.ofList (revertCommas 0 param.toList)) with
  | error err =>
    rw [hspecs] at hjoin
    cases hjoin
  | ok products =>
    rw [hspecs] at hjoin
    obtain rfl : products = parsedSpecs m specs := Option.some.inj (Except.ok.inj hjoin)
    -- as many products as specs were parsed, so no two specs were joined into one value
    have hlength := congrArg List.length (parseProductSpecs_eq_ok_iff.mp hspecs)
    rw [List.length_map, List.length_map, List.length_map, parsedSpecs, List.length_map,
      ← hvalues] at hlength
    have hall : distinctValues [] (specs.map hideSpec) = [] ++ specs.map hideSpec := by
      refine distinctValues_of_length ?_
      rw [hlength, List.length_map, List.length_nil, Nat.zero_add]
    have hnodup := nodup_distinctValues (specs.map hideSpec) List.nodup_nil
    rw [hall, List.nil_append] at hnodup
    exact nodup_hideSpec_iff.mp hnodup

end BothWays

/-- **Plural and repeated products.** The loop ends for every parameter. Joined specs are
parsed like repeated ones exactly when reading them back keeps them apart and keeps their
labels. -/
theorem parseProductsParam_join_iff (pluralParam : List Char) (m : LowerCase)
    (specs : List String) :
    (∃ turns, matchesNested ((replaceNested 0)^[turns] pluralParam) = false ∧
      protectNested pluralParam = (replaceNested 0)^[turns] pluralParam) ∧
    (Joinable m specs →
      (parseProductsParam m [] (join specs ',') = parseProductsParam m specs "" ↔
        ReadsBack specs)) := by
  refine ⟨exists_not_matchesNested pluralParam, fun h => ?_⟩
  by_cases hne : specs = []
  · subst hne
    exact iff_of_true rfl ⟨List.nodup_nil, fun spec hspec => absurd hspec List.not_mem_nil⟩
  rw [parseProductsParam_repeated h hne]
  constructor
  · intro hjoin
    -- equal lists of products are of one length
    have hdistinct := distinct_of_join h hne hjoin
    rw [parseProductsParam_join_of_distinct h hne hdistinct] at hjoin
    refine ⟨hdistinct, (parseProductSpecs_readBack_iff h).mp ?_⟩
    cases hspecs : parseProductSpecs m (specs.map readBack) with
    | error err =>
      rw [hspecs] at hjoin
      cases hjoin
    | ok products =>
      rw [hspecs] at hjoin
      rw [Option.some.inj (Except.ok.inj hjoin)]
  · rintro ⟨hdistinct, hlabels⟩
    rw [parseProductsParam_join_of_distinct h hne hdistinct,
      (parseProductSpecs_readBack_iff h).mpr hlabels]
    rfl

/-- A label that ends in a piece of a placeholder loses it to the comma after it. -/
theorem not_join_eq_repeated : ¬ ∀ (m : LowerCase) (specs : List String), Joinable m specs →
    parseProductsParam m [] (join specs ',') = parseProductsParam m specs "" := by
  intro hall
  have hlisted : Joinable .ascii ["chrome[%COMMA,b]"] := by
    refine ⟨List.nodup_singleton _, ?_, ?_, ?_⟩ <;>
      refine fun spec hspec => List.mem_singleton.mp hspec ▸ ?_
    · exact Option.isNone_iff_eq_none.mp (by decide +kernel)
    · unfold CommasInLabels
      decide
    · decide
  have hsame := hall .ascii ["chrome[%COMMA,b]"] hlisted
  rw [parseProductsParam, parseProductsParam, protectNested_eq, protectNested_eq] at hsame
  revert hsame
  decide +kernel

end WptFyi.Shared
