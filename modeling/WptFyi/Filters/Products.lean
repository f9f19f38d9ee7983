import WptFyi.Filters.Fields

/-!
# The products of a filter

The products are specs, with their placeholders for commas turned back, and the browsers of
the old parameters. All are written as `ProductSpec.String` prints them.

A spec is printed without the details that `ParseProductSpec` throws away, so the question for each
is whether what is printed is read as the same spec (`ComesBack`). For the specs of the request this
can be told from their text: nothing may be lost on the way to the spec that printing does not
restore, and at most one `@` is left. For a browser of the old parameters, which is accepted though
it is an experimental one, the printed text is the browser's name and the parser makes a label of
its suffix. That distinct texts are needed comes from reading, which drops repeated values.

- `not_placeholder_infix_revertCommas`: no placeholder is left in a text that was read;
- `comesBack_parsed_iff`, `comesBack_browserSpec_iff`: which products come back;
- `parseProductOrBrowserParams_spec`: what the parameters give;
- `parseProductOrBrowserParams_printed_iff`: when all of them are read again.
-/

namespace WptFyi.Filters

open Lib Lib.GoStrings Shared

/-! ## Placeholders

The plural parameter hides the commas inside brackets. A product that was parsed from it has no
placeholder left in it, so printing and parsing it again does not run into one. -/

section Infixes

variable {sep : Char} {w : List Char}

/-- A piece that has no separator does not go across one. -/
theorem infix_append_cons_iff {α : Type*} {sep : α} {w a b : List α} (h : sep ∉ w) :
    w <:+: a ++ sep :: b ↔ w <:+: a ∨ w <:+: b := by
  induction a with
  | nil =>
    rw [List.nil_append, List.infix_cons_iff, List.infix_nil]
    refine or_congr_left ⟨fun hbegins => ?_, fun hnil => hnil ▸ List.nil_prefix⟩
    cases w with
    | nil => rfl
    | cons x w =>
      obtain ⟨rfl, -⟩ := List.cons_prefix_cons.mp hbegins
      exact absurd List.mem_cons_self h
  | cons c a ih =>
    rw [List.cons_append, List.infix_cons_iff, ih, List.infix_cons_iff, ← List.cons_append,
      prefix_append_cons_iff h, or_assoc]

theorem not_infix_join {pieces : List String} (hne : w ≠ []) (hsep : sep ∉ w)
    (h : ∀ piece ∈ pieces, ¬ w <:+: piece.toList) : ¬ w <:+: (join pieces sep).toList := by
  induction pieces with
  | nil => exact fun hin => hne (List.infix_nil.mp hin)
  | cons piece pieces ih =>
    obtain ⟨hpiece, hpieces⟩ := List.forall_mem_cons.mp h
    cases pieces with
    | nil => rwa [join_singleton]
    | cons piece' pieces =>
      rw [toList_join_cons_cons, infix_append_cons_iff hsep]
      exact not_or.mpr ⟨hpiece, ih hpieces⟩

/-- What is joined has each of the pieces in it. -/
theorem infix_join_of_mem {pieces : List String} {piece : String} (h : piece ∈ pieces) :
    piece.toList <:+: (join pieces sep).toList := by
  induction pieces with
  | nil => exact absurd h List.not_mem_nil
  | cons first pieces ih =>
    cases pieces with
    | nil => rw [join_singleton, List.mem_singleton.mp h]
    | cons second pieces =>
      rw [toList_join_cons_cons]
      rcases List.mem_cons.mp h with rfl | hrest
      · exact (List.prefix_append _ _).isInfix
      · exact (ih hrest).trans ((List.suffix_cons _ _).trans (List.suffix_append _ _)).isInfix

theorem infix_of_mem_split {s piece : String} (h : piece ∈ split s sep) :
    piece.toList <:+: s.toList := by
  have hin := @infix_join_of_mem sep _ piece h
  rwa [join_split] at hin

end Infixes

/-- What is turned back begins like the text itself, up to a comma. -/
theorem prefix_of_prefix_revertCommas {p cs : List Char} (hp : ',' ∉ p)
    (h : p <+: revertCommas 0 cs) : p <+: cs := by
  induction p generalizing cs with
  | nil => exact List.nil_prefix
  | cons x p ih =>
    obtain ⟨hx, hp⟩ := List.ne_and_not_mem_of_not_mem_cons hp
    by_cases hbegins : commaPlaceholder <+: cs
    · obtain ⟨rest, rfl⟩ := hbegins
      rw [revertCommas_placeholder, List.cons_prefix_cons] at h
      exact absurd h.1.symm hx
    · cases cs with
      | nil => exact h
      | cons c cs =>
        rw [revertCommas_cons hbegins, List.cons_prefix_cons] at h
        exact List.cons_prefix_cons.mpr ⟨h.1, ih hp h.2⟩

/-- **No placeholder** is left. -/
theorem not_placeholder_infix_revertCommas (cs : List Char) :
    ¬ commaPlaceholder <:+: revertCommas 0 cs := by
  induction hn : cs.length using Nat.strong_induction_on generalizing cs with
  | _ n ih =>
    by_cases hbegins : commaPlaceholder <+: cs
    · obtain ⟨rest, rfl⟩ := hbegins
      rw [revertCommas_placeholder, List.infix_cons_iff, not_or]
      rw [List.length_append, show commaPlaceholder.length = 7 from rfl] at hn
      exact ⟨fun h => absurd (List.cons_prefix_cons.mp h).1 (by decide),
        ih rest.length (by omega) rest rfl⟩
    · cases cs with
      | nil => exact fun h => absurd (List.infix_nil.mp h) (by decide)
      | cons c cs =>
        have hself := revertCommas_cons hbegins
        rw [hself, List.infix_cons_iff, not_or]
        refine ⟨fun h => hbegins ?_, ih cs.length (by rw [← hn]; exact Nat.lt_succ_self _) cs rfl⟩
        rw [← hself] at h
        exact prefix_of_prefix_revertCommas (by decide) h

section Printed

variable {m : LowerCase} {parts : SpecParts}

theorem not_placeholder_infix_of_notMem {cs : List Char} (h : '%' ∉ cs) :
    ¬ commaPlaceholder <:+: cs :=
  fun hin => h (hin.subset (by decide))

/-- What is printed has no placeholder that its text did not have. -/
theorem not_placeholder_infix_printed (h : parts.Valid) (hok : (parts.spec m).2 = none)
    (hplaceholder : ¬ commaPlaceholder <:+: parts.text.toList) :
    ¬ commaPlaceholder <:+: (parts.spec m).1.string.toList := by
  have hname : parts.name.toList <:+: parts.text.toList := by
    rw [SpecParts.toList_text]
    cases parts.sha with
    | none => exact List.infix_rfl
    | some sha => exact (List.prefix_append _ _).isInfix
  have hproduct : parts.product.toList <:+: parts.text.toList := by
    obtain ⟨rest, hrest⟩ := SpecParts.exists_text_eq parts
    rw [hrest]
    exact (List.prefix_append _ _).isInfix
  -- every piece of the product was in the text, but for the browser, which is plain
  have hprinted : ¬ commaPlaceholder <:+: (parts.spec m).1.parts.product.toList := by
    show ¬ _ <:+: (parts.spec m).1.toProduct.string.toList
    rw [Product.string_eq_join]
    refine not_infix_join (by decide) (by decide) fun piece hpiece => ?_
    rcases (parses_product hok).mem_pieces hpiece with rfl | hmem
    · have hplain := (plain_of_mem _
        ((parses_product hok).browserName_mem fun _ => notMem_of_mem_split)).2
      exact not_placeholder_infix_of_notMem (notMem_of_plain hplain (by decide))
    · exact fun hin => hplaceholder ((hin.trans (infix_of_mem_split hmem)).trans hproduct)
  -- and so was every label
  have hlabels : ∀ labels, (parts.spec m).1.parts.labels = some labels →
      ¬ commaPlaceholder <:+: labels.toList := by
    intro labels hlabels
    rw [eq_labelText_of_printed h hlabels, labelText]
    refine not_infix_join (by decide) (by decide) fun label hlabel => ?_
    rw [mem_rangeOrder, specLabels_text h] at hlabel
    cases hinner : parts.labels with
    | none =>
      rw [hinner] at hlabel
      exact absurd hlabel (Finset.notMem_empty _)
    | some inner =>
      rw [hinner] at hlabel
      have hin : inner.toList <:+: parts.name.toList := by
        rw [toList_name, hinner]
        exact ⟨parts.product.toList ++ ['['], [']'], by simp⟩
      exact fun hword => hplaceholder
        (((hword.trans (infix_of_mem_split (mem_labelSet hlabel).1)).trans hin).trans hname)
  have hname' : ¬ commaPlaceholder <:+: (parts.spec m).1.parts.name.toList := by
    rw [toList_name]
    cases hprintedLabels : (parts.spec m).1.parts.labels with
    | none => exact hprinted
    | some labels =>
      simp only
      rw [infix_append_cons_iff (by decide), infix_append_cons_iff (by decide)]
      exact not_or.mpr ⟨hprinted, not_or.mpr ⟨hlabels labels hprintedLabels,
        fun hnil => absurd (List.infix_nil.mp hnil) (by decide)⟩⟩
  rw [ProductSpec.string_eq_text, SpecParts.toList_text]
  cases hsha : (parts.spec m).1.parts.sha with
  | none => exact hname'
  | some sha =>
    simp only
    rw [infix_append_cons_iff (by decide)]
    refine not_or.mpr ⟨hname', not_placeholder_infix_of_notMem ?_⟩
    have hrevision : (if isLatest parts.revision then none else some parts.revision) = some sha :=
      hsha
    split_ifs at hrevision with hlatest
    rw [← Option.some_inj.mp hrevision]
    exact notMem_sha (congrArg Prod.snd (parseSHA_revision h hlatest).2) (by decide) (by decide)

end Printed

/-! ## Products that come back

Which products are read again from what they are printed as, by what their labels and their
revision look like. -/

section Surviving

variable {m : LowerCase} {parts : SpecParts}

theorem printed_sha_eq_none_iff (h : parts.Valid) : (parts.spec m).1.parts.sha = none ↔
    parts.sha = none ∨ LatestAsked parts.text := by
  have hsha : (parts.spec m).1.parts.sha =
      if isLatest parts.revision then none else some parts.revision := rfl
  rw [latestAsked_text_iff h, hsha]
  cases hparts : parts.sha with
  | none => simp [SpecParts.revision, hparts, show isLatest "latest" = true from rfl]
  | some sha =>
    have hlatest := isLatest_parseSHA (h.sha sha hparts)
    rw [SpecParts.revision, hparts]
    simp [hlatest]

/-- No two `@main`s are printed without a SHA exactly when none are asked for. -/
theorem printed_one_iff (h : parts.Valid) (hok : (parts.spec m).2 = none)
    (hskipped : ¬ OSNameSkipped (split parts.product '-')) :
    ((parts.spec m).1.parts.sha = none → (parts.spec m).1.parts.name.toList.count '@' ≤ 1) ↔
      (LatestAsked parts.text → atCount parts.text ≤ 1) := by
  rw [printed_sha_eq_none_iff h, printed_count h hok hskipped, or_imp]
  exact and_iff_right fun hnone => atCount_le_of_sha_none h hnone

/-- What is printed of accepted parts comes back exactly when their text survives it. -/
theorem spec_string_iff (h : parts.Valid) (hok : (parts.spec m).2 = none) :
    ((parseProductSpec m (parts.spec m).1.string).2 = none ∧
      SameSpec (parts.spec m).1 (parseProductSpec m (parts.spec m).1.string).1) ↔
        SurvivesPrinting parts.text := by
  rw [SurvivesPrinting, specProduct_text h]
  constructor
  · rintro ⟨haccepted, hsame⟩
    have hone : (parts.spec m).1.parts.sha = none →
        (parts.spec m).1.parts.name.toList.count '@' ≤ 1 := by
      intro hnone
      by_contra hcount
      exact parse_printed_error h hok hnone (by omega) haccepted
    have hskipped := (parse_printed h hok hone).2.mp hsame
    exact ⟨hskipped, (printed_one_iff h hok hskipped).mp hone⟩
  · rintro ⟨hskipped, hcount⟩
    obtain ⟨haccepted, hsame⟩ := parse_printed h hok ((printed_one_iff h hok hskipped).mpr hcount)
    exact ⟨haccepted, hsame.mpr hskipped⟩

end Surviving

section ComesBack

variable {m : LowerCase}

/-- What is printed of a product is read, and as the same. -/
def ComesBack (m : LowerCase) (p : ProductSpec) : Prop :=
  (parseProductSpec m p.string).2 = none ∧ SameSpec p (parseProductSpec m p.string).1

theorem comesBack_parsed_iff {s : String} (hs : (parseProductSpec m s).2 = none) :
    ComesBack m (parseProductSpec m s).1 ↔ SurvivesPrinting s := by
  obtain ⟨parts, h, rfl⟩ := exists_parts hs
  rw [parseProductSpec_text m h] at hs
  rw [ComesBack, parseProductSpec_text m h]
  exact spec_string_iff h hs

theorem string_browserSpec (browser : String) : (browserSpec browser).string = browser := rfl

/-- A text without brackets and SHA is parsed as a product. -/
theorem parseProductSpec_product {product : String} (hopen : '[' ∉ product.toList)
    (hat : '@' ∉ product.toList) : parseProductSpec m product =
      parseNamed m { browserName := "", revision := "latest" } product := by
  let parts : SpecParts := ⟨product, none, none⟩
  have hvalid : parts.Valid := by
    refine ⟨hopen, nofun, atsAreMain_of_notMem hat, fun _ => ?_, nofun⟩
    show product.toList.count '@' ≤ 1
    rw [List.count_eq_zero.mpr hat]
    omega
  exact parseProductSpec_text m hvalid

/-- The name of a stable browser is a spec of it. -/
theorem parseProductSpec_stable {browser : String} (h : isStableBrowserName browser = true) :
    parseProductSpec m browser = ({ browserName := browser, revision := "latest" }, none) := by
  obtain ⟨hname, hplain⟩ := plain_of_mem browser (of_decide_eq_true h)
  have hparses : Parses m [browser] { browserName := browser } :=
    .browser (toLower_of_plain m hplain) hname
  have hproduct := parseProduct_join hparses fun piece hpiece => by
    rw [List.mem_singleton.mp hpiece]
    exact notMem_of_plain hplain (by decide)
  rw [join_singleton] at hproduct
  rw [parseProductSpec_product (notMem_of_plain hplain (by decide))
    (notMem_of_plain hplain (by decide)), parseNamed, hproduct]

/-- A browser is a stable one, or has the suffix behind one. -/
theorem isBrowserName_cases {browser : String} (h : isBrowserName browser = true) :
    isStableBrowserName browser = true ∨
      ∃ name, isStableBrowserName name = true ∧ browser = name ++ "-experimental" := by
  rw [isBrowserName, trimSuffix] at h
  split_ifs at h with hsuffix
  · obtain ⟨name, hname⟩ := hasSuffix_iff.mp hsuffix
    have hbrowser : browser = String.ofList name ++ "-experimental" := by
      rw [← String.toList_inj, String.toList_append, String.toList_ofList, hname]
    rw [hbrowser, String.toList_append, List.length_append, Nat.add_sub_cancel, List.take_left,
      String.ofList_toList] at h
    exact Or.inr ⟨_, h, hbrowser⟩
  · exact Or.inl h

theorem notMem_of_isBrowserName {browser : String} (h : isBrowserName browser = true) {c : Char}
    (hc : isPlain c = false) (hsuffix : c ∉ "-experimental".toList) : c ∉ browser.toList := by
  rcases isBrowserName_cases h with hstable | ⟨name, hstable, rfl⟩
  · exact notMem_of_plain (plain_of_mem browser (of_decide_eq_true hstable)).2 hc
  · rw [String.toList_append]
    exact fun hmem => (List.mem_append.mp hmem).elim
      (notMem_of_plain (plain_of_mem name (of_decide_eq_true hstable)).2 hc) hsuffix

/-- What is left of the suffix is no version. -/
theorem not_accepted_experimental {name : String} (h : isStableBrowserName name = true) :
    (parseProductSpec m (name ++ "-experimental")).2 ≠ none := by
  have hbrowser : isBrowserName (name ++ "-experimental") = true := by
    rw [isBrowserName, trimSuffix_append]
    exact h
  have hplain := (plain_of_mem name (of_decide_eq_true h)).2
  have hsplit : split (name ++ "-experimental") '-' = [name, "experimental"] :=
    split_eq_pair_iff.mpr
      ⟨by rw [String.append_assoc]; rfl, notMem_of_plain hplain (by decide), by decide⟩
  rw [parseProductSpec_product (notMem_of_isBrowserName hbrowser (by decide) (by decide))
    (notMem_of_isBrowserName hbrowser (by decide) (by decide))]
  intro hok
  have hparses := parses_of_parseProduct (m := m) hok
  rw [hsplit] at hparses
  generalize (parseProduct m (name ++ "-experimental")).1 = p at hparses
  cases hparses with
  | version _ _ hversion => exact absurd hversion (by decide)

/-- A browser comes back unless it is an experimental one. -/
theorem comesBack_browserSpec_iff {browser : String} (h : isBrowserName browser = true) :
    ComesBack m (browserSpec browser) ↔ isStableBrowserName browser = true := by
  rw [ComesBack, string_browserSpec]
  constructor
  · rintro ⟨hok, -⟩
    rcases isBrowserName_cases h with hstable | ⟨name, hstable, rfl⟩
    · exact hstable
    · exact absurd hok (not_accepted_experimental hstable)
  · intro hstable
    rw [parseProductSpec_stable hstable]
    exact ⟨rfl, rfl, rfl, Or.inr ⟨rfl, rfl⟩⟩

end ComesBack

/-! ## Lists of products

The list comes back when each product does and no two of them have one text, since values that are
repeated are dropped when it is read. -/

section Lists

variable {m : LowerCase} {v : Values} {products : List ProductSpec}

/-- The specs of the parameters, with their placeholders turned back. -/
def productTexts (v : Values) : List String :=
  (parseRepeatedParamValues (v.all "product")
    (String.ofList (protectNested (v.get "products").toList))).map fun param =>
      String.ofList (revertCommas 0 param.toList)

/-- The browsers of the old parameters. -/
def browserParams (v : Values) : List String := parseRepeatedParam v "browser" "browsers"

/-- The parameters for products, repeated and joined, as one list of specs. -/
theorem getD_parseProductsParam (repeatedParam : List String) (pluralParam : String) :
    (parseProductsParam m repeatedParam pluralParam).map (fun products => products.getD []) =
      parseProductSpecs m ((parseRepeatedParamValues repeatedParam
        (String.ofList (protectNested pluralParam.toList))).map fun param =>
          String.ofList (revertCommas 0 param.toList)) := by
  cases hparams : parseRepeatedParamValues repeatedParam
    (String.ofList (protectNested pluralParam.toList)) with
  | nil =>
    rw [parseProductsParam, hparams]
    rfl
  | cons param params =>
    rw [parseProductsParam_of_params hparams (List.cons_ne_nil _ _)]
    cases parseProductSpecs m ((param :: params).map fun param =>
      String.ofList (revertCommas 0 param.toList)) <;> rfl

/-- Specs are accepted when each of them is. -/
theorem parseProductSpecs_eq_ok {specs : List String}
    (h : parseProductSpecs m specs = .ok products) :
    (∀ spec ∈ specs, (parseProductSpec m spec).2 = none) ∧ products = parsedSpecs m specs := by
  rw [parseProductSpecs_eq_ok_iff] at h
  have hsecond := congrArg (List.map Prod.snd) h
  have hfirst := congrArg (List.map Prod.fst) h
  rw [List.map_map, List.map_map] at hsecond hfirst
  refine ⟨fun spec hspec => ?_, ?_⟩
  · have hmem := List.mem_map_of_mem (f := Prod.snd ∘ parseProductSpec m) hspec
    rw [hsecond] at hmem
    obtain ⟨p, -, hp⟩ := List.mem_map.mp hmem
    exact hp.symm
  · rw [parsedSpecs]
    exact ((hfirst.trans (List.map_id products))).symm

/-- The loop over the browsers fails at the first that is not known. -/
theorem checkBrowsers_eq_ok_iff {browsers browsers' : List String} :
    checkBrowsers browsers = .ok browsers' ↔
      browsers' = browsers ∧ ∀ b ∈ browsers, isBrowserName b = true := by
  induction browsers generalizing browsers' with
  | nil =>
    rw [checkBrowsers, Except.ok.injEq, eq_comm]
    simp
  | cons b browsers ih =>
    rw [checkBrowsers, List.forall_mem_cons]
    cases hb : isBrowserName b with
    | false => exact iff_of_false nofun fun h => nomatch h.2.1
    | true =>
      show (checkBrowsers browsers).map (b :: ·) = .ok browsers' ↔ _
      cases hrest : checkBrowsers browsers with
      | error err =>
        refine iff_of_false nofun fun h => ?_
        have hok := ih.mpr ⟨rfl, h.2.2⟩
        rw [hrest] at hok
        cases hok
      | ok rest =>
        obtain ⟨rfl, hall⟩ := ih.mp hrest
        rw [Except.map, Except.ok.injEq, eq_comm]
        exact ⟨fun h => ⟨h, rfl, hall⟩, fun h => h.1⟩

/-- Products and browsers together: the specs of the former, and one for each of the latter. -/
theorem parseProductOrBrowserParams_eq_ok_iff :
    parseProductOrBrowserParams m v = .ok products ↔
      ∃ specs, parseProductSpecs m (productTexts v) = .ok specs ∧
        (∀ b ∈ browserParams v, isBrowserName b = true) ∧
        products = specs ++ (browserParams v).map browserSpec := by
  have hspecs := getD_parseProductsParam (m := m) (v.all "product") (v.get "products")
  rw [← productTexts] at hspecs
  rw [parseProductOrBrowserParams, ← hspecs]
  cases parseProductsParam m (v.all "product") (v.get "products") with
  | error err => exact iff_of_false nofun fun h => nomatch h.choose_spec.1
  | ok specs =>
    show (parseBrowsersParam v).map _ = _ ↔ _
    cases hbrowsers : parseBrowsersParam v with
    | error err =>
      refine iff_of_false nofun ?_
      rintro ⟨_, -, hall, -⟩
      have hok := checkBrowsers_eq_ok_iff.mpr ⟨rfl, hall⟩
      exact absurd (hbrowsers.symm.trans hok) nofun
    | ok browsers =>
      obtain ⟨rfl, hall⟩ := checkBrowsers_eq_ok_iff.mp hbrowsers
      constructor
      · intro h
        exact ⟨specs.getD [], rfl, hall, (Except.ok.inj h).symm⟩
      · rintro ⟨_, hok, -, rfl⟩
        cases hok
        rfl

/-- **The products** that are read. -/
theorem parseProductOrBrowserParams_spec (h : parseProductOrBrowserParams m v = .ok products) :
    (∀ spec ∈ productTexts v, (parseProductSpec m spec).2 = none) ∧
      (∀ b ∈ browserParams v, isBrowserName b = true) ∧
      products = parsedSpecs m (productTexts v) ++ (browserParams v).map browserSpec := by
  obtain ⟨specs, hspecs, hbrowsers, rfl⟩ := parseProductOrBrowserParams_eq_ok_iff.mp h
  obtain ⟨haccepted, rfl⟩ := parseProductSpecs_eq_ok hspecs
  exact ⟨haccepted, hbrowsers, rfl⟩

theorem forall₂_map_right_iff {α β : Type*} {R : α → β → Prop} {f : α → β} {l : List α} :
    List.Forall₂ R l (l.map f) ↔ ∀ a ∈ l, R a (f a) := by
  induction l with
  | nil => simp
  | cons a l ih => rw [List.map_cons, List.forall₂_cons, ih, List.forall_mem_cons]

/-- **What is printed** is read again exactly when the texts are distinct, and each comes
back. -/
theorem parseProductOrBrowserParams_printed_iff
    (hplaceholder : ∀ p ∈ products, ¬ commaPlaceholder <:+: p.string.toList)
    (hproducts : v.all "product" = products.map ProductSpec.string)
    (hplural : v.get "products" = "") (hbrowsers : browserParams v = []) :
    (∃ products', parseProductOrBrowserParams m v = .ok products' ∧
      List.Forall₂ SameSpec products products') ↔
        (products.map ProductSpec.string).Nodup ∧ ∀ p ∈ products, ComesBack m p := by
  have htexts : productTexts v = distinctValues [] (products.map ProductSpec.string) := by
    have hprotect : String.ofList (protectNested "".toList) = "" := by
      rw [protectNested_eq]
      rfl
    rw [productTexts, hproducts, hplural, hprotect, parseRepeatedParamValues_repeated]
    conv_rhs => rw [← List.map_id (distinctValues [] _)]
    refine List.map_congr_left fun text htext => ?_
    obtain ⟨p, hp, rfl⟩ := List.mem_map.mp ((mem_distinctValues _ htext).resolve_left
      List.not_mem_nil).1
    rw [revertCommas_eq_self (hplaceholder p hp), String.ofList_toList, id]
  have hparsed : parsedSpecs m (products.map ProductSpec.string) =
      products.map fun p => (parseProductSpec m p.string).1 := List.map_map
  constructor
  · rintro ⟨_, hok, hsame⟩
    obtain ⟨haccepted, -, rfl⟩ := parseProductOrBrowserParams_spec hok
    rw [hbrowsers, List.map_nil, List.append_nil, htexts] at hsame
    -- none was dropped
    have hlen := hsame.length_eq
    rw [parsedSpecs, List.length_map] at hlen
    have hall : distinctValues [] (products.map ProductSpec.string) =
        [] ++ products.map ProductSpec.string := by
      refine distinctValues_of_length ?_
      rw [← hlen, List.length_map, List.length_nil, Nat.zero_add]
    rw [List.nil_append] at hall
    rw [htexts, hall] at haccepted
    rw [hall, hparsed, forall₂_map_right_iff] at hsame
    refine ⟨?_, fun p hp => ⟨haccepted _ (List.mem_map_of_mem hp), hsame p hp⟩⟩
    rw [← hall]
    exact nodup_distinctValues _ List.nodup_nil
  · rintro ⟨hnodup, hback⟩
    have haccepted : ∀ text ∈ products.map ProductSpec.string,
        (parseProductSpec m text).2 = none := by
      intro text htext
      obtain ⟨p, hp, rfl⟩ := List.mem_map.mp htext
      exact (hback p hp).1
    have hall : distinctValues [] (products.map ProductSpec.string) =
        [] ++ products.map ProductSpec.string :=
      distinctValues_of_nodup (fun text htext => ne_empty_of_accepted (haccepted text htext))
        hnodup
    rw [List.nil_append] at hall
    refine ⟨_, parseProductOrBrowserParams_eq_ok_iff.mpr
      ⟨parsedSpecs m (products.map ProductSpec.string), ?_, ?_, rfl⟩, ?_⟩
    · rw [htexts, hall]
      exact parseProductSpecs_of_accepted haccepted
    · rw [hbrowsers]
      exact fun b hb => absurd hb List.not_mem_nil
    · rw [hbrowsers, List.map_nil, List.append_nil, hparsed, forall₂_map_right_iff]
      exact fun p hp => (hback p hp).2

end Lists

end WptFyi.Filters
