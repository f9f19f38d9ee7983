import WptFyi.Shared.ProductSpecRoundTrip
import WptFyi.Webapp.ProductInfo

/-!
# Two parsers of product specs

The server cuts a spec at the `@` of its SHA, the UI at the first `@` it sees; the
server drops empty labels and lowers the browser's name, the UI does neither.

Specs that the server accepts are taken by their parts. When the first `@` is the one before the
SHA, the UI finds the same parts, and they can be compared one by one. When there is an `@main`
before it, it stands in the version or in a label, and the UI takes all that follows for the SHA.
It then has a version or a label that the server does not have, so the two cannot agree by accident
either.

- `parseProductSpec_text`: what the UI reads in a spec written from its parts;
- `PlainlyWritten`: no `@main` before the SHA, no empty label, no upper-case browser;
- `agreesWithServer_iff`: on which of the specs that the server accepts (without an
  OS) the UI reads the same, and prints what the server reads the same.
-/

namespace WptFyi.Webapp

open Lib Lib.GoStrings Shared

/-! ## Agreement -/

/-- The UI's product is the server's spec; an undefined version is the empty one. -/
structure SameProduct (product : UIProduct) (p : ProductSpec) : Prop where
  browser_name : product.browser_name = p.browserName
  browser_version : product.browser_version.getD "" = p.browserVersion
  labels : product.labels.toFinset = p.labels.getD ∅
  revision : product.revision = p.revision ∨
    (computeIsLatest product.revision = true ∧ isLatest p.revision = true)

/-- The UI accepts the spec, reads what the server reads, and prints a spec that the
server reads the same way. -/
def AgreesWithServer (m : LowerCase) (s : String) : Prop :=
  ∃ product, parseProductSpec s = .ok product ∧
    SameProduct product (Shared.parseProductSpec m s).1 ∧
    (Shared.parseProductSpec m (getSpec product)).2 = none ∧
    SameSpec (Shared.parseProductSpec m s).1 (Shared.parseProductSpec m (getSpec product)).1

/-- The part of a spec before the SHA. -/
def specName (s : String) : String := (splitAtNonMainAt s).headD ""

/-- The labels of a spec as they are written. -/
def specLabelPieces (s : String) : List String :=
  match split (specName s) '[' with
  | [_, labels] => split (String.ofList labels.toList.dropLast) ','
  | _ => []

/-- No `@main` in a version or a label, no empty label, no upper-case browser. -/
structure PlainlyWritten (m : LowerCase) (s : String) : Prop where
  ats : '@' ∉ (specName s).toList
  labels : "" ∉ specLabelPieces s
  browser : m.toLower (specBrowser s) = specBrowser s

/-! ## What the UI reads

The UI splits at each `@`, then at brackets and dashes. In a spec with no `@` before that of the
SHA it finds the parts that the spec was written from. -/

theorem mem_of_mem_cut {s : String} {c d : Char} {a b : String} (h : cutAt s c = some (a, b))
    (hd : d ∈ b.toList) : d ∈ s.toList := by
  unfold cutAt at h
  simp only at h
  split_ifs at h
  rw [← (Prod.mk.inj (Option.some_inj.mp h)).2, String.toList_ofList] at hd
  exact List.mem_of_mem_drop hd

/-- The UI's version is part of the product. -/
theorem mem_of_mem_version {name : String} {d : Char}
    (hd : d ∈ ((parseProduct name).2.getD "").toList) : d ∈ name.toList := by
  unfold parseProduct at hd
  cases hcut : cutAt name '-' with
  | none =>
    rw [hcut] at hd
    simp at hd
  | some pieces =>
    rw [hcut] at hd
    exact mem_of_mem_cut hcut hd

/-- The first of a character in a string. -/
theorem exists_cut {s : String} {c : Char} (h : c ∈ s.toList) :
    ∃ a b : String, s = a ++ String.singleton c ++ b ∧ c ∉ a.toList := by
  obtain ⟨a, b, heq, ha⟩ := List.eq_append_cons_of_mem h
  refine ⟨String.ofList a, String.ofList b, ?_, by rwa [String.toList_ofList]⟩
  rw [← String.toList_inj, heq]
  simp [String.toList_append]

/-- The product the UI reads in a spec whose name has no `@`. -/
def uiProduct (parts : SpecParts) : UIProduct where
  browser_name := (parseProduct parts.product).1
  browser_version := (parseProduct parts.product).2
  labels := match parts.labels with
    | none => []
    | some labels => uniqueLabels (split labels ',')
  revision := parts.sha.getD ""

section Accepted

variable {m : LowerCase} {parts : SpecParts}

/-- A known browser is written with something. -/
theorem ne_empty_of_toLower_mem {b : String} (h : m.toLower b ∈ defaultBrowsers ++ extraBrowsers) :
    b ≠ "" := by
  rintro rfl
  rw [m.toLower_of_ascii (by simp)] at h
  exact absurd h (by decide)

theorem product_ne_empty (hok : (parts.spec m).2 = none) : parts.product ≠ "" := by
  have hparses := parses_product hok
  intro hempty
  rw [hempty, split_of_notMem (by simp)] at hparses
  have hmem := hparses.browserName_mem (by simp)
  generalize (parts.spec m).1.toProduct = p at hparses hmem
  cases hparses with
  | browser hlower _ =>
    rw [← hlower] at hmem
    exact ne_empty_of_toLower_mem hmem rfl

/-- What the UI does after its cut at the `@`. -/
theorem cutAt_text (hok : (parts.spec m).2 = none)
    (hat : '@' ∉ parts.name.toList) :
    (cutAt parts.text '@').getD (parts.text, "") = (parts.name, parts.sha.getD "") := by
  unfold SpecParts.text
  cases hsha : parts.sha with
  | none =>
    simp only
    rw [cutAt_of_notMem hat]
    rfl
  | some sha =>
    have hne : parts.name ≠ "" := by
      intro hname
      have hlist := @toList_name parts
      rw [hname] at hlist
      have hproduct : parts.product.toList = [] := by
        cases hlabels : parts.labels with
        | none => rw [hlabels] at hlist; simpa using hlist.symm
        | some labels => rw [hlabels] at hlist; simp at hlist
      exact product_ne_empty hok (String.toList_inj.mp hproduct)
    simp only
    rw [show "@" = String.singleton '@' from rfl, cutAt_append hat hne]
    rfl

/-- **What the UI reads** when the first `@` is the one before the SHA. -/
theorem parseProductSpec_text (h : parts.Valid) (hok : (parts.spec m).2 = none)
    (hat : '@' ∉ parts.name.toList) :
    parseProductSpec parts.text = .ok (uiProduct parts) := by
  unfold parseProductSpec uiProduct
  rw [cutAt_text hok hat]
  simp only
  unfold SpecParts.name
  cases hlabels : parts.labels with
  | none =>
    simp only
    rw [cutAt_of_notMem h.product]
  | some labels =>
    have hlist : (labels ++ "]").toList = labels.toList ++ [']'] := by simp [String.toList_append]
    simp only
    rw [show "[" = String.singleton '[' from rfl, cutAt_append h.product (product_ne_empty hok)]
    simp only
    rw [hlist, if_neg (by simp), List.dropLast_concat, String.ofList_toList]

/-- The pieces of a product without an OS, and what the UI reads in them. -/
theorem product_without_os (hok : (parts.spec m).2 = none)
    (hos : (split parts.product '-').length ≤ 2) :
    (split parts.product '-' = [parts.product] ∧
        parseProduct parts.product = (parts.product, none) ∧
        (parts.spec m).1.browserName = m.toLower parts.product ∧
        (parts.spec m).1.browserVersion = "") ∨
      ∃ b v, split parts.product '-' = [b, v] ∧ parts.product = b ++ "-" ++ v ∧
        parseProduct parts.product = (b, some v) ∧ v ≠ "" ∧
        (parts.spec m).1.browserName = m.toLower b ∧ (parts.spec m).1.browserVersion = v := by
  have hparses := parses_product hok
  have hmem := hparses.browserName_mem fun _ => notMem_of_mem_split
  generalize hproduct : (parts.spec m).1.toProduct = p at hparses hmem
  generalize hpieces : split parts.product '-' = pieces at hparses hos
  cases hparses with
  | @browser b _ hlower _ =>
    have hname : b = parts.product := by
      rw [← join_split parts.product '-', hpieces, join_singleton]
    subst hname
    have hdash : '-' ∉ parts.product.toList :=
      notMem_of_mem_split (hpieces ▸ List.mem_cons_self)
    refine Or.inl ⟨rfl, ?_, hlower.symm, rfl⟩
    rw [parseProduct, cutAt_of_notMem hdash]
  | @version b _ v hlower _ hv =>
    obtain ⟨heq, hb, _⟩ := split_eq_pair_iff.mp hpieces
    have hne : b ≠ "" := ne_empty_of_toLower_mem (hlower ▸ hmem)
    refine Or.inr ⟨b, v, rfl, heq, ?_, ne_empty_of_parseVersion hv, hlower.symm, rfl⟩
    rw [parseProduct, heq, cutAt_append hb hne]
  | os _ _ _ => simp at hos
  | osVersion _ _ _ _ => simp at hos

/-! ## An `@main` before the SHA -/

theorem text_eq_product_append : ∃ rest, parts.text = parts.product ++ rest := by
  unfold SpecParts.text SpecParts.name
  cases parts.labels <;> cases parts.sha <;> simp only [String.append_assoc]
  · exact ⟨"", by simp⟩
  · exact ⟨_, rfl⟩
  · exact ⟨_, rfl⟩
  · exact ⟨_, rfl⟩

theorem text_eq_labels_append {labels : String} (hlabels : parts.labels = some labels) :
    ∃ rest, parts.text = parts.product ++ "[" ++ (labels ++ rest) := by
  unfold SpecParts.text SpecParts.name
  rw [hlabels]
  cases parts.sha <;> simp only [String.append_assoc]
  · exact ⟨_, rfl⟩
  · exact ⟨_, rfl⟩

/-- An `@main` in the product is in the version, as the server reads it, and does not
come first. -/
theorem at_mem_version (hok : (parts.spec m).2 = none)
    (hos : (split parts.product '-').length ≤ 2) (hat : '@' ∈ parts.product.toList) :
    '@' ∈ (parts.spec m).1.browserVersion.toList ∧ parts.product.toList.head? ≠ some '@' := by
  have hbrowser : ∀ {b}, m.toLower b = (parts.spec m).1.browserName → '@' ∉ b.toList := fun hb =>
    (parses_product hok).at_notMem_browser (fun _ => notMem_of_mem_split) hb
  rcases product_without_os hok hos with ⟨_, _, hname, _⟩ | ⟨b, v, _, heq, _, _, hname, hversion⟩
  · exact absurd hat (hbrowser hname.symm)
  · have hb : '@' ∉ b.toList := hbrowser hname.symm
    have hlist : parts.product.toList = b.toList ++ '-' :: v.toList := by
      rw [heq]
      simp [String.toList_append]
    rw [hlist, List.mem_append, List.mem_cons] at hat
    rw [hversion, hlist]
    refine ⟨(hat.resolve_left hb).resolve_left (by decide), fun hhead => ?_⟩
    cases hb' : b.toList with
    | nil =>
      rw [hb'] at hhead
      exact absurd (Option.some_inj.mp hhead) (by decide)
    | cons c cs =>
      rw [hb'] at hhead hb
      exact hb (Option.some_inj.mp hhead ▸ List.mem_cons_self)

/-- An `@main` in the product: the UI's version ends before it. -/
theorem not_sameProduct_of_at_mem_product (h : parts.Valid) (hok : (parts.spec m).2 = none)
    (hos : (split parts.product '-').length ≤ 2) (hat : '@' ∈ parts.product.toList) {product}
    (hproduct : parseProductSpec parts.text = .ok product) :
    ¬ SameProduct product (parts.spec m).1 := by
  intro hsame
  obtain ⟨rest, htext⟩ : ∃ rest, parts.text = parts.product ++ rest := text_eq_product_append
  obtain ⟨a, b, heq, ha⟩ := exists_cut hat
  obtain ⟨hversion, hhead⟩ := at_mem_version hok hos hat
  have hne : a ≠ "" := by
    rintro rfl
    exact hhead (by rw [heq]; simp [String.toList_append])
  have hopen : '[' ∉ a.toList := fun hmem =>
    h.product (by rw [heq]; simp [String.toList_append, hmem])
  have hcut : cutAt parts.text '@' = some (a, b ++ rest) := by
    have hcutAt := cutAt_append (b := b ++ rest) ha hne
    rwa [← String.append_assoc, ← heq, ← htext] at hcutAt
  unfold parseProductSpec at hproduct
  rw [hcut] at hproduct
  simp only [Option.getD_some] at hproduct
  rw [cutAt_of_notMem hopen] at hproduct
  simp only [Except.ok.injEq] at hproduct
  rw [← hsame.browser_version, ← hproduct] at hversion
  exact ha (mem_of_mem_version hversion)

/-- An `@main` in the labels: the UI finds no closing bracket. -/
theorem parseProductSpec_error (h : parts.Valid) (hok : (parts.spec m).2 = none)
    (hat : '@' ∉ parts.product.toList) {labels : String} (hlabels : parts.labels = some labels)
    (hmem : '@' ∈ labels.toList) :
    parseProductSpec parts.text = .error "Expected closing bracket" := by
  obtain ⟨rest, htext⟩ := text_eq_labels_append hlabels
  obtain ⟨a, b, heq, ha⟩ := exists_cut hmem
  have hcut : cutAt parts.text '@' = some (parts.product ++ "[" ++ a, b ++ rest) := by
    have hassoc : parts.text = parts.product ++ "[" ++ a ++ String.singleton '@' ++
        (b ++ rest) := by
      rw [htext, heq]
      simp only [String.append_assoc]
    rw [hassoc]
    refine cutAt_append (by simp [String.toList_append, hat, ha]) ?_
    intro hempty
    simpa using congrArg String.toList hempty
  have hclose : a.toList.getLast? ≠ some ']' := by
    intro hlast
    refine (h.labels labels hlabels).2 ?_
    rw [heq]
    simp [String.toList_append, List.mem_of_getLast? hlast]
  unfold parseProductSpec
  rw [hcut]
  simp only [Option.getD_some]
  rw [show "[" = String.singleton '[' from rfl, cutAt_append h.product (product_ne_empty hok)]
  exact if_pos hclose

/-! ## No `@` before the SHA -/

/-- The labels as they are written, off the parts. -/
theorem specLabelPieces_text (h : parts.Valid) : specLabelPieces parts.text =
    match parts.labels with
    | none => []
    | some labels => split labels ',' := by
  unfold specLabelPieces specName
  rw [headD_splitAtNonMainAt h, split_name h]
  cases parts.labels with
  | none => rfl
  | some labels =>
    have hlist : (labels ++ "]").toList = labels.toList ++ [']'] := by simp [String.toList_append]
    simp only
    rw [hlist, List.dropLast_concat, String.ofList_toList]

/-- Browser and version, on both sides. -/
theorem browser_and_version (h : parts.Valid) (hok : (parts.spec m).2 = none)
    (hos : (split parts.product '-').length ≤ 2) :
    (uiProduct parts).browser_name = specBrowser parts.text ∧
      (parts.spec m).1.browserName = m.toLower (specBrowser parts.text) ∧
      (uiProduct parts).browser_version.getD "" = (parts.spec m).1.browserVersion := by
  unfold specBrowser uiProduct
  rw [specProduct_text h]
  rcases product_without_os hok hos with ⟨hsplit, hparse, hname, hversion⟩ |
    ⟨b, v, hsplit, _, hparse, _, hname, hversion⟩
  · rw [hsplit, hparse, hversion]
    exact ⟨rfl, hname, rfl⟩
  · rw [hsplit, hparse, hversion]
    exact ⟨rfl, hname, rfl⟩

/-- The UI has the labels of the server unless one of them is empty. -/
theorem toFinset_labels_iff (h : parts.Valid) :
    (uiProduct parts).labels.toFinset = (parts.spec m).1.labels.getD ∅ ↔
      "" ∉ specLabelPieces parts.text := by
  rw [labels_spec h, specLabels_text h, specLabelPieces_text h]
  unfold uiProduct
  cases parts.labels with
  | none => simp
  | some labels =>
    have hunique : (uniqueLabels (split labels ',')).toFinset = (split labels ',').toFinset := by
      ext label
      simp [mem_uniqueLabels]
    simp only [Option.map_some, Option.getD_some]
    rw [hunique, labelSet]
    constructor
    · intro heq hempty
      have hmem : "" ∈ ((split labels ',').filter (· ≠ "")).toFinset :=
        heq ▸ List.mem_toFinset.mpr hempty
      simp at hmem
    · intro hempty
      rw [List.filter_eq_self.mpr]
      intro label hlabel
      exact decide_eq_true fun heq => hempty (heq ▸ hlabel)

/-- Every revision is read alike, up to the spellings of `latest`. -/
theorem revision_uiProduct (h : parts.Valid) :
    (uiProduct parts).revision = (parts.spec m).1.revision ∨
      (computeIsLatest (uiProduct parts).revision = true ∧
        isLatest (parts.spec m).1.revision = true) := by
  show parts.sha.getD "" = parts.revision ∨
    (computeIsLatest (parts.sha.getD "") = true ∧ isLatest parts.revision = true)
  by_cases hlatest : isLatest parts.revision = true
  · right
    refine ⟨?_, hlatest⟩
    cases hsha : parts.sha with
    | none => rfl
    | some sha =>
      rw [SpecParts.revision, hsha] at hlatest
      exact (isLatest_parseSHA (h.sha sha hsha)).symm.trans hlatest
  · left
    rw [(parseSHA_revision h hlatest).1]
    rfl

/-- **The same product** is read where no label is empty and the browser is in lower case. -/
theorem sameProduct_iff (h : parts.Valid) (hok : (parts.spec m).2 = none)
    (hos : (split parts.product '-').length ≤ 2) :
    SameProduct (uiProduct parts) (parts.spec m).1 ↔ "" ∉ specLabelPieces parts.text ∧
      m.toLower (specBrowser parts.text) = specBrowser parts.text := by
  obtain ⟨hname, hlower, hversion⟩ := browser_and_version h hok hos
  constructor
  · intro hsame
    refine ⟨(toFinset_labels_iff h).mp hsame.labels, ?_⟩
    rw [← hlower, ← hsame.browser_name, hname]
  · rintro ⟨hlabels, hbrowser⟩
    refine ⟨?_, hversion, (toFinset_labels_iff h).mpr hlabels, revision_uiProduct h⟩
    rw [hname, hlower, hbrowser]

/-! ## What the UI prints

The UI prints the parts that it has read, without repeated labels. The server reads them as the
same product, since it takes the labels as a set. -/

/-- The parts of the spec the UI prints. -/
def printedParts (parts : SpecParts) : SpecParts where
  product := parts.product
  labels := parts.labels.map fun labels => join (uniqueLabels (split labels ',')) ','
  sha := if computeIsLatest (parts.sha.getD "") then none else parts.sha

theorem uniqueLabels_ne_nil (labels : String) : uniqueLabels (split labels ',') ≠ [] := by
  have hne : split labels ',' ≠ [] := by simp [split]
  obtain ⟨label, hlabel⟩ := List.exists_mem_of_ne_nil _ hne
  exact List.ne_nil_of_mem (mem_uniqueLabels.mpr hlabel)

/-- What the UI prints is written from parts again. -/
theorem getSpec_uiProduct (hok : (parts.spec m).2 = none)
    (hos : (split parts.product '-').length ≤ 2) :
    getSpec (uiProduct parts) = (printedParts parts).text := by
  -- without an OS the browser and its version print as the product was written
  have hproduct : (if (parseProduct parts.product).2.getD "" ≠ "" then
      (parseProduct parts.product).1 ++ "-" ++ (parseProduct parts.product).2.getD ""
      else (parseProduct parts.product).1) = parts.product := by
    rcases product_without_os hok hos with ⟨_, hparse, _⟩ | ⟨b, v, _, heq, hparse, hne, _⟩
    · rw [hparse]
      exact if_neg fun hempty => hempty rfl
    · rw [hparse, heq]
      exact if_pos hne
  unfold getSpec uiProduct
  simp only
  rw [hproduct]
  unfold printedParts SpecParts.text SpecParts.name
  have hsha : ∀ spec : String,
      (if parts.sha.getD "" ≠ "" ∧ (!computeIsLatest (parts.sha.getD "")) = true then
        spec ++ "@" ++ parts.sha.getD "" else spec) =
      ((if computeIsLatest (parts.sha.getD "") then none else parts.sha).map
        fun sha => spec ++ "@" ++ sha).getD spec := by
    intro spec
    cases parts.sha with
    | none => rfl
    | some sha =>
      simp only [Option.getD_some]
      by_cases hlatest : computeIsLatest sha = true
      · simp [hlatest]
      · have hne : sha ≠ "" := by
          rintro rfl
          exact hlatest rfl
        simp [hlatest, hne]
  rw [hsha]
  cases parts.labels with
  | none =>
    cases (if computeIsLatest (parts.sha.getD "") then none else parts.sha) <;> rfl
  | some labels =>
    simp only [if_pos (uniqueLabels_ne_nil labels), Option.map_some, String.append_assoc]
    cases (if computeIsLatest (parts.sha.getD "") then none else parts.sha) <;> rfl

/-- These can be told apart, if there is no `@` before the SHA. -/
theorem printedParts_valid (h : parts.Valid) (hat : '@' ∉ parts.name.toList) :
    (printedParts parts).Valid := by
  have hpiece : ∀ {labels c}, parts.labels = some labels → c ≠ ',' → c ∉ labels.toList →
      c ∉ (join (uniqueLabels (split labels ',')) ',').toList := fun _ hc hmem =>
    notMem_join hc fun _ hlabel hin => hmem (subset_of_mem_split (mem_uniqueLabels.mp hlabel) hin)
  -- no `@` before the SHA, hence none in the labels that are printed
  have hname : '@' ∉ (printedParts parts).name.toList := by
    rw [toList_name] at hat ⊢
    unfold printedParts
    cases hlabels : parts.labels with
    | none => rwa [hlabels] at hat
    | some labels =>
      rw [hlabels] at hat
      simp only [List.mem_append, List.mem_cons, not_or] at hat
      simp only [Option.map_some, List.mem_append, List.mem_cons, not_or]
      exact ⟨hat.1, hat.2.1, hpiece hlabels (by decide) hat.2.2.1, hat.2.2.2⟩
  refine ⟨h.product, ?_, atsAreMain_of_notMem hname, fun _ => ?_, ?_⟩
  · intro labels hprinted
    cases hlabels : parts.labels with
    | none => simp [printedParts, hlabels] at hprinted
    | some written =>
      have heq : join (uniqueLabels (split written ',')) ',' = labels := by
        simpa [printedParts, hlabels] using hprinted
      obtain ⟨hopen, hclose⟩ := h.labels written hlabels
      exact heq ▸ ⟨hpiece hlabels (by decide) hopen, hpiece hlabels (by decide) hclose⟩
  · rw [List.count_eq_zero.mpr hname]
    omega
  · intro sha hprinted
    unfold printedParts at hprinted
    simp only at hprinted
    split_ifs at hprinted
    exact h.sha sha hprinted

theorem labelSet_join_uniqueLabels (labels : String) :
    labelSet (join (uniqueLabels (split labels ',')) ',') = labelSet labels := by
  have hsplit : split (join (uniqueLabels (split labels ',')) ',') ',' =
      uniqueLabels (split labels ',') :=
    split_join (uniqueLabels_ne_nil labels) fun _ hlabel =>
      notMem_of_mem_split (mem_uniqueLabels.mp hlabel)
  ext label
  simp [labelSet, hsplit, mem_uniqueLabels]

/-- The server reads what the UI prints as it read the spec itself. -/
theorem parse_getSpec_uiProduct (h : parts.Valid) (hok : (parts.spec m).2 = none)
    (hos : (split parts.product '-').length ≤ 2) (hat : '@' ∉ parts.name.toList) :
    (Shared.parseProductSpec m (getSpec (uiProduct parts))).2 = none ∧
      SameSpec (parts.spec m).1 (Shared.parseProductSpec m (getSpec (uiProduct parts))).1 := by
  rw [getSpec_uiProduct hok hos, Shared.parseProductSpec_text m (printedParts_valid h hat)]
  refine ⟨hok, rfl, ?_, ?_⟩
  · show (parts.labels.map labelSet).getD ∅ = ((printedParts parts).labels.map labelSet).getD ∅
    unfold printedParts
    cases parts.labels with
    | none => rfl
    | some labels => exact (labelSet_join_uniqueLabels labels).symm
  · show parts.revision = (printedParts parts).revision ∨
      (isLatest parts.revision = true ∧ isLatest (printedParts parts).revision = true)
    -- a revision that is latest is not printed, and latest again when read
    by_cases hlatest : isLatest parts.revision = true
    · right
      have hprinted : (printedParts parts).sha = none := by
        unfold printedParts
        rcases revision_uiProduct (m := m) h with heq | ⟨hui, _⟩
        · refine if_pos ?_
          show computeIsLatest (uiProduct parts).revision = true
          rw [heq]
          exact hlatest
        · exact if_pos hui
      refine ⟨hlatest, ?_⟩
      rw [SpecParts.revision, hprinted]
      rfl
    · left
      have hsha := (parseSHA_revision h hlatest).1
      have hprinted : (printedParts parts).sha = parts.sha := by
        unfold printedParts
        refine if_neg ?_
        rw [hsha]
        exact hlatest
      rw [SpecParts.revision, SpecParts.revision, hprinted]

end Accepted

/-- **The two parsers agree** on a spec without an OS exactly when no `@main` stands
before its SHA, none of its labels is empty and its browser is in lower case. -/
theorem agreesWithServer_iff (m : LowerCase) {s : String}
    (hs : (Shared.parseProductSpec m s).2 = none) (hos : (split (specProduct s) '-').length ≤ 2) :
    AgreesWithServer m s ↔ PlainlyWritten m s := by
  obtain ⟨parts, h, rfl⟩ := exists_parts hs
  rw [Shared.parseProductSpec_text m h] at hs
  rw [specProduct_text h] at hos
  have hname : specName parts.text = parts.name := headD_splitAtNonMainAt h
  unfold AgreesWithServer
  rw [Shared.parseProductSpec_text m h]
  constructor
  · rintro ⟨product, hproduct, hsame, _⟩
    -- an `@` before the one of the revision is taken for it by the page
    have hproductAt : '@' ∉ parts.product.toList := fun hat =>
      not_sameProduct_of_at_mem_product h hs hos hat hproduct hsame
    have hlabelsAt : ∀ labels, parts.labels = some labels → '@' ∉ labels.toList := by
      intro labels hlabels hat
      rw [parseProductSpec_error h hs hproductAt hlabels hat] at hproduct
      cases hproduct
    have hat : '@' ∉ parts.name.toList := by
      rw [toList_name]
      cases hlabels : parts.labels with
      | none => exact hproductAt
      | some labels => simp [hproductAt, hlabelsAt labels hlabels]
    rw [parseProductSpec_text h hs hat, Except.ok.injEq] at hproduct
    subst hproduct
    obtain ⟨hlabels, hbrowser⟩ := (sameProduct_iff h hs hos).mp hsame
    exact ⟨hname ▸ hat, hlabels, hbrowser⟩
  · rintro ⟨hat, hlabels, hbrowser⟩
    rw [hname] at hat
    exact ⟨uiProduct parts, parseProductSpec_text h hs hat,
      (sameProduct_iff h hs hos).mpr ⟨hlabels, hbrowser⟩, parse_getSpec_uiProduct h hs hos hat⟩

/-- A version, labels and a SHA. -/
theorem agreesWithServer_labelled : AgreesWithServer .ascii "chrome-64[stable,a]@1234567" :=
  (agreesWithServer_iff .ascii (by decide) (by decide)).mpr ⟨by decide, by decide, by decide⟩

/-- The UI cuts the version of a WebKit nightly at its `@main`. -/
theorem not_agreesWithServer_nightly :
    (Shared.parseProductSpec .ascii "wpewebkit-2.49.1 (294826@main)").2 = none ∧
      (split (specProduct "wpewebkit-2.49.1 (294826@main)") '-').length ≤ 2 ∧
      ¬ AgreesWithServer .ascii "wpewebkit-2.49.1 (294826@main)" := by
  refine ⟨by decide, by decide, ?_⟩
  rintro ⟨product, hproduct, hsame, _⟩
  have hui : parseProductSpec "wpewebkit-2.49.1 (294826@main)" =
      .ok ⟨"wpewebkit", some "2.49.1 (294826", [], "main)"⟩ := by decide
  have hserver :
      (Shared.parseProductSpec .ascii "wpewebkit-2.49.1 (294826@main)").1.browserVersion =
      "2.49.1 (294826@main)" := by decide
  rw [hui, Except.ok.injEq] at hproduct
  subst hproduct
  have hversion := hsame.browser_version
  rw [hserver] at hversion
  exact absurd hversion (by decide)

end WptFyi.Webapp
