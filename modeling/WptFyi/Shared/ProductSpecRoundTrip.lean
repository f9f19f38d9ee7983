import WptFyi.Shared.ProductSpecParts

/-!
# Printing a parsed spec and parsing it again

Printing leaves out what is empty. It leaves out an OS version together with an
empty OS name, and a `latest` revision together with its `@`; the former is lost,
and without the latter the `@main`s before it may be cut at.

The proof goes by the pieces of the product between its dashes, of which an accepted one has four
at most. Printing an accepted product gives a product with the same pieces, without empty ones at
the end, and that is accepted as the same product unless an OS version stood after an empty OS
name. With labels and revision the printed spec is again one that is written from parts, and
whether these can be told apart is a matter of the `@`s in the version and in the labels.

- `Parses`: the products that are accepted, by how many pieces they have;
- `SurvivesPrinting`: the condition, read off the spec as it was written;
- `parseProductSpec_string_iff`: exactly which accepted specs come back.
-/

namespace WptFyi.Shared

open Lib Lib.GoStrings

/-! ## Browsers -/

/-- `IsBrowserName` of a name without a dash: the suffix is not there. -/
theorem mem_of_isBrowserName {b : String} (hdash : '-' ∉ b.toList) (h : isBrowserName b = true) :
    b ∈ defaultBrowsers ++ extraBrowsers := by
  have hsuffix : hasSuffix b "-experimental" = false := by
    rw [← Bool.not_eq_true, hasSuffix_iff]
    intro hsuffix
    exact hdash (hsuffix.subset (by decide))
  rw [isBrowserName, trimSuffix, hsuffix] at h
  exact of_decide_eq_true h

/-- Lower-case letters, dots and underscores. -/
def isPlain (c : Char) : Bool := ('a' ≤ c && c ≤ 'z') || c == '.' || c == '_'

/-- A known browser's name is plain. -/
theorem plain_of_mem : ∀ b ∈ defaultBrowsers ++ extraBrowsers,
    isBrowserName b = true ∧ b.toList.all isPlain = true :=
  List.forall_mem_append.mpr ⟨by decide, by decide⟩

theorem notMem_of_plain {b : String} (h : b.toList.all isPlain = true) {c : Char}
    (hc : isPlain c = false) : c ∉ b.toList := by
  intro hmem
  rw [List.all_eq_true.mp h c hmem] at hc
  cases hc

/-- Lowering leaves such a browser alone, whatever the case table. -/
theorem toLower_of_plain (m : LowerCase) {b : String} (h : b.toList.all isPlain = true) :
    m.toLower b = b := by
  refine m.toLower_of_ascii fun c hc => ?_
  have hplain := List.all_eq_true.mp h c hc
  simp only [isPlain, Bool.or_eq_true, Bool.and_eq_true, decide_eq_true_eq, beq_iff_eq] at hplain
  rcases hplain with (⟨hlow, hhigh⟩ | rfl) | rfl
  · have hlow : 97 ≤ c.val.toNat := UInt32.le_iff_toNat_le.mp hlow
    have hhigh : c.val.toNat ≤ 122 := UInt32.le_iff_toNat_le.mp hhigh
    refine ⟨UInt32.lt_iff_toNat_lt.mpr (by show c.val.toNat < 128; omega), ?_⟩
    rw [Char.toLower, dif_neg]
    intro hupper
    have hz : c.val.toNat ≤ 90 := UInt32.le_iff_toNat_le.mp hupper.2
    omega
  · decide
  · decide

/-! ## Products

The product inside of a spec is read by its pieces between dashes, four at most. Printing leaves
out the empty ones at the end, which reading fills in again. -/

/-- The pieces of an accepted product, and what they are parsed to. -/
inductive Parses (m : LowerCase) : List String → Product → Prop where
  | browser {b browserName : String} : m.toLower b = browserName →
    isBrowserName browserName = true →
      Parses m [b] { browserName }
  | version {b browserName v : String} : m.toLower b = browserName →
      isBrowserName browserName = true → (parseVersion v).isSome →
      Parses m [b, v] { browserName, browserVersion := v }
  | os {b browserName v o : String} : m.toLower b = browserName →
      isBrowserName browserName = true → (parseVersion v).isSome →
      Parses m [b, v, o] { browserName, browserVersion := v, osName := o }
  | osVersion {b browserName v o w : String} : m.toLower b = browserName →
      isBrowserName browserName = true → (parseVersion v).isSome → (parseVersion w).isSome →
      Parses m [b, v, o, w]
        { browserName, browserVersion := v, osName := o, osVersion := w }

/-- The pieces of a printed product. -/
def Product.pieces (p : Product) : List String :=
  p.browserName :: ((if p.browserVersion ≠ "" then [p.browserVersion] else []) ++
    if p.osName ≠ "" then p.osName :: if p.osVersion ≠ "" then [p.osVersion] else [] else [])

/-- An OS version after an empty OS name. -/
def OSNameSkipped (pieces : List String) : Prop := ∃ b v w, pieces = [b, v, "", w]

section Products

variable {m : LowerCase} {pieces : List String} {p : Product}

/-- An accepted product, by the pieces between its dashes. -/
theorem parses_of_parseProduct {product : String} (h : (parseProduct m product).2 = none) :
    Parses m (split product '-') (parseProduct m product).1 := by
  have hne : split product '-' ≠ [] := by simp [split]
  unfold parseProduct at h ⊢
  simp only at h ⊢
  split_ifs at h ⊢ with hlen hbrowser
  simp only [Bool.not_eq_true', Bool.not_eq_false] at hbrowser
  -- as many pieces as the code tells apart, and one more
  rcases hpieces : split product '-' with _ | ⟨b, _ | ⟨v, _ | ⟨o, _ | ⟨w, _ | ⟨x, rest⟩⟩⟩⟩⟩
  · exact absurd hpieces hne
  · rw [hpieces] at hbrowser
    exact .browser rfl hbrowser
  · rw [hpieces] at h hbrowser
    simp only at h ⊢
    split_ifs at h ⊢ with hv
    exact .version rfl hbrowser (by simpa [Option.isSome_iff_ne_none] using hv)
  · rw [hpieces] at h hbrowser
    simp only at h ⊢
    split_ifs at h ⊢ with hv
    exact .os rfl hbrowser (by simpa [Option.isSome_iff_ne_none] using hv)
  · rw [hpieces] at h hbrowser
    simp only at h ⊢
    split_ifs at h ⊢ with hv hw
    exact .osVersion rfl hbrowser (by simpa [Option.isSome_iff_ne_none] using hv)
      (by simpa [Option.isSome_iff_ne_none] using hw)
  · rw [hpieces] at hlen
    simp at hlen

/-- Pieces without dashes that are joined are parsed as these pieces. -/
theorem parseProduct_join (h : Parses m pieces p) (hdash : ∀ piece ∈ pieces, '-' ∉ piece.toList) :
    parseProduct m (join pieces '-') = (p, none) := by
  have hsplit : split (join pieces '-') '-' = pieces := by
    refine split_join ?_ hdash
    cases h <;> simp
  unfold parseProduct
  simp only
  rw [hsplit]
  cases h with
  | browser hlower hb => simp [hlower, hb]
  | version hlower hb hv => simp [hlower, hb, Option.isSome_iff_ne_none.mp hv]
  | os hlower hb hv => simp [hlower, hb, Option.isSome_iff_ne_none.mp hv]
  | osVersion hlower hb hv hw =>
    simp [hlower, hb, Option.isSome_iff_ne_none.mp hv, Option.isSome_iff_ne_none.mp hw]

theorem parseVersion_empty : parseVersion "" = none := by decide

theorem Product.string_eq_join (p : Product) : p.string = join p.pieces '-' := by
  rw [← String.toList_inj]
  unfold Product.string Product.pieces
  split_ifs <;> simp [join, List.intercalate, String.toList_append]

/-- The browser of an accepted product is known. -/
theorem Parses.browserName_mem (h : Parses m pieces p)
    (hdash : ∀ piece ∈ pieces, '-' ∉ piece.toList) :
    p.browserName ∈ defaultBrowsers ++ extraBrowsers := by
  have hmem : ∀ {b rest browserName}, pieces = b :: rest → m.toLower b = browserName →
      isBrowserName browserName = true → browserName ∈ defaultBrowsers ++ extraBrowsers := by
    rintro b rest browserName rfl rfl hb
    exact mem_of_isBrowserName
      (m.notMem_toLower (by decide) (by decide) (hdash b List.mem_cons_self)) hb
  cases h with
  | browser hlower hb => exact hmem rfl hlower hb
  | version hlower hb _ => exact hmem rfl hlower hb
  | os hlower hb _ => exact hmem rfl hlower hb
  | osVersion hlower hb _ _ => exact hmem rfl hlower hb

/-- A version that parses is not empty. -/
theorem ne_empty_of_parseVersion {v : String} (h : (parseVersion v).isSome) : v ≠ "" := by
  rintro rfl
  rw [parseVersion_empty] at h
  cases h

/-- **A printed product** is accepted, and is the same unless an OS version was
left out. -/
theorem Parses.printed (h : Parses m pieces p) (hdash : ∀ piece ∈ pieces, '-' ∉ piece.toList) :
    ∃ q, Parses m p.pieces q ∧ (q = p ↔ ¬ OSNameSkipped pieces) := by
  have hlower : m.toLower p.browserName = p.browserName :=
    toLower_of_plain m (plain_of_mem _ (h.browserName_mem hdash)).2
  unfold Product.pieces
  cases h with
  | browser _ hb =>
    refine ⟨_, .browser hlower hb, iff_of_true rfl ?_⟩
    simp [OSNameSkipped]
  | version _ hb hv =>
    simp only [ne_empty_of_parseVersion hv, ne_eq, not_false_eq_true, not_true_eq_false, if_true,
      if_false, List.append_nil]
    refine ⟨_, .version hlower hb hv, iff_of_true rfl ?_⟩
    simp [OSNameSkipped]
  | @os _ _ _ o _ hb hv =>
    by_cases ho : o = ""
    · subst ho
      simp only [ne_empty_of_parseVersion hv, ne_eq, not_false_eq_true, not_true_eq_false, if_true,
        if_false, List.append_nil]
      refine ⟨_, .version hlower hb hv, iff_of_true rfl ?_⟩
      simp [OSNameSkipped]
    · simp only [ne_empty_of_parseVersion hv, ho, ne_eq, not_false_eq_true, not_true_eq_false,
        if_true, if_false]
      refine ⟨_, .os hlower hb hv, iff_of_true rfl ?_⟩
      simp [OSNameSkipped]
  | @osVersion b _ v o w _ hb hv hw =>
    by_cases ho : o = ""
    · subst ho
      simp only [ne_empty_of_parseVersion hv, ne_eq, not_false_eq_true, not_true_eq_false, if_true,
        if_false, List.append_nil]
      refine ⟨_, .version hlower hb hv, iff_of_false ?_ (not_not.mpr ⟨b, v, w, rfl⟩)⟩
      -- the OS version is lost
      intro heq
      exact ne_empty_of_parseVersion hw (congrArg Product.osVersion heq).symm
    · simp only [ne_empty_of_parseVersion hv, ne_empty_of_parseVersion hw, ho, ne_eq,
        not_false_eq_true, if_true]
      refine ⟨_, .osVersion hlower hb hv hw, iff_of_true rfl ?_⟩
      simp [OSNameSkipped, ho]

/-- A piece that is printed is the browser, or some part that is not empty. -/
theorem Product.mem_pieces {piece : String} (h : piece ∈ p.pieces) :
    piece = p.browserName ∨ (piece = p.browserVersion ∨ piece = p.osName ∨ piece = p.osVersion) ∧
      piece ≠ "" := by
  unfold Product.pieces at h
  rcases List.mem_cons.mp h with h | h
  · exact Or.inl h
  right
  rcases List.mem_append.mp h with h | h
  · split_ifs at h with hv
    · rw [List.mem_singleton] at h
      exact ⟨Or.inl h, h ▸ hv⟩
    · cases h
  · split_ifs at h with ho hw
    · rcases List.mem_cons.mp h with h | h
      · exact ⟨Or.inr (Or.inl h), h ▸ ho⟩
      · rw [List.mem_singleton] at h
        exact ⟨Or.inr (Or.inr h), h ▸ hw⟩
    · rw [List.mem_singleton] at h
      exact ⟨Or.inr (Or.inl h), h ▸ ho⟩
    · cases h

/-- What is printed is the browser and pieces that were there. -/
theorem Parses.mem_pieces (h : Parses m pieces p) {piece : String} (hpiece : piece ∈ p.pieces) :
    piece = p.browserName ∨ piece ∈ pieces := by
  rcases Product.mem_pieces hpiece with hb | ⟨hfield, hne⟩
  · exact Or.inl hb
  right
  cases h with
  | browser _ _ => simp [hne] at hfield
  | version _ _ _ => simp [hne] at hfield; simp [hfield]
  | os _ _ _ => simp [hne] at hfield; rcases hfield with h | h <;> simp [h]
  | osVersion _ _ _ _ => rcases hfield with h | h | h <;> simp [h]

theorem Parses.at_notMem_browser (h : Parses m pieces p)
    (hdash : ∀ piece ∈ pieces, '-' ∉ piece.toList) {b : String} (hb : m.toLower b = p.browserName) :
    '@' ∉ b.toList := by
  intro hat
  have hplain := (plain_of_mem _ (h.browserName_mem hdash)).2
  refine notMem_of_plain hplain (c := '@') (by decide) ?_
  rw [← hb, LowerCase.toLower, String.toList_ofList]
  exact List.mem_map.mpr ⟨'@', hat, m.rune_ascii '@' (by decide)⟩

/-- Printing keeps the `@`s, unless an OS version is left out. -/
theorem Parses.count_pieces (h : Parses m pieces p)
    (hdash : ∀ piece ∈ pieces, '-' ∉ piece.toList) (hskipped : ¬ OSNameSkipped pieces) :
    (p.pieces.map fun piece => piece.toList.count '@').sum =
      (pieces.map fun piece => piece.toList.count '@').sum := by
  have hname : p.browserName.toList.count '@' = 0 :=
    List.count_eq_zero.mpr <|
      notMem_of_plain (plain_of_mem _ (h.browserName_mem hdash)).2 (by decide)
  have hbrowser : ∀ {b}, m.toLower b = p.browserName → b.toList.count '@' = 0 := fun hb =>
    List.count_eq_zero.mpr (h.at_notMem_browser hdash hb)
  unfold Product.pieces
  cases h with
  | browser hb _ => simp [hname, hbrowser hb]
  | version hb _ hv => simp [hname, hbrowser hb, ne_empty_of_parseVersion hv]
  | @os _ _ v o hb _ hv =>
    by_cases ho : o = ""
    · simp [hname, hbrowser hb, ne_empty_of_parseVersion hv, ho]
    · simp [hname, hbrowser hb, ne_empty_of_parseVersion hv, ho]
  | @osVersion b _ v o w hb _ hv hw =>
    have ho : o ≠ "" := by
      rintro rfl
      exact hskipped ⟨b, v, w, rfl⟩
    simp [hname, hbrowser hb, ne_empty_of_parseVersion hv, ne_empty_of_parseVersion hw, ho]

end Products

/-! ## Specs -/

/-- The parts a spec is printed from. -/
def ProductSpec.parts (p : ProductSpec) : SpecParts where
  product := p.toProduct.string
  labels := match p.labels with
    | none => none
    | some labels =>
      if 0 < (labels.erase "").card then some (labelText (labels.erase "")) else none
  sha := if isLatest p.revision then none else some p.revision

theorem ProductSpec.string_eq_text (p : ProductSpec) : p.string = p.parts.text := by
  unfold ProductSpec.string SpecParts.text SpecParts.name ProductSpec.parts
  cases p.labels with
  | none =>
    simp only
    split_ifs <;> rfl
  | some labels =>
    simp only
    split_ifs <;> simp only [String.append_assoc]

/-- Equal up to a nil label set and the spellings of `latest`. -/
structure SameSpec (p q : ProductSpec) : Prop where
  product : p.toProduct = q.toProduct
  labels : p.labels.getD ∅ = q.labels.getD ∅
  revision : p.revision = q.revision ∨ (isLatest p.revision = true ∧ isLatest q.revision = true)

/-- The printed spec is accepted, and gives the same spec again. -/
def RoundTrips (m : LowerCase) (s : String) : Prop :=
  (parseProductSpec m (parseProductSpec m s).1.string).2 = none ∧
    SameSpec (parseProductSpec m s).1 (parseProductSpec m (parseProductSpec m s).1.string).1

/-! ### Reading off a spec what printing it does -/

/-- The part of a spec before the labels and the SHA. -/
def specProduct (s : String) : String := (split ((splitAtNonMainAt s).headD "") '[').headD ""

/-- The browser of a spec as it is written. -/
def specBrowser (s : String) : String := (split (specProduct s) '-').headD ""

/-- The labels of a spec. -/
def specLabels (s : String) : Finset String :=
  match split ((splitAtNonMainAt s).headD "") '[' with
  | [_, labels] => (parseLabels labels).getD ∅
  | _ => ∅

/-- The spec has an `@`, and what follows it is no SHA. -/
def LatestAsked (s : String) : Prop := ∃ name sha, splitAtNonMainAt s = [name, sha] ∧ isLatest sha

/-- The `@`s of the product and of the labels, each label once. -/
def atCount (s : String) : Nat :=
  (specProduct s).toList.count '@' + ∑ label ∈ specLabels s, label.toList.count '@'

/-- No OS version after an empty OS name; at most one `@main` before an `@` that
no SHA follows. -/
def SurvivesPrinting (s : String) : Prop :=
  ¬ OSNameSkipped (split (specProduct s) '-') ∧ (LatestAsked s → atCount s ≤ 1)

theorem toList_name {parts : SpecParts} :
    parts.name.toList = match parts.labels with
      | none => parts.product.toList
      | some labels => parts.product.toList ++ '[' :: (labels.toList ++ ']' :: []) := by
  unfold SpecParts.name
  cases parts.labels with
  | none => rfl
  | some labels => simp [String.toList_append]

/-- The `@`s of a name are those of the product and those of the labels. -/
theorem atsAreMain_name_iff {parts : SpecParts} :
    AtsAreMain parts.name.toList ↔ AtsAreMain parts.product.toList ∧
      ∀ labels, parts.labels = some labels → AtsAreMain labels.toList := by
  rw [toList_name]
  cases parts.labels with
  | none => simp
  | some labels =>
    have hcons : ∀ {c : Char} {cs : List Char}, c ≠ '@' →
        (AtsAreMain (c :: cs) ↔ AtsAreMain cs) := fun hc =>
      atsAreMain_cons_iff.trans (and_iff_right fun heq => absurd heq hc)
    simp only
    rw [atsAreMain_append_cons (by decide), hcons (by decide), atsAreMain_append_cons (by decide),
      hcons (by decide)]
    simp [atsAreMain_nil]

theorem count_name {parts : SpecParts} :
    parts.name.toList.count '@' = parts.product.toList.count '@' +
      (parts.labels.map fun labels => labels.toList.count '@').getD 0 := by
  rw [toList_name]
  cases parts.labels with
  | none => simp
  | some labels => simp

theorem atsAreMain_join_iff {pieces : List String} {sep : Char} (hat : sep ≠ '@')
    (hmain : sep ∉ "main".toList) :
    AtsAreMain (join pieces sep).toList ↔ ∀ piece ∈ pieces, AtsAreMain piece.toList := by
  induction pieces with
  | nil => simp [join, atsAreMain_nil]
  | cons a pieces ih =>
    cases pieces with
    | nil => simp [join_singleton]
    | cons b pieces =>
      rw [toList_join_cons_cons, atsAreMain_append_cons hmain, atsAreMain_cons_iff,
        and_iff_right fun heq => absurd heq hat, ih, List.forall_mem_cons (l := b :: pieces)]

/-- Labels once each have no more `@`s than all of them. -/
theorem sum_toFinset_le {α : Type*} [DecidableEq α] (l : List α) (f : α → Nat) :
    ∑ a ∈ l.toFinset, f a ≤ (l.map f).sum := by
  induction l with
  | nil => simp
  | cons a l ih =>
    rw [List.toFinset_cons, List.map_cons, List.sum_cons]
    by_cases ha : a ∈ l.toFinset
    · rw [Finset.insert_eq_of_mem ha]
      omega
    · rw [Finset.sum_insert ha]
      omega

theorem sum_labelSet_le (inner : String) :
    ∑ label ∈ labelSet inner, label.toList.count '@' ≤ inner.toList.count '@' := by
  have hsub : (((split inner ',').filter (· ≠ "")).map fun piece => piece.toList.count '@').sum ≤
      ((split inner ',').map fun piece => piece.toList.count '@').sum :=
    (List.filter_sublist.map _).sum_le_sum fun _ _ => Nat.zero_le _
  conv_rhs => rw [← join_split inner ',', count_join (by decide)]
  exact (sum_toFinset_le _ _).trans hsub

/-! ### Printed labels -/

section LabelText

variable {labels : Finset String}

/-- What holds of every label holds of the labels in order. -/
theorem forall_mem_sorted {P : String → Prop} (h : ∀ label ∈ labels, P label) :
    ∀ label ∈ (sortedOrder id Function.injective_id labels).1, P label :=
  fun label hlabel => h label ((mem_rangeOrder _ labels label).mp hlabel)

theorem labelSet_labelText (hne : labels.Nonempty)
    (h : ∀ label ∈ labels, ',' ∉ label.toList ∧ label ≠ "") :
    labelSet (labelText labels) = labels := by
  have hnil : (sortedOrder id Function.injective_id labels).1 ≠ [] := by
    obtain ⟨label, hlabel⟩ := hne
    exact List.ne_nil_of_mem ((mem_rangeOrder _ labels label).mpr hlabel)
  rw [labelSet, labelText, split_join hnil fun label hlabel => (forall_mem_sorted h label hlabel).1,
    List.filter_eq_self.mpr fun label hlabel => by
      simpa using (forall_mem_sorted h label hlabel).2]
  exact (sortedOrder id Function.injective_id labels).2.2

theorem notMem_labelText {c : Char} (hc : c ≠ ',') (h : ∀ label ∈ labels, c ∉ label.toList) :
    c ∉ (labelText labels).toList :=
  notMem_join hc (forall_mem_sorted h)

theorem atsAreMain_labelText (h : ∀ label ∈ labels, AtsAreMain label.toList) :
    AtsAreMain (labelText labels).toList :=
  (atsAreMain_join_iff (by decide) (by decide)).mpr (forall_mem_sorted h)

theorem count_labelText :
    (labelText labels).toList.count '@' = ∑ label ∈ labels, label.toList.count '@' := by
  obtain ⟨hnodup, hset⟩ := (sortedOrder id Function.injective_id labels).2
  rw [labelText, count_join (by decide), ← List.sum_toFinset _ hnodup, hset]

end LabelText

theorem mem_labelSet {inner label : String} (h : label ∈ labelSet inner) :
    label ∈ split inner ',' ∧ label ≠ "" := by
  simpa [labelSet] using h

/-! ### The printed parts of an accepted spec -/

section Accepted

variable {m : LowerCase} {parts : SpecParts}

theorem headD_splitAtNonMainAt (h : parts.Valid) :
    (splitAtNonMainAt parts.text).headD "" = parts.name := by
  unfold SpecParts.text
  cases hsha : parts.sha with
  | none => rw [splitAtNonMainAt_of_count_le_one h.ats (h.one hsha)]; rfl
  | some sha =>
    obtain ⟨hat, hmain⟩ := notMem_of_parseSHA (h.sha sha hsha)
    simp only
    rw [splitAtNonMainAt_append h.ats hat hmain]
    rfl

theorem split_name (h : parts.Valid) : split parts.name '[' = match parts.labels with
    | none => [parts.product]
    | some labels => [parts.product, labels ++ "]"] := by
  unfold SpecParts.name
  cases hlabels : parts.labels with
  | none => exact split_of_notMem h.product
  | some labels =>
    have hopen := (h.labels labels hlabels).1
    exact split_eq_pair_iff.mpr ⟨rfl, h.product, by simpa [String.toList_append] using hopen⟩

theorem specProduct_text (h : parts.Valid) : specProduct parts.text = parts.product := by
  rw [specProduct, headD_splitAtNonMainAt h, split_name h]
  cases parts.labels <;> rfl

theorem specLabels_text (h : parts.Valid) :
    specLabels parts.text = (parts.labels.map labelSet).getD ∅ := by
  unfold specLabels
  rw [headD_splitAtNonMainAt h, split_name h]
  cases hlabels : parts.labels with
  | none => rfl
  | some labels =>
    simp only
    rw [parseLabels_append (h.labels labels hlabels).2]
    rfl

/-- Whether the latest revision is asked for is read off the parts. -/
theorem latestAsked_text_iff (h : parts.Valid) :
    LatestAsked parts.text ↔ ∃ sha, parts.sha = some sha ∧ isLatest sha := by
  unfold LatestAsked SpecParts.text
  cases hsha : parts.sha with
  | none =>
    simp only
    rw [splitAtNonMainAt_of_count_le_one h.ats (h.one hsha)]
    simp
  | some sha =>
    obtain ⟨hat, hmain⟩ := notMem_of_parseSHA (h.sha sha hsha)
    simp only
    rw [splitAtNonMainAt_append h.ats hat hmain]
    simp

theorem isLatest_parseSHA {sha : String} (h : (parseSHA sha).2 = none) :
    isLatest (parseSHA sha).1 = isLatest sha := by
  unfold parseSHA at h ⊢
  split_ifs at h ⊢ with hlatest
  · rcases hlatest with rfl | rfl <;> rfl
  · rfl

/-- The revision of a spec, if it is a SHA, is parsed as such. -/
theorem parseSHA_revision (h : parts.Valid) (hlatest : ¬ isLatest parts.revision = true) :
    parts.sha = some parts.revision ∧ parseSHA parts.revision = (parts.revision, none) := by
  unfold SpecParts.revision at hlatest ⊢
  cases hsha : parts.sha with
  | none =>
    rw [hsha] at hlatest
    exact absurd rfl hlatest
  | some sha =>
    have hparse := h.sha sha hsha
    rw [hsha] at hlatest
    simp only at hlatest ⊢
    have hsame : parseSHA sha = (sha, none) := by
      unfold parseSHA at hparse hlatest ⊢
      split_ifs at hparse hlatest ⊢
      · exact absurd rfl hlatest
      · rfl
    rw [hsame]
    exact ⟨rfl, hsame⟩

/-- The labels of a spec are its labels once each, and no bracket is in them. -/
theorem labels_of_valid (h : parts.Valid) {label : String}
    (hlabel : label ∈ specLabels parts.text) :
    ',' ∉ label.toList ∧ label ≠ "" ∧ '[' ∉ label.toList ∧ ']' ∉ label.toList ∧
      AtsAreMain label.toList := by
  rw [specLabels_text h] at hlabel
  cases hlabels : parts.labels with
  | none =>
    rw [hlabels] at hlabel
    cases hlabel
  | some inner =>
    rw [hlabels] at hlabel
    obtain ⟨hsplit, hne⟩ := mem_labelSet hlabel
    obtain ⟨hopen, hclose⟩ := h.labels inner hlabels
    have hsub := subset_of_mem_split hsplit
    have hats : AtsAreMain (join (split inner ',') ',').toList := by
      rw [join_split]
      exact (atsAreMain_name_iff.mp h.ats).2 inner hlabels
    exact ⟨notMem_of_mem_split hsplit, hne, fun hmem => hopen (hsub hmem),
      fun hmem => hclose (hsub hmem),
      (atsAreMain_join_iff (by decide) (by decide)).mp hats label hsplit⟩

theorem parses_product (hok : (parts.spec m).2 = none) :
    Parses m (split parts.product '-') (parts.spec m).1.toProduct :=
  parses_of_parseProduct hok

/-- An accepted spec has a known browser. -/
theorem browserName_mem_of_accepted {s : String} (h : (parseProductSpec m s).2 = none) :
    (parseProductSpec m s).1.browserName ∈ defaultBrowsers ++ extraBrowsers := by
  obtain ⟨parts, hparts, rfl⟩ := exists_parts h
  rw [parseProductSpec_text m hparts] at h ⊢
  exact (parses_product h).browserName_mem fun _ => notMem_of_mem_split

theorem labels_spec (h : parts.Valid) :
    (parts.spec m).1.labels.getD ∅ = specLabels parts.text := by
  rw [specLabels_text h]
  rfl

/-- The labels are printed when there are any. -/
theorem printed_labels (h : parts.Valid) : (parts.spec m).1.parts.labels =
    if 0 < (specLabels parts.text).card then some (labelText (specLabels parts.text))
    else none := by
  have herase : (specLabels parts.text).erase "" = specLabels parts.text :=
    Finset.erase_eq_of_notMem fun hmem => (labels_of_valid h hmem).2.1 rfl
  have hlabels := labels_spec (m := m) h
  unfold ProductSpec.parts
  cases hset : (parts.spec m).1.labels with
  | none =>
    rw [hset, Option.getD_none] at hlabels
    rw [← hlabels]
    rfl
  | some set =>
    rw [hset, Option.getD_some] at hlabels
    subst hlabels
    simp only
    rw [herase]

theorem eq_labelText_of_printed (h : parts.Valid) {labels : String}
    (hlabels : (parts.spec m).1.parts.labels = some labels) :
    labels = labelText (specLabels parts.text) := by
  rw [printed_labels h] at hlabels
  split_ifs at hlabels
  exact (Option.some_inj.mp hlabels).symm

section Printed

variable (h : parts.Valid) (hok : (parts.spec m).2 = none)

include h hok

/-- No piece that is printed has a separator, and `main` follows each `@` in it. -/
theorem printed_piece {piece : String} (hpiece : piece ∈ (parts.spec m).1.toProduct.pieces) :
    '-' ∉ piece.toList ∧ '[' ∉ piece.toList ∧ AtsAreMain piece.toList := by
  have hparses := parses_product hok
  rcases hparses.mem_pieces hpiece with rfl | hmem
  · have hplain := (plain_of_mem _ (hparses.browserName_mem fun _ => notMem_of_mem_split)).2
    exact ⟨notMem_of_plain hplain (by decide), notMem_of_plain hplain (by decide),
      atsAreMain_of_notMem (notMem_of_plain hplain (by decide))⟩
  · have hats : AtsAreMain (join (split parts.product '-') '-').toList := by
      rw [join_split]
      exact (atsAreMain_name_iff.mp h.ats).1
    exact ⟨notMem_of_mem_split hmem, fun hopen => h.product (subset_of_mem_split hmem hopen),
      (atsAreMain_join_iff (by decide) (by decide)).mp hats piece hmem⟩

theorem printed_atsAreMain : AtsAreMain (parts.spec m).1.parts.name.toList := by
  refine atsAreMain_name_iff.mpr ⟨?_, fun labels hlabels => ?_⟩
  · show AtsAreMain (parts.spec m).1.toProduct.string.toList
    rw [Product.string_eq_join, atsAreMain_join_iff (by decide) (by decide)]
    exact fun piece hpiece => (printed_piece h hok hpiece).2.2
  · rw [eq_labelText_of_printed h hlabels]
    refine atsAreMain_labelText ?_
    intro label hlabel
    exact (labels_of_valid h hlabel).2.2.2.2

/-- What is printed can be told apart, as long as its `@`s allow it. -/
theorem printed_valid (hone : (parts.spec m).1.parts.sha = none →
    (parts.spec m).1.parts.name.toList.count '@' ≤ 1) : (parts.spec m).1.parts.Valid := by
  refine ⟨?_, fun labels hlabels => ?_, printed_atsAreMain h hok, hone, fun sha hsha => ?_⟩
  · show '[' ∉ (parts.spec m).1.toProduct.string.toList
    rw [Product.string_eq_join]
    exact notMem_join (by decide) fun piece hpiece => (printed_piece h hok hpiece).2.1
  · rw [eq_labelText_of_printed h hlabels]
    exact ⟨notMem_labelText (by decide) fun label hlabel => (labels_of_valid h hlabel).2.2.1,
      notMem_labelText (by decide) fun label hlabel => (labels_of_valid h hlabel).2.2.2.1⟩
  · -- a revision that is printed is the SHA that was parsed
    have hrevision : (if isLatest parts.revision then none else some parts.revision) = some sha :=
      hsha
    split_ifs at hrevision with hlatest
    rw [← Option.some_inj.mp hrevision, (parseSHA_revision h hlatest).2]

/-- Printing keeps the `@`s. -/
theorem printed_count (hskipped : ¬ OSNameSkipped (split parts.product '-')) :
    (parts.spec m).1.parts.name.toList.count '@' = atCount parts.text := by
  have hproduct : (parts.spec m).1.parts.product.toList.count '@' =
      parts.product.toList.count '@' := by
    show (parts.spec m).1.toProduct.string.toList.count '@' = _
    rw [Product.string_eq_join, @count_join '-' _ '@' (by decide),
      (parses_product hok).count_pieces (fun _ => notMem_of_mem_split) hskipped,
      ← @count_join '-' _ '@' (by decide), join_split]
  have hlabels : ((parts.spec m).1.parts.labels.map fun labels => labels.toList.count '@').getD 0 =
      ∑ label ∈ specLabels parts.text, label.toList.count '@' := by
    rw [printed_labels h]
    split_ifs with hcard
    · rw [Option.map_some, Option.getD_some, count_labelText]
    · have hempty : specLabels parts.text = ∅ := Finset.card_eq_zero.mp (by omega)
      rw [hempty]
      rfl
  rw [count_name, hlabels, hproduct, atCount, specProduct_text h]

/-- A printed spec that can be told apart is parsed to the same spec, unless an OS
version was left out. -/
theorem parse_printed (hone : (parts.spec m).1.parts.sha = none →
    (parts.spec m).1.parts.name.toList.count '@' ≤ 1) :
    (parseProductSpec m (parts.spec m).1.string).2 = none ∧
      (SameSpec (parts.spec m).1 (parseProductSpec m (parts.spec m).1.string).1 ↔
        ¬ OSNameSkipped (split parts.product '-')) := by
  obtain ⟨q, hq, hsame⟩ := (parses_product hok).printed fun _ => notMem_of_mem_split
  have hproduct : parseProduct m (parts.spec m).1.parts.product = (q, none) := by
    show parseProduct m (parts.spec m).1.toProduct.string = (q, none)
    rw [Product.string_eq_join]
    exact parseProduct_join hq fun piece hpiece => (printed_piece h hok hpiece).1
  have hparse : parseProductSpec m (parts.spec m).1.string = (parts.spec m).1.parts.spec m := by
    rw [ProductSpec.string_eq_text, parseProductSpec_text m (printed_valid h hok hone)]
  -- an empty set of labels is not printed, and read back as no labels
  have hlabels : ((parts.spec m).1.parts.labels.map labelSet).getD ∅ = specLabels parts.text := by
    rw [printed_labels h]
    split_ifs with hcard
    · rw [Option.map_some, Option.getD_some, labelSet_labelText (Finset.card_pos.mp hcard)
        fun label hlabel => ⟨(labels_of_valid h hlabel).1, (labels_of_valid h hlabel).2.1⟩]
    · rw [Finset.card_eq_zero.mp (Nat.eq_zero_of_not_pos hcard)]
      rfl
  -- a revision that is latest is left out, and read back as one that is latest too
  have hrevision : (parts.spec m).1.parts.revision = parts.revision ∨
      (isLatest parts.revision = true ∧
        isLatest (parts.spec m).1.parts.revision = true) := by
    have hsha : (parts.spec m).1.parts.sha =
        if isLatest parts.revision then none else some parts.revision := rfl
    by_cases hlatest : isLatest parts.revision = true
    · right
      rw [if_pos hlatest] at hsha
      refine ⟨hlatest, ?_⟩
      rw [SpecParts.revision, hsha]
      rfl
    · left
      rw [if_neg hlatest] at hsha
      rw [SpecParts.revision, hsha]
      simp only
      rw [(parseSHA_revision h hlatest).2]
  rw [hparse, SpecParts.spec, parseNamed, hproduct]
  refine ⟨rfl, ⟨fun hspec => hsame.mp hspec.product.symm, fun hskipped => ⟨?_, ?_, ?_⟩⟩⟩
  · exact (hsame.mpr hskipped).symm
  · show (parts.spec m).1.labels.getD ∅ = ((parts.spec m).1.parts.labels.map labelSet).getD ∅
    rw [hlabels, labels_spec h]
  · show parts.revision = (parts.spec m).1.parts.revision ∨
      (isLatest parts.revision = true ∧ isLatest (parts.spec m).1.parts.revision = true)
    rcases hrevision with heq | hlatest
    · exact Or.inl heq.symm
    · exact Or.inr hlatest

/-- With two `@main`s and no SHA after them, every `@` is cut at. -/
theorem parse_printed_error (hsha : (parts.spec m).1.parts.sha = none)
    (hcount : 2 ≤ (parts.spec m).1.parts.name.toList.count '@') :
    (parseProductSpec m (parts.spec m).1.string).2 ≠ none := by
  have htext : (parts.spec m).1.string = (parts.spec m).1.parts.name := by
    rw [ProductSpec.string_eq_text, SpecParts.text, hsha]
  intro hparse
  obtain ⟨printed, hprinted, heq⟩ := exists_parts hparse
  -- printed without a SHA it falls into three pieces, an accepted spec into two
  have hpieces : 3 ≤ (splitAtNonMainAt (parts.spec m).1.string).length := by
    rw [htext, splitAtNonMainAt_of_two_le_count (printed_atsAreMain h hok) hcount, length_split]
    omega
  have hcut : (splitAtNonMainAt printed.text).length ≤ 2 := by
    unfold SpecParts.text
    cases hsha' : printed.sha with
    | none => rw [splitAtNonMainAt_of_count_le_one hprinted.ats (hprinted.one hsha')]; simp
    | some sha =>
      obtain ⟨hat, hmain⟩ := notMem_of_parseSHA (hprinted.sha sha hsha')
      simp only
      rw [splitAtNonMainAt_append hprinted.ats hat hmain]
      simp
  rw [← heq] at hcut
  omega

end Printed

/-- Without an `@` of its own, an accepted spec has one `@main` at most. -/
theorem atCount_le_of_sha_none (h : parts.Valid) (hsha : parts.sha = none) :
    atCount parts.text ≤ 1 := by
  have hlabels : ∑ label ∈ specLabels parts.text, label.toList.count '@' ≤
      (parts.labels.map fun labels => labels.toList.count '@').getD 0 := by
    rw [specLabels_text h]
    cases parts.labels with
    | none => exact Nat.zero_le _
    | some labels => exact sum_labelSet_le labels
  have hone := h.one hsha
  rw [count_name] at hone
  rw [atCount, specProduct_text h]
  omega

end Accepted

/-- **Printing and parsing**: an accepted spec comes back from its printed form
exactly when it has no OS version after an empty OS name, and no two `@main`s
before an `@` that asks for the latest revision. -/
theorem parseProductSpec_string_iff (m : LowerCase) {s : String}
    (hs : (parseProductSpec m s).2 = none) : RoundTrips m s ↔ SurvivesPrinting s := by
  obtain ⟨parts, h, rfl⟩ := exists_parts hs
  rw [parseProductSpec_text m h] at hs
  have hsha : (parts.spec m).1.parts.sha =
      if isLatest parts.revision then none else some parts.revision := rfl
  have hasked : LatestAsked parts.text → (parts.spec m).1.parts.sha = none := by
    rw [latestAsked_text_iff h]
    rintro ⟨sha, hparts, hlatest⟩
    rw [hsha, if_pos]
    rw [SpecParts.revision, hparts]
    exact (isLatest_parseSHA (h.sha sha hparts)).trans hlatest
  unfold RoundTrips SurvivesPrinting
  rw [parseProductSpec_text m h, specProduct_text h]
  constructor
  · rintro ⟨hok, hsame⟩
    have hone : (parts.spec m).1.parts.sha = none →
        (parts.spec m).1.parts.name.toList.count '@' ≤ 1 := by
      intro hnone
      by_contra hcount
      exact parse_printed_error h hs hnone (by omega) hok
    have hskipped := (parse_printed h hs hone).2.mp hsame
    refine ⟨hskipped, fun hlatest => ?_⟩
    rw [← printed_count h hs hskipped]
    exact hone (hasked hlatest)
  · rintro ⟨hskipped, hcount⟩
    have hone : (parts.spec m).1.parts.sha = none →
        (parts.spec m).1.parts.name.toList.count '@' ≤ 1 := by
      intro hnone
      rw [printed_count h hs hskipped]
      -- without a SHA in print: it had none, or asked for the latest
      cases hparts : parts.sha with
      | none => exact atCount_le_of_sha_none h hparts
      | some sha =>
        refine hcount ((latestAsked_text_iff h).mpr ⟨sha, hparts, ?_⟩)
        have hlatest : isLatest parts.revision = true := by
          by_contra hnot
          rw [hsha, if_neg hnot] at hnone
          cases hnone
        rw [SpecParts.revision, hparts] at hlatest
        exact (isLatest_parseSHA (h.sha sha hparts)).symm.trans hlatest
    obtain ⟨hok, hsame⟩ := parse_printed h hs hone
    exact ⟨hok, hsame.mpr hskipped⟩

/-- A WebKit nightly at a SHA comes back. -/
theorem roundTrips_nightly :
    RoundTrips .ascii "wpewebkit-2.49.1 (294826@main)[b,a,]@1234567" := by
  refine (parseProductSpec_string_iff .ascii (by decide)).mpr ⟨?_, ?_⟩
  · rintro ⟨b, v, w, h⟩
    have hlen : (split (specProduct "wpewebkit-2.49.1 (294826@main)[b,a,]@1234567") '-').length =
        4 :=
      congrArg List.length h
    exact absurd hlen (by decide)
  · rintro ⟨name, sha, h, hlatest⟩
    have hsha := congrArg (fun pieces : List String => pieces[1]?) h
    rw [show sha = "1234567" from (Option.some_inj.mp hsha).symm] at hlatest
    exact absurd hlatest (by decide)

/-- An OS version after an empty OS name is lost. -/
theorem not_roundTrips_osVersion :
    (parseProductSpec .ascii "chrome-64--10").2 = none ∧ ¬ RoundTrips .ascii "chrome-64--10" := by
  have hparsed : (parseProductSpec .ascii "chrome-64--10").1.osVersion = "10" := by decide
  have hprinted : (parseProductSpec .ascii "chrome-64--10").1.string = "chrome-64" := by decide
  have hagain : (parseProductSpec .ascii "chrome-64").1.osVersion = "" := by decide
  refine ⟨by decide, ?_⟩
  rintro ⟨_, hsame⟩
  have hos := congrArg Product.osVersion hsame.product
  rw [hprinted, hparsed, hagain] at hos
  exact absurd hos (by decide)

end WptFyi.Shared
