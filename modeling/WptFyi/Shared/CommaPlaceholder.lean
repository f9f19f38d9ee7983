import WptFyi.Shared.ProductSpecRoundTrip
import WptFyi.Shared.ProductsParam

/-!
# Placeholders for commas

What hiding the commas of a text and turning the placeholders back does to it.

The placeholder is an ordinary text, so a text may have parts of one, at its ends or next to a
comma, and a comma that is hidden there can complete them to a placeholder in another place.
Turning back then takes the wrong one first. For specs the damage is confined to their labels: what
is read back is the spec with each label read back on its own, and it means the same exactly if the
set of labels is the same.

- `hideCommas`, `revertCommas`: hiding undoes turning back (`hideCommas_revertCommas`), but
  not the other way round where the text has a piece of a placeholder of its own;
- `revertCommas_induction`: turning back, by the occurrences of the placeholder;
- `readBack`: a spec hidden and turned back, part by part (`readBack_text`);
- `parseProductSpec_readBack_iff`: it parses to the same if it has the same labels.
-/

namespace WptFyi.Shared

open Lib Lib.GoStrings

/-! ## Hiding -/

/-- The text with placeholders for all commas. -/
def hideCommas (cs : List Char) : List Char :=
  cs.flatMap fun c => if c = ',' then commaPlaceholder else [c]

theorem hideCommas_append (as bs : List Char) :
    hideCommas (as ++ bs) = hideCommas as ++ hideCommas bs := List.flatMap_append

theorem hideCommas_cons {c : Char} (hc : c ≠ ',') (cs : List Char) :
    hideCommas (c :: cs) = c :: hideCommas cs := by
  rw [hideCommas, List.flatMap_cons, if_neg hc]
  rfl

theorem hideCommas_of_notMem {cs : List Char} (h : ',' ∉ cs) : hideCommas cs = cs := by
  induction cs with
  | nil => rfl
  | cons c cs ih =>
    obtain ⟨hc, hcs⟩ := List.ne_and_not_mem_of_not_mem_cons h
    rw [hideCommas_cons (Ne.symm hc), ih hcs]

theorem notMem_hideCommas (cs : List Char) : ',' ∉ hideCommas cs := by
  rw [hideCommas, List.mem_flatMap]
  rintro ⟨c, -, hc⟩
  split at hc
  · exact absurd hc (by decide)
  · next hne => exact hne (List.mem_singleton.mp hc).symm

theorem hideCommas_ne_nil {cs : List Char} (h : cs ≠ []) : hideCommas cs ≠ [] := by
  cases cs with
  | nil => exact absurd rfl h
  | cons c cs =>
    rw [hideCommas, List.flatMap_cons]
    split
    · exact List.cons_ne_nil _ _
    · exact List.cons_ne_nil _ _

theorem count_hideCommas {x : Char} (hx : x ∉ ',' :: commaPlaceholder) (cs : List Char) :
    (hideCommas cs).count x = cs.count x := by
  obtain ⟨hcomma, hplaceholder⟩ := List.ne_and_not_mem_of_not_mem_cons hx
  induction cs with
  | nil => rfl
  | cons c cs ih =>
    by_cases hc : c = ','
    · rw [hc, hideCommas, List.flatMap_cons, if_pos rfl, ← hideCommas, List.count_append,
        List.count_eq_zero.mpr hplaceholder, ih, List.count_cons_of_ne (Ne.symm hcomma)]
      omega
    · rw [hideCommas_cons hc, List.count_cons, List.count_cons, ih]

/-! ## Turning back -/

theorem revertCommas_skip (skip : Nat) (cs : List Char) :
    revertCommas skip cs = revertCommas 0 (cs.drop skip) := by
  induction skip generalizing cs with
  | zero => rfl
  | succ skip ih =>
    cases cs with
    | nil => rfl
    | cons c cs => exact ih cs

theorem revertCommas_placeholder (cs : List Char) :
    revertCommas 0 (commaPlaceholder ++ cs) = ',' :: revertCommas 0 cs := by
  show (if commaPlaceholder.isPrefixOf (commaPlaceholder ++ cs) then _ else _) = _
  rw [if_pos (List.isPrefixOf_iff_prefix.mpr (List.prefix_append _ _)), revertCommas_skip]
  rfl

theorem revertCommas_cons {c : Char} {cs : List Char} (h : ¬ commaPlaceholder <+: c :: cs) :
    revertCommas 0 (c :: cs) = c :: revertCommas 0 cs := by
  rw [revertCommas, if_neg (by rwa [List.isPrefixOf_iff_prefix])]

/-- **Turning back, by occurrences**: what holds of the empty text, is kept by a
placeholder, and by a character where none begins, holds of every text turned back. -/
theorem revertCommas_induction {P : List Char → List Char → Prop} (nil : P [] [])
    (placeholder : ∀ cs out, P cs out → P (commaPlaceholder ++ cs) (',' :: out))
    (cons : ∀ c cs out, ¬ commaPlaceholder <+: c :: cs → P cs out → P (c :: cs) (c :: out))
    (cs : List Char) : P cs (revertCommas 0 cs) := by
  induction hn : cs.length using Nat.strong_induction_on generalizing cs with
  | _ n ih =>
    by_cases hbegins : commaPlaceholder <+: cs
    · obtain ⟨rest, rfl⟩ := hbegins
      rw [revertCommas_placeholder]
      rw [List.length_append, show commaPlaceholder.length = 7 from rfl] at hn
      exact placeholder rest _ (ih rest.length (by omega) rest rfl)
    · cases cs with
      | nil => exact nil
      | cons c cs =>
        rw [revertCommas_cons hbegins]
        exact cons c cs _ hbegins (ih cs.length (by rw [← hn]; exact Nat.lt_succ_self _) cs rfl)

/-- **Hiding undoes turning back**, so texts without commas are told apart by what they
are turned back to. -/
theorem hideCommas_revertCommas {cs : List Char} (h : ',' ∉ cs) :
    hideCommas (revertCommas 0 cs) = cs := by
  revert h
  refine revertCommas_induction (P := fun cs out => ',' ∉ cs → hideCommas out = cs)
    (fun _ => rfl) ?_ ?_ cs
  · intro cs out ih h
    rw [hideCommas, List.flatMap_cons, if_pos rfl, ← hideCommas,
      ih fun hmem => h (List.mem_append_right _ hmem)]
  · intro c cs out _ ih h
    obtain ⟨hc, hcs⟩ := List.ne_and_not_mem_of_not_mem_cons h
    rw [hideCommas_cons (Ne.symm hc), ih hcs]

theorem revertCommas_eq_self {cs : List Char} (h : ¬ commaPlaceholder <:+: cs) :
    revertCommas 0 cs = cs := by
  induction cs with
  | nil => rfl
  | cons c cs ih =>
    rw [revertCommas_cons fun hbegins => h hbegins.isInfix,
      ih fun hin => h (hin.trans (List.suffix_cons c cs).isInfix)]

theorem count_revertCommas {x : Char} (hx : x ∉ ',' :: commaPlaceholder) (cs : List Char) :
    (revertCommas 0 cs).count x = cs.count x := by
  obtain ⟨hcomma, hplaceholder⟩ := List.ne_and_not_mem_of_not_mem_cons hx
  refine revertCommas_induction (P := fun cs out => out.count x = cs.count x) rfl ?_ ?_ cs
  · intro cs out ih
    rw [List.count_append, List.count_eq_zero.mpr hplaceholder, ← ih,
      List.count_cons_of_ne (Ne.symm hcomma)]
    omega
  · intro c cs out _ ih
    rw [List.count_cons, List.count_cons, ih]

/-- A character that no placeholder has is a border. -/
theorem revertCommas_append_cons {sep : Char} (hsep : sep ∉ commaPlaceholder)
    (as bs : List Char) :
    revertCommas 0 (as ++ sep :: bs) = revertCommas 0 as ++ sep :: revertCommas 0 bs := by
  have hborder : ∀ cs : List Char,
      commaPlaceholder <+: cs ++ sep :: bs ↔ commaPlaceholder <+: cs :=
    fun cs => prefix_append_cons_iff hsep
  refine revertCommas_induction
    (P := fun as out => revertCommas 0 (as ++ sep :: bs) = out ++ sep :: revertCommas 0 bs)
    ?_ ?_ ?_ as
  · exact revertCommas_cons fun hbegins => absurd ((hborder []).mp hbegins) (by decide)
  · intro cs out ih
    rw [List.append_assoc, revertCommas_placeholder, ih]
    rfl
  · intro c cs out hnot ih
    have hnot' : ¬ commaPlaceholder <+: c :: (cs ++ sep :: bs) :=
      fun hbegins => hnot ((hborder (c :: cs)).mp hbegins)
    rw [List.cons_append, revertCommas_cons hnot', ih]
    rfl

/-! ## Both -/

/-- Hidden and turned back. -/
def readBackChars (cs : List Char) : List Char := revertCommas 0 (hideCommas cs)

theorem readBackChars_append_cons {sep : Char} (hsep : sep ∉ ',' :: commaPlaceholder)
    (as bs : List Char) :
    readBackChars (as ++ sep :: bs) = readBackChars as ++ sep :: readBackChars bs := by
  obtain ⟨hcomma, hplaceholder⟩ := List.ne_and_not_mem_of_not_mem_cons hsep
  rw [readBackChars, hideCommas_append, hideCommas_cons hcomma,
    revertCommas_append_cons hplaceholder]
  rfl

theorem readBackChars_cons {sep : Char} (hsep : sep ∉ ',' :: commaPlaceholder) (cs : List Char) :
    readBackChars (sep :: cs) = sep :: readBackChars cs :=
  readBackChars_append_cons hsep [] cs

theorem count_readBackChars {x : Char} (hx : x ∉ ',' :: commaPlaceholder) (cs : List Char) :
    (readBackChars cs).count x = cs.count x := by
  rw [readBackChars, count_revertCommas hx, count_hideCommas hx]

theorem mem_readBackChars {x : Char} (hx : x ∉ ',' :: commaPlaceholder) {cs : List Char} :
    x ∈ readBackChars cs ↔ x ∈ cs := by
  rw [← List.count_pos_iff, ← List.count_pos_iff, count_readBackChars hx]

theorem readBackChars_eq_self {cs : List Char} (hcomma : ',' ∉ cs)
    (hplaceholder : ¬ commaPlaceholder <:+: cs) : readBackChars cs = cs := by
  rw [readBackChars, hideCommas_of_notMem hcomma, revertCommas_eq_self hplaceholder]

theorem main_prefix_readBackChars {cs : List Char} (h : "main".toList <+: cs) :
    "main".toList <+: readBackChars cs := by
  obtain ⟨rest, rfl⟩ := h
  show _ <+: readBackChars ('m' :: 'a' :: 'i' :: 'n' :: rest)
  rw [readBackChars_cons (by decide), readBackChars_cons (by decide),
    readBackChars_cons (by decide), readBackChars_cons (by decide)]
  exact ⟨_, rfl⟩

/-- Reading back does not separate an `@` from the `main` behind it, nor make another one. -/
theorem atsAreMain_readBackChars {cs : List Char} (h : AtsAreMain cs) :
    AtsAreMain (readBackChars cs) := by
  induction hn : cs.length using Nat.strong_induction_on generalizing cs with
  | _ n ih =>
    by_cases hat : '@' ∈ cs
    · obtain ⟨as, bs, -, rfl⟩ := exists_eq_append_cons_of_mem hat
      rw [atsAreMain_append_cons (by decide), atsAreMain_cons_iff] at h
      obtain ⟨has, hmain, hbs⟩ := h
      rw [List.length_append, List.length_cons] at hn
      rw [readBackChars_append_cons (by decide), atsAreMain_append_cons (by decide),
        atsAreMain_cons_iff]
      exact ⟨ih as.length (by omega) has rfl, fun heq => main_prefix_readBackChars (hmain heq),
        ih bs.length (by omega) hbs rfl⟩
    · exact atsAreMain_of_notMem fun hmem => hat ((mem_readBackChars (by decide)).mp hmem)

/-! ## Specs

A spec is read back part by part, and only its labels can change. It parses to the same if the set
of labels is the same. -/

/-- The spec with its commas hidden and turned back. -/
def readBack (spec : String) : String := String.ofList (readBackChars spec.toList)

theorem toList_readBack (spec : String) : (readBack spec).toList = readBackChars spec.toList :=
  String.toList_ofList

/-- Commas occur only inside label brackets: none before the first bracket. -/
def CommasInLabels (spec : String) : Prop := ',' ∉ spec.toList.takeWhile (· ≠ '[')

/-- A SHA has no comma and no bracket. -/
theorem notMem_sha {sha : String} (h : (parseSHA sha).2 = none) {c : Char}
    (hhex : isHexDigit c = false) (hlatest : c ∉ "latest".toList) : c ∉ sha.toList := by
  unfold parseSHA at h
  split_ifs at h with hdefault hmatches
  · rcases hdefault with rfl | rfl
    · exact List.not_mem_nil
    · exact hlatest
  · simp only [matchesSHARegex, Bool.and_eq_true, List.all_eq_true] at hmatches
    intro hc
    rw [hmatches.1.1 c hc] at hhex
    cases hhex

namespace SpecParts

variable {parts : SpecParts}

/-- The parts of the spec read back: its labels change. -/
def readBack (parts : SpecParts) : SpecParts :=
  { parts with labels := parts.labels.map Shared.readBack }

theorem toList_text : parts.text.toList =
    match parts.sha with
    | none => parts.name.toList
    | some sha => parts.name.toList ++ '@' :: sha.toList := by
  unfold text
  cases parts.sha with
  | none => rfl
  | some sha => exact toList_append_at _ _

theorem exists_text_eq (parts : SpecParts) :
    ∃ rest, parts.text.toList = parts.product.toList ++ rest := by
  rw [toList_text]
  cases parts.sha <;> rw [toList_name] <;> cases parts.labels <;> simp

theorem comma_notMem_product (h : parts.Valid) (hcommas : CommasInLabels parts.text) :
    ',' ∉ parts.product.toList := by
  intro hcomma
  obtain ⟨rest, hrest⟩ := exists_text_eq parts
  refine hcommas ?_
  rw [hrest, List.takeWhile_append_of_pos]
  · exact List.mem_append_left _ hcomma
  · intro c hc
    simpa using fun heq : c = '[' => h.product (heq ▸ hc)

/-- **Reading back** changes the labels only. -/
theorem readBack_text (h : parts.Valid) (hcommas : CommasInLabels parts.text)
    (hplaceholder : ¬ commaPlaceholder <:+: parts.text.toList) :
    Shared.readBack parts.text = parts.readBack.text := by
  -- the product has neither a comma nor a placeholder
  have hproduct : readBackChars parts.product.toList = parts.product.toList := by
    refine readBackChars_eq_self (comma_notMem_product h hcommas) fun hin => ?_
    obtain ⟨rest, hrest⟩ := exists_text_eq parts
    exact hplaceholder (hin.trans (hrest ▸ (List.prefix_append _ rest).isInfix))
  have hname : readBackChars parts.name.toList = parts.readBack.name.toList := by
    have hlabels : parts.readBack.labels = parts.labels.map Shared.readBack := rfl
    have hsame : parts.readBack.product = parts.product := rfl
    rw [toList_name, toList_name, hlabels, hsame]
    cases parts.labels with
    | none => exact hproduct
    | some labels =>
      simp only [Option.map_some]
      rw [readBackChars_append_cons (by decide), readBackChars_append_cons (by decide), hproduct,
        toList_readBack]
      rfl
  rw [← String.toList_inj, toList_readBack, toList_text, toList_text]
  cases hsha : parts.sha with
  | none =>
    have hsha' : parts.readBack.sha = none := hsha
    rw [hsha']
    exact hname
  | some sha =>
    have hsha' : parts.readBack.sha = some sha := hsha
    have hok := h.sha sha hsha
    -- an accepted SHA has letters and digits only
    have hpercent : '%' ∉ sha.toList := notMem_sha hok (by decide) (by decide)
    rw [hsha']
    show readBackChars (parts.name.toList ++ '@' :: sha.toList) = _
    rw [readBackChars_append_cons (by decide), hname,
      readBackChars_eq_self (notMem_sha hok (by decide) (by decide))
        fun hin => hpercent (hin.subset (by decide))]

/-- Parts that can be told apart still can be when they are read back. -/
theorem Valid.readBack (h : parts.Valid) : parts.readBack.Valid where
  product := h.product
  labels := by
    intro labels hlabels
    obtain ⟨inner, hinner, rfl⟩ := Option.map_eq_some_iff.mp hlabels
    obtain ⟨hopen, hclose⟩ := h.labels inner hinner
    rw [toList_readBack, mem_readBackChars (by decide), mem_readBackChars (by decide)]
    exact ⟨hopen, hclose⟩
  ats := by
    obtain ⟨hproduct, hlabels⟩ := atsAreMain_name_iff.mp h.ats
    refine atsAreMain_name_iff.mpr ⟨hproduct, fun labels hmap => ?_⟩
    obtain ⟨inner, hinner, rfl⟩ := Option.map_eq_some_iff.mp hmap
    rw [toList_readBack]
    exact atsAreMain_readBackChars (hlabels inner hinner)
  one := by
    intro hsha
    have hone := h.one hsha
    have hlabels : parts.readBack.labels = parts.labels.map Shared.readBack := rfl
    have hsame : parts.readBack.product = parts.product := rfl
    rw [count_name] at hone ⊢
    -- neither a comma nor the placeholder has an `@`, so none comes or goes
    have hcount : '@' ∉ ',' :: commaPlaceholder := by decide
    rw [hlabels, hsame]
    cases hsome : parts.labels with
    | none =>
      rw [hsome] at hone
      exact hone
    | some labels =>
      rw [hsome] at hone
      simp only [Option.map_some, toList_readBack, count_readBackChars hcount]
      exact hone
  sha := h.sha

end SpecParts

/-- An accepted spec parses to the same when it is read back if its labels are the same. -/
theorem parseProductSpec_readBack_iff {m : LowerCase} {spec : String}
    (hok : (parseProductSpec m spec).2 = none) (hcommas : CommasInLabels spec)
    (hplaceholder : ¬ commaPlaceholder <:+: spec.toList) :
    parseProductSpec m (readBack spec) = parseProductSpec m spec ↔
      specLabels (readBack spec) = specLabels spec := by
  obtain ⟨parts, hvalid, rfl⟩ := exists_parts hok
  rw [SpecParts.readBack_text hvalid hcommas hplaceholder,
    parseProductSpec_text m hvalid.readBack, parseProductSpec_text m hvalid]
  constructor
  · intro hsame
    rw [← labels_spec (m := m) hvalid, ← labels_spec (m := m) hvalid.readBack, hsame]
  · intro hlabels
    rw [specLabels_text hvalid, specLabels_text hvalid.readBack] at hlabels
    have hsame : parts.readBack.labels.map labelSet = parts.labels.map labelSet := by
      rw [SpecParts.readBack] at hlabels ⊢
      cases hparts : parts.labels with
      | none => rfl
      | some labels =>
        rw [hparts] at hlabels
        exact congrArg some hlabels
    rw [SpecParts.spec, SpecParts.spec, hsame]
    rfl

end WptFyi.Shared
