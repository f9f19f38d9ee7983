import WptFyi.Shared.ProductSpecRoundTrip
import WptFyi.Webapp.QueryParser
import WptFyi.Webapp.StructuredDecoding

/-!
# The searches that the server decodes as they were meant

`QUERY_SEMANTICS` builds a structured query for every search that `QUERY_GRAMMAR`
accepts, and the server does not decode every one of them as what it is: not
`exists()`, not a quality in capitals, and not every version of a browser.

Each rule of the grammar is either harmless or hands something on that the server reads in its own
way: a number, a product, a quality or a status. The condition, `Root.Readable`, asks something of
these literals and nothing of how they are put together, except that an `exists` has arguments. The
proof goes through the rules in the order of the grammar, from literals to whole searches.

- `Root.Readable`: what has to be the case for that, rule by rule;
- `VersionReads`: which versions of a browser can be read;
- `decodes_eval_iff`: the searches that decode to a query of their shape.
-/

namespace WptFyi.Webapp

open Lib Lib.GoStrings Shared Query

/-! ## Versions -/

/-- At most four numbers, of 64 bits. -/
def VersionReads (version : NumberToken × List NumberToken) : Prop :=
  version.2.length ≤ 3 ∧ ∀ n ∈ version.1 :: version.2, digitsValue n.digits < 2 ^ 63

/-- Digits are read when they fit into 64 bits. -/
theorem parseInt_digits (n : NumberToken) :
    (Shared.parseInt (String.ofList n.digits)).isSome ↔ digitsValue n.digits < 2 ^ 63 := by
  obtain ⟨digits, hne, hdigit⟩ := n
  obtain ⟨d, ds, rfl⟩ := List.exists_cons_of_ne_nil hne
  have hd : d.isDigit = true := hdigit d List.mem_cons_self
  have hminus : d ≠ '-' := by rintro rfl; exact absurd hd (by decide)
  have hplus : d ≠ '+' := by rintro rfl; exact absurd hd (by decide)
  have hall : (d :: ds).all Char.isDigit = true := List.all_eq_true.mpr hdigit
  rw [Shared.parseInt, String.toList_ofList]
  split
  next negative digits hsign =>
  have hsame : negative = false ∧ digits = d :: ds := by
    split at hsign
    · next heq => exact absurd (List.cons_eq_cons.mp heq).1 hminus
    · next heq => exact absurd (List.cons_eq_cons.mp heq).1 hplus
    · cases hsign
      exact ⟨rfl, rfl⟩
  obtain ⟨rfl, rfl⟩ := hsame
  simp only [hall, Bool.not_true, Bool.false_eq_true, or_false, reduceCtorEq, if_false]
  split_ifs with hlt
  · exact iff_of_true rfl (by omega)
  · exact iff_of_false (by simp) (by omega)

theorem isSome_mapM_iff {α β : Type} {f : α → Option β} :
    ∀ {l : List α}, (l.mapM f).isSome ↔ ∀ a ∈ l, (f a).isSome
  | [] => by simp
  | a :: l => by
    rw [List.mapM_cons, List.forall_mem_cons, ← isSome_mapM_iff]
    cases f a <;> cases List.mapM f l <;> simp

/-- The numbers of a version are digits. -/
theorem notMem_version {version : NumberToken × List NumberToken} {c : Char}
    (hdigit : c.isDigit = false) (hdot : c ≠ '.') : c ∉ (versionText version).toList := by
  refine notMem_join hdot ?_
  rintro _ hpiece hc
  obtain ⟨n, -, rfl⟩ := List.mem_map.mp hpiece
  rw [String.toList_ofList] at hc
  rw [n.isDigit c hc] at hdigit
  cases hdigit

theorem split_versionText (version : NumberToken × List NumberToken) :
    split (versionText version) '.' =
      (version.1 :: version.2).map fun n => String.ofList n.digits := by
  refine split_join (by simp) ?_
  rintro _ hpiece hdot
  obtain ⟨n, -, rfl⟩ := List.mem_map.mp hpiece
  rw [String.toList_ofList] at hdot
  exact absurd (n.isDigit _ hdot) (by decide)

/-- A version without letters is not one of Firefox's alphas. -/
theorem ffSuffix_of_notMem {version : List Char} (ha : 'a' ∉ version) (hb : 'b' ∉ version) :
    ffSuffix version = none := by
  unfold ffSuffix
  simp only
  split
  · rfl
  · rfl
  · next c hc _ =>
    refine if_neg fun h => ?_
    have hmem : c ∈ version := List.mem_of_mem_take (List.mem_of_getLast? hc)
    rcases h.1 with rfl | rfl
    · exact ha hmem
    · exact hb hmem

/-- A version is read when it has at most four numbers and each of them is. -/
theorem isSome_parseVersion_iff (version : NumberToken × List NumberToken) :
    (parseVersion (versionText version)).isSome ↔ VersionReads version := by
  have hcut : split (versionText version) ' ' = [versionText version] :=
    split_of_notMem (notMem_version (by decide) (by decide))
  -- digits and dots have neither a channel nor a suffix behind them
  have hsuffix : ffSuffix (versionText version).toList = none :=
    ffSuffix_of_notMem (notMem_version (by decide) (by decide))
      (notMem_version (by decide) (by decide))
  have hparsed : parseVersion (versionText version) = parseNumbers (versionText version) "" := by
    simp only [parseVersion, hcut, Option.bind_some, hsuffix]
  have hnumbers : ((split (versionText version) '.').mapM Shared.parseInt).isSome ↔
      ∀ n ∈ version.1 :: version.2, digitsValue n.digits < 2 ^ 63 := by
    rw [split_versionText, isSome_mapM_iff, List.forall_mem_map]
    exact forall₂_congr fun n _ => parseInt_digits n
  have hlength : (split (versionText version) '.').length = version.2.length + 1 := by
    rw [split_versionText, List.length_map, List.length_cons]
  rw [hparsed, parseNumbers, VersionReads, ← hnumbers]
  split_ifs with hlen
  · exact iff_of_false (by simp) fun h => by omega
  · rw [and_iff_right (by omega)]
    split
    · next heq => simp [heq]
    · next hne =>
      refine iff_of_false (by simp) fun hsome => ?_
      obtain ⟨numbers, heq⟩ := Option.isSome_iff_exists.mp hsome
      cases numbers with
      | nil =>
        rw [split_versionText, List.map_cons, List.mapM_cons] at heq
        obtain ⟨_, -, heq⟩ := Option.bind_eq_some_iff.mp heq
        obtain ⟨_, -, heq⟩ := Option.bind_eq_some_iff.mp heq
        cases heq
      | cons major numbers => exact hne major numbers heq

/-! ## Products

A product of a search is its text in lower case, a browser and perhaps a version. The server cuts
it at dashes, and reads it if it can read the version. -/

section Products

variable {m : CaseTables}

/-- What the text of a case-insensitive word does not have. -/
theorem CaseInsensitive.notMem_text {words : List String} (token : CaseInsensitive m words)
    (hascii : ∀ word ∈ words, word.toList.all (fun d => decide (d.val < 128)) = true)
    {c : Char} (hc : c.val < 128) (hcase : c.toUpper = c)
    (hwords : ∀ word ∈ words, c ∉ word.toList.map Char.toUpper) : c ∉ token.text.toList := by
  intro hmem
  have hupper : c ∈ (m.upper.toUpper token.text).toList := by
    rw [UpperCase.toUpper, String.toList_ofList]
    exact List.mem_map.mpr ⟨c, hmem, by rw [m.upper.rune_ascii c hc, hcase]⟩
  rw [token.same, UpperCase.toUpper, String.toList_ofList] at hupper
  obtain ⟨d, hd, heq⟩ := List.mem_map.mp hupper
  have hd128 : d.val < 128 :=
    of_decide_eq_true (List.all_eq_true.mp (hascii token.word token.mem) d hd)
  exact hwords token.word token.mem
    (List.mem_map.mpr ⟨d, hd, by rw [← m.upper.rune_ascii d hd128, heq]⟩)

theorem ascii_of_mem_allBrowserNames : ∀ word ∈ allBrowserNames,
    word.toList.all (fun d => decide (d.val < 128)) = true := by decide

/-- The browser is known by the name in lower case, and so is its version. -/
def ProductSpecToken.Reads (p : ProductSpecToken m) : Prop :=
  m.lower.toLower p.browserName.text ∈ defaultBrowsers ++ extraBrowsers ∧
    ∀ version, p.browserVersion = some version → VersionReads version

/-- The pieces of the product that the server gets. -/
def ProductSpecToken.pieces (p : ProductSpecToken m) : List String :=
  m.lower.toLower p.browserName.text :: (p.browserVersion.map versionText).toList

/-- A version has no letters. -/
theorem toLower_versionText (version : NumberToken × List NumberToken) :
    m.lower.toLower (versionText version) = versionText version := by
  refine m.lower.toLower_of_ascii fun c hc => ?_
  by_cases hdot : c = '.'
  · subst hdot
    decide
  · have hdigit : c.isDigit = true := by
      cases hnot : c.isDigit
      · exact absurd hc (notMem_version hnot hdot)
      · rfl
    obtain ⟨-, hhigh⟩ := Bool.and_eq_true_iff.mp hdigit
    have hhigh : c.val.toNat ≤ 57 := UInt32.le_iff_toNat_le.mp (of_decide_eq_true hhigh)
    refine ⟨UInt32.lt_iff_toNat_lt.mpr (by show c.val.toNat < 128; omega), ?_⟩
    rw [Char.toLower, dif_neg]
    intro hupper
    have hlow : 65 ≤ c.val.toNat := UInt32.le_iff_toNat_le.mp hupper.1
    omega

/-- The product in lower case, as the server gets it. -/
theorem ProductSpecToken.toLower_sourceString (p : ProductSpecToken m) :
    m.lower.toLower p.sourceString = join p.pieces '-' := by
  unfold ProductSpecToken.sourceString ProductSpecToken.pieces
  cases p.browserVersion with
  | none => exact (join_singleton _ _).symm
  | some version =>
    have hdash : m.lower.toLower "-" = "-" := m.lower.toLower_of_ascii fun c hc => by
      obtain rfl := List.mem_singleton.mp hc
      decide
    show m.lower.toLower (p.browserName.text ++ "-" ++ versionText version) =
      join [m.lower.toLower p.browserName.text, versionText version] '-'
    rw [m.lower.toLower_append, m.lower.toLower_append, toLower_versionText, hdash,
      ← String.toList_inj, toList_join_cons_cons, join_singleton]
    simp [String.toList_append]

/-- The pieces have none of the separators of a product spec. -/
theorem ProductSpecToken.notMem_piece (p : ProductSpecToken m) {piece : String}
    (hpiece : piece ∈ p.pieces) {c : Char} (hc : c ∈ ['-', '[', '@']) : c ∉ piece.toList := by
  have hseparator : c.val < 128 ∧ c.toUpper = c ∧ ¬ ('a' ≤ c ∧ c ≤ 'z') ∧ c.isDigit = false ∧
      c ≠ '.' ∧ ∀ word ∈ allBrowserNames, c ∉ word.toList.map Char.toUpper := by
    simp only [List.mem_cons, List.not_mem_nil, or_false] at hc
    rcases hc with rfl | rfl | rfl <;> decide
  obtain ⟨hascii, hcase, hletter, hdigit, hdot, hwords⟩ := hseparator
  rcases List.mem_cons.mp hpiece with rfl | hversion
  · exact m.lower.notMem_toLower hascii hletter
      (p.browserName.notMem_text ascii_of_mem_allBrowserNames hascii hcase hwords)
  · obtain ⟨version, -, rfl⟩ := Option.map_eq_some_iff.mp (Option.mem_toList.mp hversion)
    exact notMem_version hdigit hdot

/-- It has neither labels nor a SHA. -/
theorem ProductSpecToken.parseProductSpec_eq (p : ProductSpecToken m) :
    Shared.parseProductSpec m.lower (m.lower.toLower p.sourceString) =
      parseNamed m.lower { browserName := "", revision := "latest" } (join p.pieces '-') := by
  have hname : ∀ c ∈ ['[', '@'], c ∉ (join p.pieces '-').toList := by
    intro c hc
    refine notMem_join ?_ fun piece hpiece => p.notMem_piece hpiece (List.mem_cons_of_mem _ hc)
    rintro rfl
    exact absurd hc (by decide)
  generalize hproduct : join p.pieces '-' = product at hname
  let parts : SpecParts := ⟨product, none, none⟩
  have hvalid : parts.Valid :=
    { product := hname '[' (by decide)
      labels := nofun
      ats := atsAreMain_of_notMem (hname '@' (by decide))
      one := fun _ => (List.count_eq_zero.mpr (hname '@' (by decide))).le.trans zero_le_one
      sha := nofun }
  rw [p.toLower_sourceString, hproduct]
  have htext := Shared.parseProductSpec_text m.lower hvalid
  exact htext

theorem ProductSpecToken.split_pieces (p : ProductSpecToken m) :
    split (join p.pieces '-') '-' = p.pieces :=
  split_join (List.cons_ne_nil _ _) fun _ hpiece => p.notMem_piece hpiece (by decide)

/-- The product that the pieces name. -/
theorem ProductSpecToken.namedProduct_eq (p : ProductSpecToken m) :
    StructuredQuery.namedProduct (join p.pieces '-') =
      { browserName := m.lower.toLower p.browserName.text,
        browserVersion := (p.browserVersion.map versionText).getD "", revision := "latest" } := by
  rw [StructuredQuery.namedProduct, p.split_pieces, ProductSpecToken.pieces]
  cases p.browserVersion with
  | none => rw [Option.map_none, Option.toList_none, join_singleton]; rfl
  | some version => rfl

/-- It is accepted as what it is when its browser is known and its version can be read. -/
theorem ProductSpecToken.parses_iff (p : ProductSpecToken m) :
    Shared.parseProduct m.lower (join p.pieces '-') =
      ((StructuredQuery.namedProduct (join p.pieces '-')).toProduct, none) ↔ p.Reads := by
  have hdash : ∀ piece ∈ p.pieces, '-' ∉ piece.toList := fun _ hpiece =>
    p.notMem_piece hpiece (by decide)
  rw [p.namedProduct_eq]
  constructor
  · intro h
    have hparses := parses_of_parseProduct (congrArg Prod.snd h)
    rw [h, p.split_pieces] at hparses
    refine ⟨hparses.browserName_mem hdash, fun version hversion => ?_⟩
    rw [← isSome_parseVersion_iff]
    rw [ProductSpecToken.pieces, hversion] at hparses
    cases hparses with
    | version _ _ hv => exact hv
  · rintro ⟨hmem, hversion⟩
    obtain ⟨hbrowser, hplain⟩ := plain_of_mem _ hmem
    have hlower := toLower_of_plain m.lower hplain
    refine parseProduct_join ?_ hdash
    rw [ProductSpecToken.pieces]
    cases h : p.browserVersion with
    | none => exact .browser hlower hbrowser
    | some version =>
      exact .version hlower hbrowser ((isSome_parseVersion_iff version).mpr (hversion _ h))

theorem ne_empty_of_parseProduct {product : String} {parsed : Product}
    (h : Shared.parseProduct m.lower product = (parsed, none)) : product ≠ "" := by
  rintro rfl
  cases parses_of_parseProduct (congrArg Prod.snd h) with
  | browser hlower hbrowser =>
    have hempty : m.lower.toLower ((split "" '-').getD 0 "") = "" := rfl
    rw [hempty] at hbrowser
    exact absurd hbrowser (by decide)

/-- The server reads the product of a search as what it is exactly when it knows the
browser and can read the version. -/
theorem ProductSpecToken.productReads_iff (p : ProductSpecToken m) :
    StructuredQuery.ProductReads m (m.lower.toLower p.sourceString) ↔ p.Reads := by
  rw [← p.parses_iff, StructuredQuery.ProductReads, optionalProduct, p.parseProductSpec_eq,
    p.toLower_sourceString, parseNamed]
  generalize hproduct : join p.pieces '-' = product
  cases hparsed : Shared.parseProduct m.lower product with
  | mk parsed err =>
    constructor
    · intro h
      split_ifs at h with hempty
      · cases h
      · cases err with
        | some err => cases h
        | none =>
          injection h with h
          injection h with h
          rw [← h]
    · intro h
      obtain ⟨rfl, rfl⟩ := Prod.ext_iff.mp h
      rw [if_neg (ne_empty_of_parseProduct hparsed), ← hproduct, p.namedProduct_eq]

end Products

/-! ## Atoms

Each atom hands a literal on, and is read if the literal is: a product, a status or a quality. -/

section Atoms

variable {m : CaseTables}

open StructuredQuery (Decodable DecodableAll ProductReads StatusReads CountReads)

/-- The literals of an atom: a quality in lower case, a product that can be read. -/
def AtomExp.Readable : AtomExp m → Prop
  | .isExp r => r.text ∈ metadataQualities
  | .statusProductEq l _ | .statusProductNeq l _ => l.Reads
  | _ => True

/-- The status that `statusLiteral` gives is one that the server names. -/
theorem evalStatusLiteral_mem (r : CaseInsensitive m statuses) :
    evalStatusLiteral r ∈ TestStatus.testStatusNames.map Prod.snd := by
  have hstatuses : ∀ word ∈ statuses,
      word.toList.all (fun d => decide (d.val < 128)) = true ∧
        (if String.ofList (word.toList.map Char.toUpper) = "MISSING" then "UNKNOWN"
          else String.ofList (word.toList.map Char.toUpper)) ∈
            TestStatus.testStatusNames.map Prod.snd := by decide
  obtain ⟨hascii, hmem⟩ := hstatuses r.word r.mem
  rw [evalStatusLiteral, r.same, m.upper.toUpper_eq_map hascii]
  exact hmem

theorem statusReads_iff {product : Option String} (r : CaseInsensitive m statuses) :
    StatusReads m product (evalStatusLiteral r) ↔
      ∀ text, product = some text → text ≠ "" ∧ ProductReads m text := by
  have hnames : ∀ name ∈ TestStatus.testStatusNames.map Prod.snd,
      name ≠ "" ∧ name.toList.all (fun d => decide (d.val < 128)) = true ∧
        String.ofList (name.toList.map Char.toUpper) = name ∧
          TestStatus.toName (TestStatus.testStatusValueFromString name) = name := by decide
  obtain ⟨hne, hascii, hupper, hname⟩ := hnames _ (evalStatusLiteral_mem r)
  refine ⟨fun h => h.2.1, fun h => ⟨hne, h, _, ?_, hname⟩⟩
  rw [readStatus, m.upper.toUpper_eq_map hascii, hupper]
  exact if_pos hname.symm

theorem ne_empty_of_productReads {text : String} (h : ProductReads m text) : text ≠ "" := by
  rintro rfl
  cases h

theorem statusReads_some_iff (l : ProductSpecToken m) (r : CaseInsensitive m statuses) :
    StatusReads m (some (m.lower.toLower l.sourceString)) (evalStatusLiteral r) ↔ l.Reads := by
  rw [statusReads_iff, ← l.productReads_iff]
  constructor
  · intro h
    exact (h _ rfl).2
  · rintro h _ ⟨⟩
    exact ⟨ne_empty_of_productReads h, h⟩

/-- The server knows the qualities in lower case only. -/
theorem quality_iff (text : String) :
    Decodable m (.is text) ↔ text ∈ metadataQualities := by
  constructor
  · rintro ⟨quality, hquality, -⟩
    by_contra hmem
    simp only [metadataQualities, List.mem_cons, List.not_mem_nil, or_false, not_or] at hmem
    obtain ⟨hdifferent, htentative, hoptional⟩ := hmem
    simp [metadataQualityFromString, List.lookup, beq_false_of_ne hdifferent,
      beq_false_of_ne htentative, beq_false_of_ne hoptional] at hquality
  · intro h
    have hqualities : ∀ text ∈ metadataQualities, text.toList.all isPlain = true ∧
        (metadataQualityFromString text).isSome := by decide
    obtain ⟨hplain, hsome⟩ := hqualities text h
    obtain ⟨quality, hquality⟩ := Option.isSome_iff_exists.mp hsome
    exact ⟨quality, hquality, (toLower_of_plain m.lower hplain).symm ▸ hquality⟩

/-- A browser by its name alone can be read. -/
theorem productReads_of_mem {word : String} (h : word ∈ allBrowserNames) :
    ProductReads m word := by
  have hknown : ∀ word ∈ allBrowserNames, word ∈ defaultBrowsers ++ extraBrowsers := by decide
  have hlower := toLower_of_plain m.lower (plain_of_mem word (hknown word h)).2
  have hreads := (ProductSpecToken.productReads_iff
    (⟨⟨word, word, h, rfl⟩, none⟩ : ProductSpecToken m)).mpr
      ⟨hlower.symm ▸ hknown word h, nofun⟩
  rwa [show ProductSpecToken.sourceString (⟨⟨word, word, h, rfl⟩, none⟩ : ProductSpecToken m) =
    word from rfl, hlower] at hreads

/-- `triaged` shows the word itself, whatever its letter case was. -/
theorem toLower_evalBrowserName (r : CaseInsensitive m allBrowserNames) :
    m.lower.toLower (evalBrowserName r) = r.word := by
  have hwords : ∀ word ∈ allBrowserNames,
      (String.ofList (word.toList.map Char.toUpper)).toList.all (fun d => decide (d.val < 128)) =
          true ∧
        String.ofList ((String.ofList (word.toList.map Char.toUpper)).toList.map Char.toLower) =
          word := by decide
  obtain ⟨hascii, hword⟩ := hwords r.word r.mem
  rw [evalBrowserName, r.same,
    m.upper.toUpper_eq_map (ascii_of_mem_allBrowserNames r.word r.mem),
    m.lower.toLower_eq_map hascii, hword]

/-- An atom. -/
theorem AtomExp.decodable_eval (e : AtomExp m) : Decodable m e.eval ↔ e.Readable := by
  cases e with
  | linkExp r =>
    rw [AtomExp.eval, if_neg r.ne_empty]
    exact Iff.rfl
  | labelExp r =>
    rw [AtomExp.eval, if_neg r.ne_empty]
    exact Iff.rfl
  | webFeatureExp r =>
    rw [AtomExp.eval, if_neg r.ne_empty]
    exact Iff.rfl
  | isExp r => exact quality_iff r.text
  | triagedBrowser r =>
    refine iff_of_true ?_ trivial
    rw [AtomExp.eval]
    split_ifs
    · exact ⟨List.cons_ne_nil _ _, trivial, trivial⟩
    · rw [toLower_evalBrowserName]
      exact Or.inr (productReads_of_mem r.mem)
  | triagedTestIssue => exact iff_of_true (Or.inl rfl) trivial
  | statusEq r => exact iff_of_true ((statusReads_iff r).mpr nofun) trivial
  | statusNeq r => exact iff_of_true ((statusReads_iff r).mpr nofun) trivial
  | statusProductEq l r => exact statusReads_some_iff l r
  | statusProductNeq l r => exact statusReads_some_iff l r
  | subtestExp _ => exact Iff.rfl
  | pathExp _ => exact Iff.rfl
  | patternExp _ => exact Iff.rfl

end Atoms

/-! ## Searches

The condition, rule by rule in the order of the grammar. Only a list of arguments that may be empty
asks for something besides its parts. -/

section Searches

variable {m : CaseTables}

open StructuredQuery

def Fragment.Readable : Fragment m → Prop
  | .not p => p.Readable
  | .atom e => e.Readable

mutual

def Exp.Readable : Exp m → Prop
  | .list fst rest => fst.Readable ∧ OrPart.AllReadable rest

def OrPart.Readable : OrPart m → Prop
  | .list fst rest => fst.Readable ∧ AndPart.AllReadable rest

def OrPart.AllReadable : List (OrPart m) → Prop
  | [] => True
  | p :: ps => p.Readable ∧ OrPart.AllReadable ps

def AndPart.Readable : AndPart m → Prop
  | .nestedExp p => p.Readable
  | .fragment p => p.Readable

def AndPart.AllReadable : List (AndPart m) → Prop
  | [] => True
  | p :: ps => p.Readable ∧ AndPart.AllReadable ps

def NestedExp.Readable : NestedExp m → Prop
  | .paren p => p.Readable
  | .not p => p.Readable

end

/-- JavaScript can show the number that is compared with in full, in 64 bits. -/
def CountSpecifier.Readable : CountSpecifier → Prop
  | .countInequality .ge n => (JsNumber.parseInt n.digits).parseIntAgain.pred.Exact
  | .countInequality .le n => (JsNumber.parseInt n.digits).parseIntAgain.succ.Exact
  | .countInequality .gt n | .countInequality .lt n | .countInequality .eq n | .countN n =>
    (JsNumber.parseInt n.digits).Exact
  | .count3 | .count2 | .count1 => True

mutual

def OrQ.Readable : OrQ m → Prop
  | .list fst rest => fst.Readable ∧ AndQ.AllReadable rest

def OrQ.AllReadable : List (OrQ m) → Prop
  | [] => True
  | p :: ps => p.Readable ∧ OrQ.AllReadable ps

def AndQ.Readable : AndQ m → Prop
  | .list fst rest => fst.Readable ∧ Q.AllReadable rest

def AndQ.AllReadable : List (AndQ m) → Prop
  | [] => True
  | p :: ps => p.Readable ∧ AndQ.AllReadable ps

def Q.Readable : Q m → Prop
  | .all l | .none l | .sequential l => ∀ e ∈ l, e.Readable
  | .count cs exp => cs.Readable ∧ exp.Readable
  -- `exists()` is the one list that does not become the empty query
  | .existsExplicit e => e ≠ [] ∧ ∀ exp ∈ e, exp.Readable
  | .existsImplicit e => e.Readable
  | .parenRoot r => OrQ.AllReadable r
  | .not p => p.Readable

def Q.AllReadable : List (Q m) → Prop
  | [] => True
  | p :: ps => p.Readable ∧ Q.AllReadable ps

end

/-- The server can read every part of the search. -/
def Root.Readable (r : Root m) : Prop := OrQ.AllReadable r

/-! ### The objects that are put together -/

theorem decodableAll_iff : ∀ {ps : List StructuredQuery},
    DecodableAll m ps ↔ ∀ p ∈ ps, Decodable m p
  | [] => by simp [DecodableAll]
  | p :: ps => by rw [DecodableAll, List.forall_mem_cons, decodableAll_iff]

theorem decodable_orConjunction {p : StructuredQuery} {ps : List StructuredQuery} :
    Decodable m (orConjunction (p :: ps)) ↔ Decodable m p ∧ DecodableAll m ps := by
  cases ps with
  | nil => exact (and_iff_left trivial).symm
  | cons p' ps => exact and_iff_right (List.cons_ne_nil _ _)

theorem decodable_andConjunction {p : StructuredQuery} {ps : List StructuredQuery} :
    Decodable m (andConjunction (p :: ps)) ↔ Decodable m p ∧ DecodableAll m ps := by
  cases ps with
  | nil => exact (and_iff_left trivial).symm
  | cons p' ps => exact and_iff_right (List.cons_ne_nil _ _)

theorem decodable_emptyQuery : Decodable m emptyQuery :=
  ⟨List.cons_ne_nil _ _, trivial, trivial⟩

/-- Nothing but a list of arguments is decoded, and never an empty one. -/
theorem decodable_orEmptyQuery {query : List StructuredQuery → StructuredQuery}
    (hquery : ∀ ps, Decodable m (query ps) ↔ ps ≠ [] ∧ DecodableAll m ps)
    (ps : List StructuredQuery) : Decodable m (orEmptyQuery query ps) ↔ DecodableAll m ps := by
  unfold orEmptyQuery
  split_ifs with hempty
  · subst hempty
    exact iff_of_true decodable_emptyQuery trivial
  · rw [hquery, and_iff_right hempty]

mutual

/-- Taking an implicit `exists` off changes nothing. -/
theorem decodable_unwrap : ∀ {p : StructuredQuery}, isImplicitExists p = true →
    (Decodable m (unwrap p) ↔ Decodable m p)
  | .exists [p], _ => by
    rw [unwrap, Decodable, DecodableAll, DecodableAll, and_true]
    exact (and_iff_right (List.cons_ne_nil _ _)).symm
  | .and ps, h => by
    rw [unwrap, Decodable, Decodable, unwrapAll_ne_nil_iff, decodableAll_unwrapAll h]
  | .or ps, h => by
    rw [unwrap, Decodable, Decodable, unwrapAll_ne_nil_iff, decodableAll_unwrapAll h]

theorem decodableAll_unwrapAll : ∀ {ps : List StructuredQuery}, everyImplicitExists ps = true →
    (DecodableAll m (unwrapAll ps) ↔ DecodableAll m ps)
  | [], _ => Iff.rfl
  | p :: ps, h => by
    obtain ⟨hp, hps⟩ := Bool.and_eq_true_iff.mp h
    exact and_congr (decodable_unwrap hp) (decodableAll_unwrapAll hps)

end

theorem decodable_root (ps : List StructuredQuery) :
    Decodable m (root ps) ↔ DecodableAll m ps := by
  unfold root
  split_ifs with hempty himplicit
  · subst hempty
    exact iff_of_true decodable_emptyQuery trivial
  · rw [Decodable, unwrapAll_ne_nil_iff, and_iff_right hempty, decodableAll_unwrapAll himplicit]
  · match ps with
    | [p] => exact (and_iff_left trivial).symm
    | p :: p' :: ps => exact and_iff_right (List.cons_ne_nil _ _)

/-! ### Rule by rule -/

theorem Fragment.decodable_eval : ∀ p : Fragment m, Decodable m p.eval ↔ p.Readable
  | .not p => p.decodable_eval
  | .atom e => e.decodable_eval

mutual

theorem Exp.decodable_eval : ∀ p : Exp m, Decodable m p.eval ↔ p.Readable
  | .list fst rest => by
    rw [Exp.eval, Exp.Readable, decodable_orConjunction, fst.decodable_eval,
      OrPart.decodable_evals rest]

theorem OrPart.decodable_eval : ∀ p : OrPart m, Decodable m p.eval ↔ p.Readable
  | .list fst rest => by
    rw [OrPart.eval, OrPart.Readable, decodable_andConjunction, fst.decodable_eval,
      AndPart.decodable_evals rest]

theorem OrPart.decodable_evals : ∀ ps : List (OrPart m),
    DecodableAll m (OrPart.evals ps) ↔ OrPart.AllReadable ps
  | [] => Iff.rfl
  | p :: ps => and_congr p.decodable_eval (OrPart.decodable_evals ps)

theorem AndPart.decodable_eval : ∀ p : AndPart m, Decodable m p.eval ↔ p.Readable
  | .nestedExp p => p.decodable_eval
  | .fragment p => p.decodable_eval

theorem AndPart.decodable_evals : ∀ ps : List (AndPart m),
    DecodableAll m (AndPart.evals ps) ↔ AndPart.AllReadable ps
  | [] => Iff.rfl
  | p :: ps => and_congr p.decodable_eval (AndPart.decodable_evals ps)

theorem NestedExp.decodable_eval : ∀ p : NestedExp m, Decodable m p.eval ↔ p.Readable
  | .paren p => p.decodable_eval
  | .not p => p.decodable_eval

end

theorem decodableAll_map_eval {l : List (Exp m)} :
    DecodableAll m (l.map Exp.eval) ↔ ∀ e ∈ l, e.Readable := by
  rw [decodableAll_iff, List.forall_mem_map]
  exact forall₂_congr fun e _ => e.decodable_eval

theorem countReads_iff (n : JsNumber) : CountReads n ↔ n.Exact := by
  constructor
  · rintro ⟨k, rfl, hk⟩
    exact decodeInt_toJson_iff.mp hk
  · intro h
    cases n with
    | int k => exact ⟨k, rfl, decodeInt_toJson_iff.mpr h⟩
    | infinity => exact h.elim
    | nan => exact h.elim

theorem countReads_of_small {k : Int} (h : k.natAbs < 2 ^ 53) : CountReads (.int k) :=
  (countReads_iff _).mpr (JsNumber.exact_of_lt h)

theorem CountSpecifier.decodable_eval (cs : CountSpecifier) (body : StructuredQuery) :
    Decodable m (cs.eval body) ↔ cs.Readable ∧ Decodable m body := by
  cases cs with
  | countInequality c n => cases c <;> exact and_congr_left' (countReads_iff _)
  | countN n => exact and_congr_left' (countReads_iff _)
  | count3 => exact and_congr_left' (iff_of_true (countReads_of_small (by decide)) trivial)
  | count2 => exact and_congr_left' (iff_of_true (countReads_of_small (by decide)) trivial)
  | count1 => exact and_congr_left' (iff_of_true (countReads_of_small (by decide)) trivial)

mutual

theorem OrQ.decodable_eval : ∀ p : OrQ m, Decodable m p.eval ↔ p.Readable
  | .list fst rest => by
    rw [OrQ.eval, OrQ.Readable, decodable_orConjunction, fst.decodable_eval,
      AndQ.decodable_evals rest]

theorem OrQ.decodable_evals : ∀ ps : List (OrQ m),
    DecodableAll m (OrQ.evals ps) ↔ OrQ.AllReadable ps
  | [] => Iff.rfl
  | p :: ps => and_congr p.decodable_eval (OrQ.decodable_evals ps)

theorem AndQ.decodable_eval : ∀ p : AndQ m, Decodable m p.eval ↔ p.Readable
  | .list fst rest => by
    rw [AndQ.eval, AndQ.Readable, decodable_andConjunction, fst.decodable_eval,
      Q.decodable_evals rest]

theorem AndQ.decodable_evals : ∀ ps : List (AndQ m),
    DecodableAll m (AndQ.evals ps) ↔ AndQ.AllReadable ps
  | [] => Iff.rfl
  | p :: ps => and_congr p.decodable_eval (AndQ.decodable_evals ps)

/-- A query in parentheses, a negation, a count, or one of the lists. -/
theorem Q.decodable_eval : ∀ p : Q m, Decodable m p.eval ↔ p.Readable
  | .all l | .none l | .sequential l => by
    rw [Q.eval, Q.Readable, decodable_orEmptyQuery (fun _ => Iff.rfl), decodableAll_map_eval]
  | .count cs exp => by
    rw [Q.eval, Q.Readable, cs.decodable_eval, exp.decodable_eval]
  | .existsExplicit e => by
    rw [Q.eval, Q.Readable, Decodable, decodableAll_map_eval, ne_eq, List.map_eq_nil_iff]
  | .existsImplicit e => by
    rw [Q.eval, Q.Readable, Decodable, DecodableAll, DecodableAll, and_true, e.decodable_eval]
    exact and_iff_right (List.cons_ne_nil _ _)
  | .parenRoot r => by
    rw [Q.eval, Q.Readable, decodable_root, OrQ.decodable_evals r]
  | .not p => p.decodable_eval

theorem Q.decodable_evals : ∀ ps : List (Q m),
    DecodableAll m (Q.evals ps) ↔ Q.AllReadable ps
  | [] => Iff.rfl
  | p :: ps => and_congr p.decodable_eval (Q.decodable_evals ps)

end

theorem Root.decodable_eval (r : Root m) : Decodable m r.eval ↔ r.Readable := by
  rw [Root.eval, decodable_root, OrQ.decodable_evals r]
  rfl

/-- **A search is decoded as it was meant** exactly when the server can read every
part of it. -/
theorem decodes_eval_iff (r : Root m) : r.eval.Decodes m ↔ r.Readable := by
  rw [decodes_iff, r.decodable_eval]

/-- An `exists` without arguments. -/
def StructuredQuery.isEmptyExists : StructuredQuery → Bool
  | .exists [] => true
  | _ => false

theorem StructuredQuery.eq_of_isEmptyExists {q : StructuredQuery} (h : q.isEmptyExists = true) :
    q = .exists [] := by
  unfold isEmptyExists at h
  split at h
  · rfl
  · cases h

/-- `exists()` is a search, and the server refuses its query. -/
theorem not_decodes_existsExplicit :
    ¬ ∀ (search : String) (r : Root ⟨.ascii, .ascii⟩),
      QueryParser.matchRoot ⟨.ascii, .ascii⟩ Char.isAlpha 10 search = some r →
        r.eval.Decodes ⟨.ascii, .ascii⟩ := by
  intro h
  have hmatch : (QueryParser.matchRoot ⟨.ascii, .ascii⟩ Char.isAlpha 10 "exists()").any
      (fun r => r.eval.isEmptyExists) = true := by decide +kernel
  obtain ⟨r, hr, hempty⟩ := (Option.any_eq_true _ _).mp hmatch
  have heval := StructuredQuery.eq_of_isEmptyExists hempty
  have hdecodes := (decodes_iff _).mp (heval ▸ h "exists()" r hr)
  exact hdecodes.1 rfl

end Searches

end WptFyi.Webapp
