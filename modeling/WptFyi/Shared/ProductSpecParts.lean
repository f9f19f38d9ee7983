import WptFyi.Shared.ProductSpecs

/-!
# The parts of a product spec

Where `splitAtNonMainAt` cuts, and what an accepted spec is put together from:
a product, labels in brackets and a SHA, the last two being optional.

The cut is at the first `@` that `main` does not follow, and what is behind it may have no `@` at
all. So everything before the cut has `main` after each `@`. A spec that is accepted is written
from parts that can be told apart (`SpecParts.Valid`), and a spec written from such parts is parsed
to what the parts say; proofs about accepted specs take them by their parts and do not go back to
the characters.

- `AtsAreMain`: `main` follows every `@`, which holds of what is before the SHA;
- `splitAtNonMainAt_cases`: a split into at most two pieces;
- `parseProductSpec_text`, `exists_parts`: the specs that are accepted, part by part.
-/

namespace WptFyi.Shared

open Lib Lib.GoStrings

/-! ## Where a spec is cut -/

/-- Every `@` is followed by `main`. -/
def AtsAreMain (cs : List Char) : Prop := ∀ a b, cs = a ++ '@' :: b → "main".toList <+: b

theorem atsAreMain_nil : AtsAreMain [] := by
  intro a b h
  exact absurd h (by simp)

/-- Character by character. -/
theorem atsAreMain_cons_iff {c : Char} {cs : List Char} :
    AtsAreMain (c :: cs) ↔ (c = '@' → "main".toList <+: cs) ∧ AtsAreMain cs := by
  constructor
  · intro h
    refine ⟨?_, fun a b heq => h (c :: a) b (by rw [heq]; rfl)⟩
    rintro rfl
    exact h [] cs rfl
  · rintro ⟨hc, hcs⟩ a b heq
    cases a with
    | nil =>
      cases heq
      exact hc rfl
    | cons x a =>
      cases heq
      exact hcs a b rfl

theorem prefix_append_cons_iff {α : Type*} {p a b : List α} {sep : α} (h : sep ∉ p) :
    p <+: a ++ sep :: b ↔ p <+: a := by
  induction p generalizing a with
  | nil => simp
  | cons x p ih =>
    obtain ⟨hx, hp⟩ := List.ne_and_not_mem_of_not_mem_cons h
    cases a with
    | nil => simp [Ne.symm hx]
    | cons y a => rw [List.cons_append, List.cons_prefix_cons, List.cons_prefix_cons, ih hp]

theorem atsAreMain_of_notMem {cs : List Char} (h : '@' ∉ cs) : AtsAreMain cs := by
  rintro a b rfl
  exact absurd List.mem_append_cons_self h

/-- What follows an `@` does not go past a character that `main` does not have. -/
theorem atsAreMain_append_cons {a b : List Char} {sep : Char} (hsep : sep ∉ "main".toList) :
    AtsAreMain (a ++ sep :: b) ↔ AtsAreMain a ∧ AtsAreMain (sep :: b) := by
  induction a with
  | nil => simp [atsAreMain_nil]
  | cons c a ih =>
    rw [List.cons_append, atsAreMain_cons_iff, atsAreMain_cons_iff, ih, prefix_append_cons_iff hsep,
      and_assoc]

theorem posFirstAtNoMain_eq_none_iff {cs : List Char} :
    posFirstAtNoMain cs = none ↔ AtsAreMain cs := by
  induction cs with
  | nil => exact iff_of_true rfl atsAreMain_nil
  | cons c cs ih =>
    rw [posFirstAtNoMain, atsAreMain_cons_iff]
    split_ifs with h
    · exact iff_of_false (by simp) fun hmain => h.2 (hmain.1 h.1)
    · rw [Option.map_eq_none_iff, ih, not_and_not_right] at *
      exact (and_iff_right h).symm

theorem posFirstAtNoMain_append {a b : List Char} (ha : AtsAreMain a)
    (hb : ¬ "main".toList <+: b) : posFirstAtNoMain (a ++ '@' :: b) = some a.length := by
  induction a with
  | nil => exact if_pos ⟨rfl, hb⟩
  | cons c a ih =>
    rw [atsAreMain_cons_iff] at ha
    rw [List.cons_append, posFirstAtNoMain, if_neg, ih ha.2]
    · rfl
    · rintro ⟨hc, hmain⟩
      exact hmain ((ha.1 hc).trans (List.prefix_append a _))

/-- The position that is found: before it `main` follows every `@`, and behind it there is no
`main`. -/
theorem posFirstAtNoMain_eq_some {cs : List Char} {i : Nat} (h : posFirstAtNoMain cs = some i) :
    ∃ a b, cs = a ++ '@' :: b ∧ a.length = i ∧ AtsAreMain a ∧ ¬ "main".toList <+: b := by
  induction cs generalizing i with
  | nil => cases h
  | cons c cs ih =>
    rw [posFirstAtNoMain] at h
    split_ifs at h with hc
    · cases h
      exact ⟨[], cs, by rw [hc.1]; rfl, rfl, atsAreMain_nil, hc.2⟩
    · obtain ⟨j, hj, rfl⟩ := Option.map_eq_some_iff.mp h
      obtain ⟨a, b, rfl, rfl, ha, hb⟩ := ih hj
      refine ⟨c :: a, b, rfl, rfl, atsAreMain_cons_iff.mpr ⟨fun heq => ?_, ha⟩, hb⟩
      exact (prefix_append_cons_iff (by decide)).mp (not_and_not_right.mp hc heq)

/-- An `@main` in the front part is found in the front part. -/
theorem posFirstAtMain_append {a : List Char} (b : List Char) (ha : AtsAreMain a) (hat : '@' ∈ a) :
    ∃ i < a.length, posFirstAtMain (a ++ b) = some i := by
  induction a with
  | nil => cases hat
  | cons c a ih =>
    rw [atsAreMain_cons_iff] at ha
    rw [List.cons_append, posFirstAtMain]
    by_cases hmain : "@main".toList <+: c :: (a ++ b)
    · exact ⟨0, Nat.zero_lt_succ _, if_pos hmain⟩
    · rw [if_neg hmain]
      have hc : c ≠ '@' := by
        rintro rfl
        exact hmain (List.cons_prefix_cons.mpr ⟨rfl, (ha.1 rfl).trans (List.prefix_append a b)⟩)
      obtain ⟨i, hi, hpos⟩ := ih ha.2 ((List.mem_cons.mp hat).resolve_left (Ne.symm hc))
      exact ⟨i + 1, Nat.succ_lt_succ hi, by rw [hpos]; rfl⟩

theorem contains_atMain_iff {s : String} :
    contains s "@main" = true ↔ ∃ a b, s.toList = a ++ '@' :: b ∧ "main".toList <+: b := by
  rw [contains, decide_eq_true_iff]
  constructor
  · rintro ⟨a, c, heq⟩
    refine ⟨a, "main".toList ++ c, ?_, List.prefix_append _ _⟩
    rw [← heq]
    simp
  · rintro ⟨a, b, heq, c, rfl⟩
    exact ⟨a, c, by rw [heq]; simp⟩

theorem contains_of_atsAreMain {s : String} (h : AtsAreMain s.toList) (hat : '@' ∈ s.toList) :
    contains s "@main" = true := by
  obtain ⟨a, b, heq, _⟩ := List.eq_append_cons_of_mem hat
  exact contains_atMain_iff.mpr ⟨a, b, heq, h a b heq⟩

theorem atsAreMain_of_contains {s : String} (h : contains s "@main" = true)
    (hcount : s.toList.count '@' = 1) : AtsAreMain s.toList := by
  obtain ⟨a, b, heq, hmain⟩ := contains_atMain_iff.mp h
  rw [heq, List.count_append, List.count_cons_self] at hcount
  have ha : '@' ∉ a := List.count_eq_zero.mp (by omega)
  have hb : '@' ∉ b := List.count_eq_zero.mp (by omega)
  rw [heq, atsAreMain_append_cons (by decide), atsAreMain_cons_iff]
  exact ⟨atsAreMain_of_notMem ha, fun _ => hmain, atsAreMain_of_notMem hb⟩

/-- Nothing to cut. -/
theorem splitAtNonMainAt_of_count_le_one {s : String} (h : AtsAreMain s.toList)
    (hcount : s.toList.count '@' ≤ 1) : splitAtNonMainAt s = [s] := by
  unfold splitAtNonMainAt
  by_cases hat : '@' ∈ s.toList
  · have hone : s.toList.count '@' = 1 := by
      have hpos := List.count_pos_iff.mpr hat
      omega
    rw [contains_of_atsAreMain h hat]
    exact if_pos hone
  · have hnone : contains s "@main" = false := by
      rw [← Bool.not_eq_true, contains_atMain_iff]
      rintro ⟨a, b, heq, _⟩
      exact hat (heq ▸ by simp)
    rw [hnone]
    exact split_of_notMem hat

/-- Every `@` is cut at when `main` follows them all and there are several. -/
theorem splitAtNonMainAt_of_two_le_count {s : String} (h : AtsAreMain s.toList)
    (hcount : 2 ≤ s.toList.count '@') : splitAtNonMainAt s = split s '@' := by
  unfold splitAtNonMainAt
  have hat : '@' ∈ s.toList := List.count_pos_iff.mp (by omega)
  have hone : s.toList.count '@' ≠ 1 := by omega
  simp only [contains_of_atsAreMain h hat, posFirstAtNoMain_eq_none_iff.mpr h, Bool.not_true,
    Bool.false_eq_true, if_false, if_neg hone]

theorem toList_append_at (name sha : String) :
    (name ++ "@" ++ sha).toList = name.toList ++ '@' :: sha.toList := by
  simp [String.toList_append]

/-- The cut before a SHA. -/
theorem splitAtNonMainAt_append {name sha : String} (hname : AtsAreMain name.toList)
    (hsha : '@' ∉ sha.toList) (hmain : ¬ "main".toList <+: sha.toList) :
    splitAtNonMainAt (name ++ "@" ++ sha) = [name, sha] := by
  unfold splitAtNonMainAt
  by_cases hat : '@' ∈ name.toList
  · have hcontains : contains (name ++ "@" ++ sha) "@main" = true := by
      obtain ⟨a, b, heq, _⟩ := List.eq_append_cons_of_mem hat
      refine contains_atMain_iff.mpr ⟨a, b ++ '@' :: sha.toList, ?_,
        (hname a b heq).trans (List.prefix_append _ _)⟩
      rw [toList_append_at, heq, List.append_assoc, List.cons_append]
    have hone : (name ++ "@" ++ sha).toList.count '@' ≠ 1 := by
      rw [toList_append_at, List.count_append, List.count_cons_self]
      have hpos := List.count_pos_iff.mpr hat
      omega
    obtain ⟨i, hi, hpos⟩ := posFirstAtMain_append ('@' :: sha.toList) hname hat
    simp only [hcontains, Bool.not_true, Bool.false_eq_true, if_false, if_neg hone]
    rw [toList_append_at, posFirstAtNoMain_append hname hmain, hpos]
    simp only
    rw [if_neg (by omega), List.take_left, List.drop_length_add_append, List.drop_one,
      List.tail_cons, String.ofList_toList, String.ofList_toList, split_of_notMem hsha]
  · have hpair := split_eq_pair_iff.mpr ⟨rfl, hat, hsha⟩
    have hnone : contains (name ++ "@" ++ sha) "@main" = false := by
      rw [← Bool.not_eq_true, contains_atMain_iff]
      rintro ⟨a, b, heq, hb⟩
      rw [toList_append_at] at heq
      -- there is one `@` only, and what follows it is the SHA
      obtain ⟨_, _, rfl⟩ := (List.append_cons_inj_of_notMem hat hsha).mp heq
      exact hmain hb
    rw [hnone]
    exact hpair

/-- **A cut into at most two pieces.** -/
theorem splitAtNonMainAt_cases {s : String} (h : (splitAtNonMainAt s).length ≤ 2) :
    (splitAtNonMainAt s = [s] ∧ AtsAreMain s.toList ∧ s.toList.count '@' ≤ 1) ∨
      ∃ name sha, splitAtNonMainAt s = [name, sha] ∧ s = name ++ "@" ++ sha ∧
        AtsAreMain name.toList ∧ '@' ∉ sha.toList ∧ ¬ "main".toList <+: sha.toList := by
  have hall : (split s '@').length = s.toList.count '@' + 1 := length_split
  by_cases hcontains : contains s "@main" = true
  · by_cases hone : s.toList.count '@' = 1
    · have hmain := atsAreMain_of_contains hcontains hone
      exact Or.inl ⟨splitAtNonMainAt_of_count_le_one hmain hone.le, hmain, hone.le⟩
    · obtain ⟨a, b, heq, hb⟩ := contains_atMain_iff.mp hcontains
      -- more than one `@`, one of them in an `@main`: the cut is at the first other one
      have htwo : 2 ≤ s.toList.count '@' := by
        have hpos : 0 < s.toList.count '@' := List.count_pos_iff.mpr (heq ▸ by simp)
        omega
      unfold splitAtNonMainAt at h ⊢
      simp only [hcontains, Bool.not_true, Bool.false_eq_true, if_false, if_neg hone] at h ⊢
      cases hno : posFirstAtNoMain s.toList with
      | none =>
        rw [hno] at h
        simp only at h
        omega
      | some i =>
        rw [hno] at h
        cases hmain : posFirstAtMain s.toList with
        | none =>
          rw [hmain] at h
          simp only at h
          omega
        | some j =>
          rw [hmain] at h
          simp only at h ⊢
          split_ifs at h ⊢ with hlt
          · omega
          · obtain ⟨name, sha, hs, rfl, hname, hsha⟩ := posFirstAtNoMain_eq_some hno
            rw [hs, List.take_left, List.drop_length_add_append, List.drop_one,
              List.tail_cons] at h ⊢
            -- two pieces only, so the SHA has no `@`
            have hat : '@' ∉ sha := by
              rw [List.length_cons, length_split, String.toList_ofList] at h
              exact List.count_eq_zero.mp (by omega)
            refine Or.inr ⟨String.ofList name, String.ofList sha, ?_, ?_, ?_, ?_, ?_⟩
            · rw [split_of_notMem (by rwa [String.toList_ofList])]
            · rw [← String.toList_inj, toList_append_at, hs, String.toList_ofList,
                String.toList_ofList]
            · rwa [String.toList_ofList]
            · rwa [String.toList_ofList]
            · rwa [show (String.ofList sha).toList = sha from String.toList_ofList]
  · rw [Bool.not_eq_true] at hcontains
    -- no `@main` at all: every `@` is cut at
    have hsplit : splitAtNonMainAt s = split s '@' := by
      unfold splitAtNonMainAt
      rw [hcontains]
      rfl
    rw [hsplit] at h ⊢
    match hpieces : split s '@', h with
    | [], _ => rw [hpieces] at hall; cases hall
    | [piece], _ =>
      rw [hpieces] at hall
      have hat : '@' ∉ s.toList := List.count_eq_zero.mp (by simpa using hall.symm)
      rw [split_of_notMem hat] at hpieces
      exact Or.inl ⟨hpieces.symm, atsAreMain_of_notMem hat, by
        rw [List.count_eq_zero.mpr hat]; omega⟩
    | [name, sha], _ =>
      obtain ⟨hs, hname, hsha⟩ := split_eq_pair_iff.mp hpieces
      refine Or.inr ⟨name, sha, rfl, hs, atsAreMain_of_notMem hname, hsha, fun hmain => ?_⟩
      rw [contains_atMain_iff.mpr ⟨name.toList, sha.toList, by rw [hs]; exact toList_append_at _ _,
        hmain⟩] at hcontains
      cases hcontains

/-! ## Labels -/

/-- The labels between the brackets. -/
def labelSet (inner : String) : Finset String := ((split inner ',').filter (· ≠ "")).toFinset

/-- Labels are read up to the bracket that closes them, which has to be the end. -/
theorem parseLabels_append {inner : String} (h : ']' ∉ inner.toList) :
    parseLabels (inner ++ "]") = some (labelSet inner) := by
  have hlist : (inner ++ "]").toList = inner.toList ++ [']'] := by simp [String.toList_append]
  have hne : inner ++ "]" ≠ "" := by
    intro heq
    have hlen := congrArg (fun s => s.toList.length) heq
    simp [hlist] at hlen
  -- the closing bracket is the last character and the only one
  have hidx : (inner.toList ++ [']']).idxOf ']' = inner.toList.length := by
    rw [List.idxOf_append_of_notMem h]
    simp
  unfold parseLabels
  rw [if_neg hne, if_neg, hlist, List.dropLast_concat, String.ofList_toList, labelSet]
  rw [hlist, hidx]
  simp

/-- And nothing else is accepted. -/
theorem parseLabels_eq_some {labels : String} {set : Finset String}
    (h : parseLabels labels = some set) :
    ∃ inner, labels = inner ++ "]" ∧ ']' ∉ inner.toList := by
  unfold parseLabels at h
  simp only at h
  split_ifs at h with hempty hbad
  rw [not_or, not_ne_iff] at hbad
  obtain ⟨hlast, hidx⟩ := hbad
  obtain ⟨cs, hcs⟩ := List.getLast?_eq_some_iff.mp hlast
  refine ⟨String.ofList cs, ?_, ?_⟩
  · rw [← String.toList_inj, hcs]
    simp [String.toList_append]
  · rw [String.toList_ofList]
    intro hmem
    rw [hcs, List.idxOf_append_of_mem hmem, List.length_append, List.length_singleton] at hidx
    exact hidx (by have := List.idxOf_lt_length_of_mem hmem; omega)

/-! ## Specs from their parts

A spec that is accepted is made of a name, labels and a revision, and parsing it gives these
back. -/

/-- What a spec is written from. -/
structure SpecParts where
  product : String
  /-- What is between the brackets. -/
  labels : Option String
  sha : Option String

namespace SpecParts

/-- The part before the SHA. -/
def name (parts : SpecParts) : String :=
  match parts.labels with
  | none => parts.product
  | some labels => parts.product ++ "[" ++ (labels ++ "]")

def text (parts : SpecParts) : String :=
  match parts.sha with
  | none => parts.name
  | some sha => parts.name ++ "@" ++ sha

/-- The parts can be told apart again. -/
structure Valid (parts : SpecParts) : Prop where
  product : '[' ∉ parts.product.toList
  labels : ∀ labels, parts.labels = some labels → '[' ∉ labels.toList ∧ ']' ∉ labels.toList
  ats : AtsAreMain parts.name.toList
  one : parts.sha = none → parts.name.toList.count '@' ≤ 1
  sha : ∀ sha, parts.sha = some sha → (parseSHA sha).2 = none

/-- The revision the parts ask for. -/
def revision (parts : SpecParts) : String :=
  match parts.sha with
  | none => "latest"
  | some sha => (parseSHA sha).1

/-- The spec the parts stand for; its product may still fail to parse. -/
def spec (m : LowerCase) (parts : SpecParts) : ProductSpec × Option String :=
  parseNamed m
    { browserName := "", revision := parts.revision, labels := parts.labels.map labelSet }
    parts.product

end SpecParts

/-- A SHA has no `@`, and is not `main`. -/
theorem notMem_of_parseSHA {sha : String} (h : (parseSHA sha).2 = none) :
    '@' ∉ sha.toList ∧ ¬ "main".toList <+: sha.toList := by
  unfold parseSHA at h
  split_ifs at h with hlatest hhex
  · rcases hlatest with rfl | rfl <;> decide
  · have hall : ∀ c ∈ sha.toList, isHexDigit c = true := by
      simp only [matchesSHARegex, Bool.and_eq_true, List.all_eq_true] at hhex
      exact hhex.1.1
    refine ⟨fun hat => absurd (hall _ hat) (by decide), fun hmain => ?_⟩
    exact absurd (hall 'm' (hmain.subset (by decide))) (by decide)

/-- What stands before the SHA is parsed as its labels and its product say. -/
theorem parseLabelled_name (m : LowerCase) {parts : SpecParts} (h : parts.Valid) (errMsg : String)
    (productSpec : ProductSpec) (hlabels : productSpec.labels = none) :
    parseLabelled m errMsg productSpec parts.name =
      parseNamed m { productSpec with labels := parts.labels.map labelSet } parts.product := by
  unfold parseLabelled SpecParts.name
  cases hparts : parts.labels with
  | none =>
    simp only
    rw [split_of_notMem h.product, Option.map_none, ← hlabels]
  | some labels =>
    obtain ⟨hopen, hclose⟩ := h.labels labels hparts
    have hpieces : split (parts.product ++ "[" ++ (labels ++ "]")) '[' =
        [parts.product, labels ++ "]"] :=
      split_eq_pair_iff.mpr ⟨rfl, h.product, by simpa [String.toList_append] using hopen⟩
    simp only
    rw [hpieces]
    simp only
    rw [parseLabels_append hclose]
    rfl

/-- **Parts that can be told apart** are parsed as they were written. -/
theorem parseProductSpec_text (m : LowerCase) {parts : SpecParts} (h : parts.Valid) :
    parseProductSpec m parts.text = parts.spec m := by
  unfold parseProductSpec SpecParts.text SpecParts.spec SpecParts.revision
  cases hparts : parts.sha with
  | none =>
    simp only
    rw [splitAtNonMainAt_of_count_le_one h.ats (h.one hparts)]
    exact parseLabelled_name m h _ _ rfl
  | some sha =>
    obtain ⟨hat, hmain⟩ := notMem_of_parseSHA (h.sha sha hparts)
    simp only
    rw [splitAtNonMainAt_append h.ats hat hmain]
    simp only
    rw [show parseSHA sha = ((parseSHA sha).1, none) from Prod.ext rfl (h.sha sha hparts)]
    exact parseLabelled_name m h _ _ rfl

/-- If that is accepted, it is written from a product and labels. -/
theorem exists_parts_of_parseLabelled {m : LowerCase} {errMsg name : String}
    {productSpec : ProductSpec} (h : (parseLabelled m errMsg productSpec name).2 = none) :
    ∃ product labels, '[' ∉ product.toList ∧
      (∀ inner, labels = some inner → '[' ∉ inner.toList ∧ ']' ∉ inner.toList) ∧
      name = SpecParts.name ⟨product, labels, none⟩ := by
  unfold parseLabelled at h
  split at h
  · next product labels hpieces =>
    obtain ⟨rfl, hproduct, hlabels⟩ := split_eq_pair_iff.mp hpieces
    cases hparse : parseLabels labels with
    | none =>
      rw [hparse] at h
      cases h
    | some set =>
      obtain ⟨inner, rfl, hclose⟩ := parseLabels_eq_some hparse
      refine ⟨product, some inner, hproduct, ?_, rfl⟩
      rintro _ ⟨⟩
      exact ⟨fun hopen => hlabels (by simp [String.toList_append, hopen]), hclose⟩
  · next product hpieces =>
    have hjoin := join_split name '['
    rw [hpieces] at hjoin
    have hname : product = name := by
      rw [← hjoin, join]
      simp
    subst hname
    exact ⟨product, none, notMem_of_mem_split (hpieces ▸ List.mem_cons_self), by simp, rfl⟩
  · cases h

/-- **An accepted spec** has such parts. -/
theorem exists_parts {m : LowerCase} {s : String} (h : (parseProductSpec m s).2 = none) :
    ∃ parts : SpecParts, parts.Valid ∧ s = parts.text := by
  unfold parseProductSpec at h
  simp only at h
  split at h
  · next name sha hpieces =>
    rcases splitAtNonMainAt_cases (by rw [hpieces]; simp) with
      ⟨hone, _⟩ | ⟨name', sha', htwo, rfl, hats, _⟩
    · rw [hpieces] at hone
      cases hone
    · rw [hpieces] at htwo
      cases htwo
      cases hsha : (parseSHA sha).2 with
      | some err =>
        rw [show parseSHA sha = ((parseSHA sha).1, some err) from Prod.ext rfl hsha] at h
        cases h
      | none =>
        rw [show parseSHA sha = ((parseSHA sha).1, none) from Prod.ext rfl hsha] at h
        obtain ⟨product, labels, hproduct, hlabels, rfl⟩ := exists_parts_of_parseLabelled h
        refine ⟨⟨product, labels, some sha⟩, ⟨hproduct, hlabels, hats, by simp, ?_⟩, rfl⟩
        rintro _ ⟨⟩
        exact hsha
  · next name hpieces =>
    rcases splitAtNonMainAt_cases (by rw [hpieces]; simp) with
      ⟨hone, hats, hcount⟩ | ⟨name', sha', htwo, _⟩
    · rw [hpieces] at hone
      cases hone
      obtain ⟨product, labels, hproduct, hlabels, rfl⟩ := exists_parts_of_parseLabelled h
      exact ⟨⟨product, labels, none⟩, ⟨hproduct, hlabels, hats, fun _ => hcount, by simp⟩, rfl⟩
    · rw [hpieces] at htwo
      cases htwo
  · cases h

end WptFyi.Shared
