import Mathlib

/-!
# Strings as Go's `strings` package reads them

Prefixes, substrings, splitting and joining over the characters of a string.
Only what the model calls is here; the facts about `split` and `join` are the
ones its path and spec functions rest on. Case mapping needs Unicode tables:
`LowerCase` and `UpperCase` are known on ASCII only.

A Go string is a sequence of bytes that need not be UTF-8; a `String` here is one that is. On such
texts the functions of the package agree with those on characters, as a character's bytes never
begin inside those of another one. A case table is a structure that carries what is assumed of it,
so that a theorem for any table holds of Go's whatever version of Unicode it has, and the table that
changes ASCII only can be used where something is evaluated.

- `hasPrefix`, `hasSuffix`, `contains`, `split`, `join`: the functions of the package;
- `join_split`, `split_join`: the two are inverse where no piece has the separator;
- `LowerCase`, `UpperCase`: case tables and what is known of them.
-/

namespace WptFyi.Lib.GoStrings

/-- `strings.HasPrefix(s, p)`. -/
def hasPrefix (s p : String) : Bool := p.toList.isPrefixOf s.toList

/-- `strings.HasSuffix(s, p)`. -/
def hasSuffix (s p : String) : Bool := p.toList.isSuffixOf s.toList

/-- `strings.Contains(s, sub)`. -/
def contains (s sub : String) : Bool := decide (sub.toList <:+: s.toList)

/-- `strings.Split(s, sep)` for a separator of one character. -/
def split (s : String) (sep : Char) : List String :=
  (s.toList.splitOn sep).map String.ofList

/-- `strings.Join(pieces, sep)` for a separator of one character. -/
def join (pieces : List String) (sep : Char) : String :=
  String.ofList ([sep].intercalate (pieces.map String.toList))

/-- The last of the pieces a split leaves. -/
def lastPiece (s : String) (sep : Char) : String := (split s sep).getLast?.getD ""

theorem hasPrefix_iff {s p : String} : hasPrefix s p = true ↔ p.toList <+: s.toList :=
  List.isPrefixOf_iff_prefix

theorem hasSuffix_iff {s p : String} : hasSuffix s p = true ↔ p.toList <:+ s.toList :=
  List.isSuffixOf_iff_suffix

/-- Joining undoes splitting. -/
theorem join_split (s : String) (sep : Char) : join (split s sep) sep = s := by
  rw [join, split, List.map_map]
  have hid : String.toList ∘ String.ofList = id := funext fun _ => String.toList_ofList
  rw [hid, List.map_id, List.intercalate_splitOn, String.ofList_toList]

/-! ## Splitting at every separator

Splitting and joining are inverse to each other when no piece has the separator in it. -/

section Split

variable {s a b : String} {sep : Char} {pieces : List String}

theorem split_of_notMem (h : sep ∉ s.toList) : split s sep = [s] := by
  rw [split, List.splitOn_eq_singleton h, List.map_singleton, String.ofList_toList]

/-- A first piece without the separator. -/
theorem split_append_sep (h : sep ∉ a.toList) :
    split (a ++ String.singleton sep ++ b) sep = a :: split b sep := by
  have hlist : (a ++ String.singleton sep ++ b).toList = a.toList ++ sep :: b.toList := by
    simp [String.toList_append]
  rw [split, hlist, List.splitOn_append_cons_self, List.splitOn_eq_singleton h,
    List.singleton_append, List.map_cons, String.ofList_toList, split]

/-- Splitting undoes joining. -/
theorem split_join (hne : pieces ≠ []) (h : ∀ piece ∈ pieces, sep ∉ piece.toList) :
    split (join pieces sep) sep = pieces := by
  have hlists : ∀ cs ∈ pieces.map String.toList, sep ∉ cs := List.forall_mem_map.mpr h
  rw [split, join, String.toList_ofList,
    List.splitOn_intercalate sep hlists (by simpa using hne), List.map_map]
  have hid : String.ofList ∘ String.toList = id := funext fun _ => String.ofList_toList
  rw [hid, List.map_id]

/-- No piece has the separator. -/
theorem notMem_of_mem_splitOn {α : Type*} [BEq α] [LawfulBEq α] {x : α} {l piece : List α}
    (h : piece ∈ l.splitOn x) : x ∉ piece := by
  induction hn : l.length using Nat.strong_induction_on generalizing l piece with
  | _ n ih =>
    by_cases hx : x ∈ l
    · obtain ⟨pre, post, rfl, hpre⟩ := List.eq_append_cons_of_mem hx
      rw [List.splitOn_append_cons_self, List.splitOn_eq_singleton hpre, List.singleton_append,
        List.mem_cons] at h
      rcases h with rfl | h
      · exact hpre
      · refine ih post.length ?_ h rfl
        subst hn
        simp
        omega
    · rw [List.splitOn_eq_singleton hx, List.mem_singleton] at h
      exact h ▸ hx

/-- No piece has the separator. -/
theorem notMem_of_mem_split {piece : String} (h : piece ∈ split s sep) : sep ∉ piece.toList := by
  obtain ⟨cs, hcs, rfl⟩ := List.mem_map.mp h
  rw [String.toList_ofList]
  exact notMem_of_mem_splitOn hcs

theorem length_split : (split s sep).length = s.toList.count sep + 1 := by
  rw [split, List.length_map]
  induction s.toList with
  | nil => rfl
  | cons c cs ih =>
    rw [List.splitOn_cons_eq_if_modifyHead, List.count_cons]
    split_ifs with h
    · rw [List.length_cons, ih]
    · rw [List.length_modifyHead, ih, Nat.add_zero]

/-- A split in two. -/
theorem split_eq_pair_iff :
    split s sep = [a, b] ↔
      s = a ++ String.singleton sep ++ b ∧ sep ∉ a.toList ∧ sep ∉ b.toList := by
  constructor
  · intro h
    have hjoin := join_split s sep
    rw [h] at hjoin
    refine ⟨?_, notMem_of_mem_split (h ▸ List.mem_cons_self),
      notMem_of_mem_split (h ▸ List.mem_cons_of_mem _ List.mem_cons_self)⟩
    rw [← hjoin, ← String.toList_inj]
    simp [join, String.toList_append]
  · rintro ⟨rfl, ha, hb⟩
    rw [split_append_sep ha, split_of_notMem hb]

theorem join_singleton (a : String) (sep : Char) : join [a] sep = a := by
  simp [join]

theorem toList_join_cons_cons (a b : String) (pieces : List String) (sep : Char) :
    (join (a :: b :: pieces) sep).toList = a.toList ++ sep :: (join (b :: pieces) sep).toList := by
  simp [join, List.intercalate]

theorem join_cons_cons (a b : String) (pieces : List String) (sep : Char) :
    join (a :: b :: pieces) sep = a ++ String.singleton sep ++ join (b :: pieces) sep := by
  refine String.toList_inj.mp ?_
  rw [toList_join_cons_cons, String.toList_append, String.toList_append, String.toList_singleton,
    List.append_assoc, List.singleton_append]

/-- Joining two runs of pieces. -/
theorem join_append (hne : pieces ≠ []) (a : String) (rest : List String) (sep : Char) :
    join (pieces ++ a :: rest) sep =
      join pieces sep ++ String.singleton sep ++ join (a :: rest) sep := by
  induction pieces with
  | nil => exact absurd rfl hne
  | cons b pieces ih =>
    cases pieces with
    | nil => rw [List.singleton_append, join_cons_cons, join_singleton]
    | cons c pieces =>
      rw [List.cons_append, List.cons_append, join_cons_cons, ← List.cons_append,
        ih (List.cons_ne_nil _ _), join_cons_cons]
      simp only [String.append_assoc]

/-- Joining with one more piece at the end. -/
theorem join_snoc (hne : pieces ≠ []) (a : String) (sep : Char) :
    join (pieces ++ [a]) sep = join pieces sep ++ String.singleton sep ++ a := by
  rw [join_append hne, join_singleton]

/-- A character other than the separator is in one of the pieces. -/
theorem count_join {c : Char} (h : c ≠ sep) :
    (join pieces sep).toList.count c = (pieces.map fun piece => piece.toList.count c).sum := by
  induction pieces with
  | nil => rfl
  | cons a pieces ih =>
    cases pieces with
    | nil => simp [join_singleton]
    | cons b pieces =>
      rw [toList_join_cons_cons, List.count_append, List.count_cons_of_ne (Ne.symm h), ih,
        List.map_cons (l := b :: pieces), List.sum_cons]

theorem notMem_join {c : Char} (hsep : c ≠ sep) (h : ∀ piece ∈ pieces, c ∉ piece.toList) :
    c ∉ (join pieces sep).toList := by
  rw [← List.count_eq_zero, count_join hsep, List.sum_eq_zero_iff]
  intro n hn
  obtain ⟨piece, hpiece, rfl⟩ := List.mem_map.mp hn
  exact List.count_eq_zero.mpr (h piece hpiece)

/-- A piece has no character that was not there before. -/
theorem subset_of_mem_split {piece : String} (h : piece ∈ split s sep) :
    piece.toList ⊆ s.toList := by
  intro c hc
  by_cases hsep : c = sep
  · subst hsep
    exact absurd hc (notMem_of_mem_split h)
  · rw [← List.count_pos_iff, ← join_split s sep, count_join hsep]
    have hle : piece.toList.count c ≤ ((split s sep).map fun piece => piece.toList.count c).sum :=
      List.single_le_sum (fun _ _ => Nat.zero_le _) _ (List.mem_map_of_mem h)
    exact lt_of_lt_of_le (List.count_pos_iff.mpr hc) hle

/-- What comes before the first separator is in the first piece. -/
theorem prefix_of_prefix_append_cons {α : Type*} {p a b : List α} {c : α} (h : p <+: a ++ c :: b)
    (hc : c ∉ p) : p <+: a := by
  rcases List.prefix_or_prefix_of_prefix h (List.prefix_append a (c :: b)) with hp | ⟨d, rfl⟩
  · exact hp
  · cases d with
    | nil => simp
    | cons e d =>
      rw [List.prefix_append_right_inj, List.cons_prefix_cons] at h
      exact absurd (by simp [h.1]) hc

theorem prefix_head_split {p : List Char} (h : p <+: s.toList) (hsep : sep ∉ p) :
    p <+: ((split s sep).headD "").toList := by
  rw [← join_split s sep] at h
  match hpieces : split s sep with
  | [] => simp [split] at hpieces
  | [a] =>
    rw [hpieces, join_singleton] at h
    exact h
  | a :: b :: pieces =>
    rw [hpieces, toList_join_cons_cons] at h
    exact prefix_of_prefix_append_cons h hsep

end Split

/-! ## Lower case -/

/-- A table of lower-case runes: that of ASCII, where it reads ASCII, and a
letter `i` or `k` wherever else it leads into ASCII. -/
structure LowerCase where
  rune : Char → Char
  rune_ascii : ∀ c : Char, c.val < 128 → rune c = c.toLower
  rune_into_ascii : ∀ c : Char, 128 ≤ c.val → (rune c).val < 128 → rune c = 'i' ∨ rune c = 'k'

/-- The table that changes ASCII only. -/
def LowerCase.ascii : LowerCase where
  rune := Char.toLower
  rune_ascii _ _ := rfl
  rune_into_ascii c hc hlt := by
    have hsame : c.toLower = c := by
      rw [Char.toLower, dif_neg]
      intro h
      have hz : c.val.toNat ≤ 90 := UInt32.le_iff_toNat_le.mp h.2
      have h128 : 128 ≤ c.val.toNat := UInt32.le_iff_toNat_le.mp hc
      omega
    rw [hsame] at hlt
    exact absurd hlt (UInt32.not_lt.mpr hc)

/-- `strings.ToLower(s)`. -/
def LowerCase.toLower (m : LowerCase) (s : String) : String :=
  String.ofList (s.toList.map m.rune)

/-- ASCII without capitals is in lower case. -/
theorem LowerCase.toLower_of_ascii (m : LowerCase) {s : String}
    (h : ∀ c ∈ s.toList, c.val < 128 ∧ c.toLower = c) : m.toLower s = s := by
  have hmap : s.toList.map m.rune = s.toList := by
    conv_rhs => rw [← List.map_id s.toList]
    refine List.map_congr_left fun c hc => ?_
    rw [m.rune_ascii c (h c hc).1, (h c hc).2, id]
  rw [toLower, hmap, String.ofList_toList]

/-- Lower case brings in no character but lower-case letters. -/
theorem LowerCase.notMem_toLower (m : LowerCase) {s : String} {c : Char} (hc : c.val < 128)
    (hletter : ¬ ('a' ≤ c ∧ c ≤ 'z')) (h : c ∉ s.toList) : c ∉ (m.toLower s).toList := by
  rw [toLower, String.toList_ofList, List.mem_map]
  rintro ⟨d, hd, heq⟩
  by_cases hascii : d.val < 128
  · rw [m.rune_ascii d hascii, Char.toLower] at heq
    split at heq
    · next hupper =>
      subst heq
      refine hletter ⟨?_, ?_⟩
      all_goals
        have hlow : 65 ≤ d.val.toNat := UInt32.le_iff_toNat_le.mp hupper.1
        have hhigh : d.val.toNat ≤ 90 := UInt32.le_iff_toNat_le.mp hupper.2
        have hdiff : ('a'.val - 'A'.val).toNat = 32 := by decide
        have hsum : (d.val + ('a'.val - 'A'.val)).toNat = d.val.toNat + 32 := by
          rw [UInt32.toNat_add, hdiff]
          omega
        refine UInt32.le_iff_toNat_le.mpr ?_
      · show 97 ≤ (d.val + ('a'.val - 'A'.val)).toNat
        omega
      · show (d.val + ('a'.val - 'A'.val)).toNat ≤ 122
        omega
    · exact h (heq ▸ hd)
  · -- two runes outside ASCII are lowered into it, both to letters
    rcases m.rune_into_ascii d (UInt32.not_lt.mp hascii) (heq ▸ hc) with hi | hk
    · exact hletter (by rw [← heq, hi]; decide)
    · exact hletter (by rw [← heq, hk]; decide)

theorem LowerCase.toLower_eq_map (m : LowerCase) {s : String}
    (h : s.toList.all (fun c => decide (c.val < 128)) = true) :
    m.toLower s = String.ofList (s.toList.map Char.toLower) := by
  rw [toLower]
  congr 1
  exact List.map_congr_left fun c hc =>
    m.rune_ascii c (of_decide_eq_true (List.all_eq_true.mp h c hc))

theorem LowerCase.toLower_append (m : LowerCase) (a b : String) :
    m.toLower (a ++ b) = m.toLower a ++ m.toLower b := by
  simp [toLower, String.toList_append, String.ofList_append]

/-! ## Upper case -/

/-- A table of upper-case runes: that of ASCII, where it reads ASCII. -/
structure UpperCase where
  rune : Char → Char
  rune_ascii : ∀ c : Char, c.val < 128 → rune c = c.toUpper

/-- The table that changes ASCII only. -/
def UpperCase.ascii : UpperCase where
  rune := Char.toUpper
  rune_ascii _ _ := rfl

/-- `strings.ToUpper(s)`. -/
def UpperCase.toUpper (m : UpperCase) (s : String) : String :=
  String.ofList (s.toList.map m.rune)

theorem UpperCase.toUpper_eq_map (m : UpperCase) {s : String}
    (h : s.toList.all (fun c => decide (c.val < 128)) = true) :
    m.toUpper s = String.ofList (s.toList.map Char.toUpper) := by
  rw [toUpper]
  congr 1
  exact List.map_congr_left fun c hc =>
    m.rune_ascii c (of_decide_eq_true (List.all_eq_true.mp h c hc))

/-! ## The last piece of a split

The last piece is what comes after the last separator, or all of the text when there is none. -/

section LastPiece

variable {α : Type*} [BEq α] [LawfulBEq α]

/-- Cut a list at the last occurrence of a member. -/
theorem exists_eq_append_cons_of_mem {a : α} {l : List α} (h : a ∈ l) :
    ∃ pre post, a ∉ post ∧ l = pre ++ a :: post := by
  induction l with
  | nil => exact absurd h List.not_mem_nil
  | cons x l ih =>
    by_cases hl : a ∈ l
    · obtain ⟨pre, post, hpost, rfl⟩ := ih hl
      exact ⟨x :: pre, post, hpost, rfl⟩
    · obtain rfl : a = x := (List.mem_cons.mp h).resolve_right hl
      exact ⟨[], l, hl, rfl⟩

theorem getLast?_splitOn_append_cons {a : α} (pre : List α) {post : List α} (hpost : a ∉ post) :
    ((pre ++ a :: post).splitOn a).getLast? = some post := by
  rw [List.splitOn_append_cons_self, List.splitOn_eq_singleton hpost, List.getLast?_concat]

/-- The last piece is `w` exactly when the whole list is `w` or ends in `w`
after a separator. -/
theorem getLast?_splitOn_eq_iff {a : α} {l w : List α} (hw : a ∉ w) :
    (l.splitOn a).getLast? = some w ↔ l = w ∨ a :: w <:+ l := by
  by_cases hl : a ∈ l
  · obtain ⟨pre, post, hpost, rfl⟩ := exists_eq_append_cons_of_mem hl
    rw [getLast?_splitOn_append_cons pre hpost, Option.some_inj]
    constructor
    · rintro rfl
      exact Or.inr (List.suffix_append pre _)
    · rintro (rfl | hsuffix)
      · exact absurd hl hw
      · obtain ⟨pre', heq⟩ := hsuffix
        have hlast := getLast?_splitOn_append_cons pre' hw
        rw [heq, getLast?_splitOn_append_cons pre hpost] at hlast
        exact Option.some_inj.mp hlast
  · rw [List.splitOn_eq_singleton hl, List.getLast?_singleton, Option.some_inj]
    constructor
    · exact Or.inl
    · rintro (rfl | hsuffix)
      · rfl
      · exact absurd (hsuffix.subset List.mem_cons_self) hl

end LastPiece

/-- The last piece is all of the text or stands behind a separator. -/
theorem lastPiece_eq_iff {s w : String} {sep : Char} (hw : sep ∉ w.toList) :
    lastPiece s sep = w ↔ s = w ∨ hasSuffix s (String.singleton sep ++ w) = true := by
  have hlast : lastPiece s sep = w ↔ (s.toList.splitOn sep).getLast? = some w.toList := by
    have hlast := List.getLast?_eq_some_getLast (List.splitOn_ne_nil sep s.toList)
    generalize (s.toList.splitOn sep).getLast _ = last at hlast
    rw [lastPiece, split, List.getLast?_map, hlast, Option.map_some, Option.getD_some,
      Option.some_inj]
    constructor
    · rintro rfl
      exact String.toList_ofList.symm
    · rintro rfl
      exact String.ofList_toList
  rw [hlast, getLast?_splitOn_eq_iff hw, hasSuffix_iff, String.toList_inj]
  simp

end WptFyi.Lib.GoStrings
