import WptFyi.Lib.Json

/-!
# Whole numbers in JavaScript

A whole number of JavaScript is a double: 53 bits and an exponent. `toDouble`
rounds to one, `numberText` is `Number::toString`, which shows the shortest digits
that read back as the number, and `JsNumber.toJson` is `JSON.stringify`.

So a number may be changed twice on its way to a server that reads it as an integer of 64 bits:
when it is rounded to a double, and when the double is shown with fewer digits than it has, or with
an exponent. The numbers that come through are those that are shown in full; all below `2 ^ 53` are
among them, and many above are not. Infinity is shown as `null`.

- `decodeInt_toJson_iff`: the numbers that are shown in full, as 64-bit integers;
- `toDouble_of_lt`, `exact_of_lt`: below `2 ^ 53` nothing is rounded.
-/

namespace WptFyi.Lib

/-- The double nearest to a whole number, ties to even; none for infinity. -/
def toDouble (n : Nat) : Option Nat :=
  let shift := n.log2 - 52
  let half := 2 ^ shift / 2
  let q := n / 2 ^ shift
  let r := n % 2 ^ shift
  let rounded := if half < r ∨ (r = half ∧ 0 < half ∧ q % 2 = 1) then q + 1 else q
  if rounded * 2 ^ shift < 2 ^ 1024 then some (rounded * 2 ^ shift) else none

/-- The whole number with the fewest significant digits that reads back as `v`. -/
def shortest (v : Nat) : Nat :=
  let candidate (e : Nat) : Nat := (v + 10 ^ e / 2) / 10 ^ e * 10 ^ e
  (((List.range (Nat.toDigits 10 v).length).reverse.map candidate).find?
    fun c => toDouble c == some v).getD v

/-- `Number::toString` of a whole number. -/
def numberText (v : Nat) : String :=
  let digits := Nat.toDigits 10 (shortest v)
  if v < 10 ^ 21 then String.ofList digits
  else
    let significant := (digits.reverse.dropWhile (· = '0')).reverse
    let mantissa := match significant with
      | d :: e :: ds => d :: '.' :: e :: ds
      | ds => ds
    String.ofList (mantissa ++ 'e' :: '+' :: Nat.toDigits 10 (digits.length - 1))

/-- A number that is whole, or infinite, or not a number. -/
inductive JsNumber where
  | int (n : Int)
  | infinity
  | nan
deriving DecidableEq

namespace JsNumber

/-- A double, or infinity. -/
def ofDouble : Option Nat → JsNumber
  | some v => .int v
  | none => .infinity

/-- `parseInt` of decimal digits. -/
def parseInt (digits : List Char) : JsNumber :=
  ofDouble (toDouble (Nat.ofDigitChars 10 digits 0))

/-- `parseInt` of a number that `parseInt` returned: of its text. A text with an
exponent is read up to the point. -/
def parseIntAgain : JsNumber → JsNumber
  | .int n =>
    .ofDouble (toDouble
      (Nat.ofDigitChars 10 ((numberText n.toNat).toList.takeWhile Char.isDigit) 0))
  | _ => .nan

/-- Adding one. -/
def succ : JsNumber → JsNumber
  | .int n => .ofDouble (toDouble (n.toNat + 1))
  | x => x

/-- Subtracting one. -/
def pred : JsNumber → JsNumber
  | .int n => if n ≤ 0 then .int (n - 1) else .ofDouble (toDouble (n.toNat - 1))
  | x => x

/-- `JSON.stringify`. -/
def toJson : JsNumber → Json
  | .int n => .number (if n < 0 then "-" ++ numberText n.natAbs else numberText n.natAbs)
  | _ => .null

end JsNumber

/-! ## Numbers that are shown in full

A number that is shown without an exponent or a point is read by Go as the integer that it is. -/

/-- A literal without a sign: digits, and not too many. -/
theorem int64Literal_pos {cs : List Char} (h : cs.head? ≠ some '-') :
    Json.int64Literal (String.ofList cs) =
      if cs = [] ∨ !cs.all Char.isDigit then none
      else if Nat.ofDigitChars 10 cs 0 < 2 ^ 63 then some (Nat.ofDigitChars 10 cs 0 : Int)
      else none := by
  rw [Json.int64Literal, String.toList_ofList]
  split
  next negative digits hsign =>
  have hsame : negative = false ∧ digits = cs := by
    split at hsign
    · exact absurd rfl h
    · cases hsign
      exact ⟨rfl, rfl⟩
  obtain ⟨rfl, rfl⟩ := hsame
  refine if_congr Iff.rfl rfl (if_congr ?_ rfl rfl)
  show (-2 ^ 63 ≤ (Nat.ofDigitChars 10 digits 0 : Int) ∧
    (Nat.ofDigitChars 10 digits 0 : Int) < 2 ^ 63) ↔ _
  omega

/-- With a sign there is one number more. -/
theorem int64Literal_neg (cs : List Char) :
    Json.int64Literal ("-" ++ String.ofList cs) =
      if cs = [] ∨ !cs.all Char.isDigit then none
      else if Nat.ofDigitChars 10 cs 0 ≤ 2 ^ 63 then some (-(Nat.ofDigitChars 10 cs 0 : Int))
      else none := by
  have hlist : ("-" ++ String.ofList cs).toList = '-' :: cs := by
    simp [String.toList_append]
  rw [Json.int64Literal, hlist]
  refine if_congr Iff.rfl rfl (if_congr ?_ rfl rfl)
  show (-2 ^ 63 ≤ -(Nat.ofDigitChars 10 cs 0 : Int) ∧
    -(Nat.ofDigitChars 10 cs 0 : Int) < 2 ^ 63) ↔ _
  omega

theorem all_isDigit_toDigits (n : Nat) : (Nat.toDigits 10 n).all Char.isDigit = true :=
  List.all_eq_true.mpr fun _ hc => Nat.isDigit_of_mem_toDigits (by decide) (by decide) hc

theorem dash_notMem_toDigits (n : Nat) : '-' ∉ Nat.toDigits 10 n := fun h =>
  absurd (List.all_eq_true.mp (all_isDigit_toDigits n) _ h) (by decide)

/-- The text of a number, as a literal of 64 bits: it has to be all digits. -/
theorem numberText_literal (v : Nat) : ∃ cs, numberText v = String.ofList cs ∧
    cs.head? ≠ some '-' ∧ (cs = [] ∨ !cs.all Char.isDigit ↔ ¬ v < 10 ^ 21) ∧
    (v < 10 ^ 21 → Nat.ofDigitChars 10 cs 0 = shortest v) := by
  unfold numberText
  simp only
  split_ifs with hv
  · refine ⟨_, rfl, ?_, ?_, fun _ => Nat.ofDigitChars_ten_toDigits⟩
    · exact fun h => dash_notMem_toDigits _ (List.mem_of_head? h)
    · exact iff_of_false (by simp [all_isDigit_toDigits, Nat.toDigits_ne_nil]) (not_not.mpr hv)
  · refine ⟨_, rfl, ?_, ?_, fun h => absurd h hv⟩
    · -- digits, a point and an exponent, none of which begins with a sign
      have hdash : '-' ∉ (((Nat.toDigits 10 (shortest v)).reverse.dropWhile (· = '0')).reverse) :=
        fun h => dash_notMem_toDigits _
          (List.mem_reverse.mp ((List.dropWhile_sublist _).subset (List.mem_reverse.mp h)))
      intro h
      split at h
      · next d e ds heq =>
        rw [heq] at hdash
        obtain rfl := Option.some_inj.mp h
        exact hdash List.mem_cons_self
      · rcases List.mem_append.mp (List.mem_of_head? h) with hmem | hmem
        · exact hdash hmem
        · rcases List.mem_cons.mp hmem with heq | hmem
          · exact absurd heq (by decide)
          · rcases List.mem_cons.mp hmem with heq | hmem
            · exact absurd heq (by decide)
            · exact dash_notMem_toDigits _ hmem
    · refine iff_of_true (Or.inr ?_) hv
      simp [show 'e'.isDigit = false by decide]

/-- An integer of 64 bits that is shown in full. -/
def JsNumber.Exact : JsNumber → Prop
  | .int k => shortest k.natAbs = k.natAbs ∧ -2 ^ 63 ≤ k ∧ k < 2 ^ 63
  | _ => False

/-- **The numbers that JSON carries** into an `int64` are exact. -/
theorem decodeInt_toJson_iff {k : Int} :
    Json.decodeInt 0 (JsNumber.int k).toJson = some k ↔ (JsNumber.int k).Exact := by
  obtain ⟨cs, htext, hhead, hdigits, hvalue⟩ := numberText_literal k.natAbs
  unfold JsNumber.Exact
  have hsmall : -2 ^ 63 ≤ k ∧ k < 2 ^ 63 → k.natAbs < 10 ^ 21 := fun _ => by omega
  show Json.int64Literal (if k < 0 then "-" ++ numberText k.natAbs else numberText k.natAbs) =
    _ ↔ _
  rw [htext]
  by_cases hbad : cs = [] ∨ !cs.all Char.isDigit
  · -- a text with an exponent is no integer
    have hbig := hdigits.mp hbad
    rw [apply_ite Json.int64Literal, int64Literal_neg, int64Literal_pos hhead, if_pos hbad,
      if_pos hbad, ite_self]
    exact iff_of_false (by simp) fun h => hbig (hsmall h.2)
  · rw [apply_ite Json.int64Literal, int64Literal_neg, int64Literal_pos hhead, if_neg hbad,
      if_neg hbad,
      hvalue (not_not.mp (mt hdigits.mpr hbad))]
    split_ifs with hneg hrange hrange
    · rw [Option.some_inj]
      omega
    · exact iff_of_false (by simp) fun h => by omega
    · rw [Option.some_inj]
      omega
    · exact iff_of_false (by simp) fun h => by omega

/-! ## Numbers that are not rounded

Below 2⁵³ each integer is a number of its own, and the shortest digits that give it are its own
digits. -/

/-- A double of a number keeps its size. -/
theorem le_of_toDouble {n v : Nat} (h : toDouble n = some v) (hn : 2 ^ 53 ≤ n) : 2 ^ 53 ≤ v := by
  have hn0 : n ≠ 0 := by omega
  have hlog : 53 ≤ n.log2 := (Nat.le_log2 hn0).mpr hn
  have hsplit : 2 ^ n.log2 = 2 ^ 52 * 2 ^ (n.log2 - 52) := by
    rw [← Nat.pow_add, Nat.add_sub_cancel' (by omega)]
  have hq : 2 ^ 52 ≤ n / 2 ^ (n.log2 - 52) := by
    rw [Nat.le_div_iff_mul_le (by positivity), ← hsplit]
    exact Nat.log2_self_le hn0
  have hpow : 2 ^ 53 ≤ 2 ^ n.log2 := Nat.pow_le_pow_right (by decide) hlog
  unfold toDouble at h
  generalize 2 ^ 1024 = bound at h
  obtain ⟨-, hv⟩ := Option.ite_none_right_eq_some.mp h
  rw [← Option.some_inj.mp hv]
  refine hpow.trans ?_
  rw [hsplit]
  refine Nat.mul_le_mul_right _ ?_
  split
  · exact hq.trans (Nat.le_succ _)
  · exact hq

/-- Below `2 ^ 53` every whole number is a double. -/
theorem toDouble_of_lt {n : Nat} (h : n < 2 ^ 53) : toDouble n = some n := by
  have hlog : n.log2 < 53 := by
    rcases Nat.eq_zero_or_pos n with rfl | hpos
    · decide
    · exact (Nat.log2_lt hpos.ne').mpr h
  have hshift : n.log2 - 52 = 0 := by omega
  have hmax : ∀ e, 53 ≤ e → n < 2 ^ e := fun e he =>
    h.trans_le (Nat.pow_le_pow_right Nat.two_pos he)
  have hround : ¬ (2 ^ 0 / 2 < n % 2 ^ 0 ∨
      (n % 2 ^ 0 = 2 ^ 0 / 2 ∧ 0 < 2 ^ 0 / 2 ∧ n / 2 ^ 0 % 2 = 1)) := by omega
  unfold toDouble
  simp only [hshift]
  rw [if_neg hround, pow_zero, Nat.div_one, Nat.mul_one, if_pos (hmax 1024 (by decide))]

/-- Below `2 ^ 53` every whole number is shown in full. -/
theorem shortest_of_lt {v : Nat} (h : v < 2 ^ 53) : shortest v = v := by
  unfold shortest
  simp only
  cases hfind : (((List.range (Nat.toDigits 10 v).length).reverse.map fun e =>
      (v + 10 ^ e / 2) / 10 ^ e * 10 ^ e).find? fun c => toDouble c == some v) with
  | none => rfl
  | some c =>
    have hc : toDouble c = some v := by simpa using List.find?_some hfind
    rcases Nat.lt_or_ge c (2 ^ 53) with hlt | hge
    · rw [toDouble_of_lt hlt] at hc
      exact Option.some_inj.mp hc
    · have := le_of_toDouble hc hge
      omega

namespace JsNumber

theorem exact_of_lt {k : Int} (h : k.natAbs < 2 ^ 53) : (int k).Exact :=
  ⟨shortest_of_lt h, by omega, by omega⟩

end JsNumber

end WptFyi.Lib
