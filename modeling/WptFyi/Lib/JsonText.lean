import WptFyi.Lib.Json

/-!
# JSON as Go's `encoding/json` writes it

A value that is written is read again, on three levels: runes from bytes, characters from a string
literal, and a value from its text. On each level the reader stops by itself where the written part
ends, which is what makes the induction over values go through: `Ends` says what may follow a value,
and `ReadsAgain` asks for the value back whatever such text comes after it.

Two conditions remain, those of `Readable`. The reader counts how deep values are nested and gives
up at a limit, and a number is kept as its literal, so only literals that the writer makes are
known to be read. Here these are integers, as no other numbers are written.

- `utf8`, `runesFrom_utf8`: the bytes of a text, and the text again;
- `escapeRune`, `parseString_quote`: string literals, with HTML escaped;
- `Json.text`, `readsAgain`: what was written is read again;
- `ofBytes_toBytes`: so it is for bytes.
-/

namespace WptFyi.Lib.Json

/-! ## Bytes

The bytes of a text are read as the characters of the text. -/

/-- The bytes of a text. -/
def utf8 (cs : List Char) : List UInt8 := cs.flatMap String.utf8EncodeChar

section Runes

variable {v : Nat} (rest : List Nat)

/-- A valid encoding of more than one byte. -/
theorem decodeRune_of_valid {lead : Nat} {tail : List Nat} (hne : tail ≠ [])
    (hwidth : runeWidth lead = tail.length + 1)
    (hsecond : secondInRange lead (tail.headD 0) = true)
    (htail : ∀ b ∈ tail, 0x80 ≤ b ∧ b ≤ 0xBF) :
    decodeRune lead (tail ++ rest) =
      (Char.ofNat (tail.foldl (fun n b => 64 * n + b % 64) (lead % 2 ^ (6 - tail.length))),
        tail.length + 1) := by
  have hpos : 0 < tail.length := List.length_pos_of_ne_nil hne
  have hall : tail.all (fun b => decide (0x80 ≤ b ∧ b ≤ 0xBF)) = true := by
    rw [List.all_eq_true]
    exact fun b hb => decide_eq_true (htail b hb)
  unfold decodeRune
  simp only [hwidth, Nat.add_sub_cancel, List.take_left, hsecond, hall]
  rw [if_neg (by omega), if_neg (by simp), show 7 - (tail.length + 1) = 6 - tail.length by omega]

theorem decodeRune_one (h : v < 0x80) : decodeRune v rest = (Char.ofNat v, 1) := by
  rw [decodeRune, show runeWidth v = 1 from if_pos h]
  rfl

theorem decodeRune_two (hlow : 0x80 ≤ v) (hhigh : v < 0x800) :
    decodeRune (v / 64 % 32 + 0xC0) ([v % 64 + 0x80] ++ rest) = (Char.ofNat v, 2) := by
  have hwidth : runeWidth (v / 64 % 32 + 0xC0) = 2 := by
    rw [runeWidth, if_neg (by omega), if_neg (by omega), if_pos (by omega)]
  have hsecond : secondInRange (v / 64 % 32 + 0xC0) (v % 64 + 0x80) = true := by
    rw [secondInRange, if_neg (by omega), if_neg (by omega), if_neg (by omega),
      if_neg (by omega)]
    exact decide_eq_true (by omega)
  have hvalue : 64 * ((v / 64 % 32 + 0xC0) % 32) + (v % 64 + 0x80) % 64 = v := by omega
  rw [decodeRune_of_valid rest (by simp) hwidth hsecond (by simp; omega)]
  exact congrArg (fun v => (Char.ofNat v, 2)) hvalue

/-- A rune of three bytes, none of which could begin another one. -/
theorem decodeRune_three (hlow : 0x800 ≤ v) (hhigh : v < 0x10000)
    (hsurrogate : v < 0xD800 ∨ 0xDFFF < v) :
    decodeRune (v / 4096 % 16 + 0xE0) ([v / 64 % 64 + 0x80, v % 64 + 0x80] ++ rest) =
      (Char.ofNat v, 3) := by
  have hwidth : runeWidth (v / 4096 % 16 + 0xE0) = 3 := by
    rw [runeWidth, if_neg (by omega), if_neg (by omega), if_neg (by omega), if_pos (by omega)]
  have hsecond : secondInRange (v / 4096 % 16 + 0xE0) (v / 64 % 64 + 0x80) = true := by
    unfold secondInRange
    refine decide_eq_true ?_
    split_ifs <;> omega
  have hvalue : 64 * (64 * ((v / 4096 % 16 + 0xE0) % 16) + (v / 64 % 64 + 0x80) % 64) +
      (v % 64 + 0x80) % 64 = v := by omega
  rw [decodeRune_of_valid rest (by simp) hwidth hsecond (by simp; omega)]
  exact congrArg (fun v => (Char.ofNat v, 3)) hvalue

/-- A rune of four bytes. -/
theorem decodeRune_four (hlow : 0x10000 ≤ v) (hhigh : v < 0x110000) :
    decodeRune (v / 262144 % 8 + 0xF0)
      ([v / 4096 % 64 + 0x80, v / 64 % 64 + 0x80, v % 64 + 0x80] ++ rest) =
      (Char.ofNat v, 4) := by
  have hwidth : runeWidth (v / 262144 % 8 + 0xF0) = 4 := by
    rw [runeWidth, if_neg (by omega), if_neg (by omega), if_neg (by omega), if_neg (by omega),
      if_pos (by omega)]
  have hsecond : secondInRange (v / 262144 % 8 + 0xF0) (v / 4096 % 64 + 0x80) = true := by
    unfold secondInRange
    refine decide_eq_true ?_
    split_ifs <;> omega
  have hvalue : 64 * (64 * (64 * ((v / 262144 % 8 + 0xF0) % 8) + (v / 4096 % 64 + 0x80) % 64) +
      (v / 64 % 64 + 0x80) % 64) + (v % 64 + 0x80) % 64 = v := by omega
  rw [decodeRune_of_valid rest (by simp) hwidth hsecond (by simp; omega)]
  exact congrArg (fun v => (Char.ofNat v, 4)) hvalue

end Runes

theorem runesFrom_append (bs rest : List Nat) :
    runesFrom bs.length (bs ++ rest) = runesFrom 0 rest := by
  induction bs with
  | nil => rfl
  | cons b bs ih => exact ih

/-- The first rune of what begins with one. -/
theorem runesFrom_of_decodeRune {lead : Nat} {tail rest : List Nat} {c : Char}
    (h : decodeRune lead (tail ++ rest) = (c, tail.length + 1)) :
    runesFrom 0 (lead :: tail ++ rest) = c :: runesFrom 0 rest := by
  have hstep : runesFrom 0 (lead :: tail ++ rest) = (decodeRune lead (tail ++ rest)).1 ::
      runesFrom ((decodeRune lead (tail ++ rest)).2 - 1) (tail ++ rest) := rfl
  rw [hstep, h]
  show c :: runesFrom tail.length (tail ++ rest) = _
  rw [runesFrom_append]

/-- One character, whatever comes behind it. -/
theorem runesFrom_encodeChar (c : Char) (rest : List Nat) :
    runesFrom 0 ((String.utf8EncodeChar c).map UInt8.toNat ++ rest) = c :: runesFrom 0 rest := by
  have hvalid : c.val.toNat < 0xD800 ∨ 0xDFFF < c.val.toNat ∧ c.val.toNat < 0x110000 := c.valid
  have hchar : Char.ofNat c.val.toNat = c := Char.ofNat_toNat c
  have hmod : ∀ n < 256, (UInt8.ofNat n).toNat = n := fun n hn => by
    rw [UInt8.toNat_ofNat', Nat.mod_eq_of_lt hn]
  generalize hv : c.val.toNat = v at hvalid hchar
  unfold String.utf8EncodeChar
  rw [hv, ← hchar]
  simp only
  split_ifs with hone htwo hthree
  · rw [List.map_singleton, hmod v (by omega)]
    exact runesFrom_of_decodeRune (decodeRune_one _ (by omega))
  · rw [List.map_cons, List.map_singleton, hmod _ (by omega), hmod _ (by omega)]
    exact runesFrom_of_decodeRune (decodeRune_two _ (by omega) (by omega))
  · rw [List.map_cons, List.map_cons, List.map_singleton, hmod _ (by omega), hmod _ (by omega),
      hmod _ (by omega)]
    exact runesFrom_of_decodeRune (decodeRune_three _ (by omega) (by omega) (by omega))
  · rw [List.map_cons, List.map_cons, List.map_cons, List.map_singleton, hmod _ (by omega),
      hmod _ (by omega), hmod _ (by omega), hmod _ (by omega)]
    exact runesFrom_of_decodeRune (decodeRune_four _ (by omega) (by omega))

/-- **The runes** of the bytes of a text are its characters. -/
theorem runesFrom_utf8 (cs : List Char) : runesFrom 0 ((utf8 cs).map UInt8.toNat) = cs := by
  induction cs with
  | nil => rfl
  | cons c cs ih =>
    show runesFrom 0 ((String.utf8EncodeChar c ++ utf8 cs).map UInt8.toNat) = _
    rw [List.map_append, runesFrom_encodeChar, ih]

/-! ## Strings

A quoted text is scanned back to itself, one rune at a time. No rune above U+FFFF is written as an
escape, so there are no pairs of surrogates to be joined. -/

/-- A digit of a `\u` escape. -/
def hexChar (n : Nat) : Char := "0123456789abcdef".toList.getD n '0'

def unicodeEscape (n : Nat) : List Char :=
  ['\\', 'u', hexChar (n / 4096), hexChar (n / 256 % 16), hexChar (n / 16 % 16), hexChar (n % 16)]

/-- The runes that are written by their number: control characters, those that HTML
knows, and the two line separators. -/
def byNumber (c : Char) : Bool :=
  c.toNat < 0x20 || c ∈ ['<', '>', '&', Char.ofNat 0x2028, Char.ofNat 0x2029]

/-- A rune as `appendString` writes it. -/
def escapeRune (c : Char) : List Char :=
  if c = '\\' ∨ c = '"' then ['\\', c]
  else if c = Char.ofNat 8 then ['\\', 'b']
  else if c = Char.ofNat 12 then ['\\', 'f']
  else if c = '\n' then ['\\', 'n']
  else if c = '\r' then ['\\', 'r']
  else if c = '\t' then ['\\', 't']
  else if byNumber c then unicodeEscape c.toNat
  else [c]

/-- A string literal. -/
def quote (s : String) : List Char := '"' :: s.toList.flatMap escapeRune ++ ['"']

/-- What the scanner has for a rune that was written. -/
def unitOf (c : Char) : Char ⊕ Nat :=
  if c ∉ [Char.ofNat 8, Char.ofNat 12, '\n', '\r', '\t'] ∧ byNumber c then .inr c.toNat else .inl c

theorem hexDigit_hexChar {n : Nat} (h : n < 16) : hexDigit (hexChar n) = some n := by
  have hall : ∀ n < 16, hexDigit (hexChar n) = some n := by decide
  exact hall n h

theorem toNat_of_byNumber {c : Char} (h : byNumber c = true) : c.toNat < 0x2030 := by
  rw [byNumber, Bool.or_eq_true, decide_eq_true_iff, decide_eq_true_iff] at h
  rcases h with hlt | hmem
  · omega
  · simp only [List.mem_cons, List.not_mem_nil, or_false] at hmem
    rcases hmem with rfl | rfl | rfl | rfl | rfl
    all_goals
      rw [Char.toNat_ofNat]
      split_ifs <;> omega

/-- An escape of one letter. -/
theorem scanString_escape {e c : Char} (he : e ≠ 'u') (hc : simpleEscape e = some c)
    (cs : List Char) : scanString ('\\' :: e :: cs) =
      (scanString cs).map fun rest => (.inl c :: rest.1, rest.2) := by
  rw [scanString.eq_def]
  split
  · next heq => cases heq
  · next heq => exact absurd (List.cons.inj (List.cons.inj heq).2).1 he
  · next heq =>
    cases heq
    rw [hc]
    cases scanString cs <;> rfl
  · next hno heq => cases heq; exact (hno e cs rfl rfl).elim
  · next heq => cases heq

theorem scanString_unicodeEscape {n : Nat} (h : n < 0x10000) (cs : List Char) :
    scanString (unicodeEscape n ++ cs) =
      (scanString cs).map fun rest => (.inr n :: rest.1, rest.2) := by
  show scanString ('\\' :: 'u' :: hexChar (n / 4096) :: hexChar (n / 256 % 16) ::
    hexChar (n / 16 % 16) :: hexChar (n % 16) :: cs) = _
  have hvalue : n / 4096 * 4096 + n / 256 % 16 * 256 + n / 16 % 16 * 16 + n % 16 = n := by omega
  rw [scanString, hexDigit_hexChar (by omega), hexDigit_hexChar (by omega),
    hexDigit_hexChar (by omega), hexDigit_hexChar (by omega)]
  simp only [Option.bind_eq_bind, Option.bind_some, hvalue]
  cases scanString cs <;> rfl

/-- A character that stands for itself. -/
theorem scanString_plain {c : Char} (hquote : c ≠ '"') (hslash : c ≠ '\\') (hlow : 0x20 ≤ c.toNat)
    (cs : List Char) :
    scanString (c :: cs) = (scanString cs).map fun rest => (.inl c :: rest.1, rest.2) := by
  rw [scanString.eq_def]
  split
  · next heq => exact absurd (List.cons.inj heq).1 hquote
  · next heq => exact absurd (List.cons.inj heq).1 hslash
  · next heq => exact absurd (List.cons.inj heq).1 hslash
  · next heq =>
    cases heq
    rw [if_neg (by simp [hslash]; omega)]
    cases scanString cs <;> rfl
  · next heq => cases heq

/-- One rune as it was written, in either form. -/
theorem scanString_escapeRune (c : Char) (cs : List Char) :
    scanString (escapeRune c ++ cs) =
      (scanString cs).map fun rest => (unitOf c :: rest.1, rest.2) := by
  by_cases hslash : c = '\\' ∨ c = '"'
  · have hunit : unitOf c = .inl c := by rcases hslash with rfl | rfl <;> decide +kernel
    rw [escapeRune, if_pos hslash, hunit]
    rcases hslash with rfl | rfl <;> exact scanString_escape (by decide) rfl cs
  by_cases hshort : c ∈ [Char.ofNat 8, Char.ofNat 12, '\n', '\r', '\t']
  · have hunit : unitOf c = .inl c := if_neg fun h => h.1 hshort
    rw [hunit]
    simp only [List.mem_cons, List.not_mem_nil, or_false] at hshort
    rcases hshort with rfl | rfl | rfl | rfl | rfl <;>
      exact scanString_escape (by decide) rfl cs
  -- no short escape is left, so the rune stands for itself or has its number
  have hescape : escapeRune c = if byNumber c then unicodeEscape c.toNat else [c] := by
    simp only [List.mem_cons, List.not_mem_nil, or_false, not_or] at hshort
    obtain ⟨hb, hf, hn, hr, ht⟩ := hshort
    rw [escapeRune, if_neg hslash, if_neg hb, if_neg hf, if_neg hn, if_neg hr, if_neg ht]
  rw [hescape]
  by_cases hnumber : byNumber c = true
  · have hunit : unitOf c = .inr c.toNat := if_pos ⟨hshort, hnumber⟩
    have hlt := toNat_of_byNumber hnumber
    rw [if_pos hnumber, hunit, scanString_unicodeEscape (by omega)]
  · have hunit : unitOf c = .inl c := if_neg fun h => hnumber h.2
    have hlow : 0x20 ≤ c.toNat := by
      by_contra hlt
      refine hnumber ?_
      rw [byNumber, decide_eq_true (show c.toNat < 0x20 by omega)]
      rfl
    rw [if_neg hnumber, hunit]
    exact scanString_plain (fun h => hslash (Or.inr h)) (fun h => hslash (Or.inl h)) hlow cs

theorem scanString_flatMap (s cs : List Char) :
    scanString (s.flatMap escapeRune ++ '"' :: cs) = some (s.map unitOf, cs) := by
  induction s with
  | nil => rfl
  | cons c s ih =>
    rw [List.flatMap_cons, List.append_assoc, scanString_escapeRune, ih]
    rfl

/-- No rune that is written by its number is half of a pair. -/
theorem joinUnits_map_unitOf (s : List Char) : joinUnits (s.map unitOf) = s := by
  -- what is written by its number is no surrogate, so units are never joined
  have hunit : ∀ c, unitOf c = .inl c ∨ unitOf c = .inr c.toNat ∧ c.toNat < 0xD800 := by
    intro c
    unfold unitOf
    split_ifs with h
    · have hlt := toNat_of_byNumber h.2
      exact Or.inr ⟨rfl, by omega⟩
    · exact Or.inl rfl
  induction s with
  | nil => rfl
  | cons c s ih =>
    rw [List.map_cons]
    rcases hunit c with hinl | ⟨hinr, hlt⟩
    · rw [hinl, joinUnits, ih]
    · have hjoin : ∀ units, joinUnits (.inr c.toNat :: units) = c :: joinUnits units := by
        intro units
        rw [joinUnits.eq_def]
        split
        · next heq =>
          obtain ⟨hhigh, rfl⟩ := List.cons.inj heq
          cases hhigh
          rw [if_neg (by omega), if_neg (by omega), Char.ofNat_toNat]
        · next heq =>
          obtain ⟨hhigh, rfl⟩ := List.cons.inj heq
          cases hhigh
          rw [if_neg (by omega), Char.ofNat_toNat]
        · next heq => cases heq
        · next heq => cases heq
      rw [hinr, hjoin, ih]

/-- **A string literal** that was written is read again. -/
theorem parseString_quote (s : String) (cs : List Char) :
    parseString (s.toList.flatMap escapeRune ++ '"' :: cs) = some (s, cs) := by
  rw [parseString, scanString_flatMap]
  show some (String.ofList (joinUnits (s.toList.map unitOf)), cs) = _
  rw [joinUnits_map_unitOf, String.ofList_toList]

/-! ## Values -/

mutual

/-- A value as it is written; a number as its literal. -/
def text : Json → List Char
  | .null => ['n', 'u', 'l', 'l']
  | .bool true => ['t', 'r', 'u', 'e']
  | .bool false => ['f', 'a', 'l', 's', 'e']
  | .number literal => literal.toList
  | .string s => quote s
  | .array elems => '[' :: textElems elems ++ [']']
  | .object ms => '{' :: textMembers ms ++ ['}']

/-- The elements of an array. -/
def textElems : List Json → List Char
  | [] => []
  | [elem] => text elem
  | elem :: elems => text elem ++ ',' :: textElems elems

/-- The members of an object. -/
def textMembers : List (String × Json) → List Char
  | [] => []
  | [(key, value)] => quote key ++ ':' :: text value
  | (key, value) :: ms => quote key ++ ':' :: (text value ++ ',' :: textMembers ms)

end

theorem textElems_cons_cons (elem elem' : Json) (elems : List Json) :
    textElems (elem :: elem' :: elems) = text elem ++ ',' :: textElems (elem' :: elems) :=
  textElems.eq_3 _ _ (fun h => List.cons_ne_nil _ _ h)

theorem textMembers_cons_cons (key : String) (value : Json) (m : String × Json)
    (ms : List (String × Json)) : textMembers ((key, value) :: m :: ms) =
      quote key ++ ':' :: (text value ++ ',' :: textMembers (m :: ms)) :=
  textMembers.eq_3 _ _ _ (fun h => List.cons_ne_nil _ _ h)

/-- The literal of an integer. -/
def intLiteral (n : Int) : String := toString n

/-- The values that are written and read again: integers, and no more than `depth`
arrays and objects around each other. -/
inductive Readable : Nat → Json → Prop where
  | null (depth : Nat) : Readable depth .null
  | bool (depth : Nat) (b : Bool) : Readable depth (.bool b)
  | number (depth : Nat) (n : Int) : Readable depth (.number (intLiteral n))
  | string (depth : Nat) (s : String) : Readable depth (.string s)
  | array {depth : Nat} {elems : List Json} (h : ∀ elem ∈ elems, Readable depth elem) :
      Readable (depth + 1) (.array elems)
  | object {depth : Nat} {ms : List (String × Json)} (h : ∀ m ∈ ms, Readable depth m.2) :
      Readable (depth + 1) (.object ms)

/-! ### Integers

The digits of an integer are scanned up to the first character that is none, so what follows must
not go on with the number. -/

/-- What comes after a value. -/
def Ends (cs : List Char) : Prop := cs.head? ∈ [none, some ',', some ']', some '}']

theorem toList_intLiteral (n : Int) : (intLiteral n).toList =
    (if n < 0 then ['-'] else []) ++ Nat.toDigits 10 n.natAbs := by
  cases n with
  | ofNat n =>
    rw [if_neg (by simp)]
    exact Nat.toList_repr
  | negSucc n =>
    rw [if_pos (by omega)]
    show ("-" ++ (n + 1).repr).toList = _
    rw [String.toList_append, Nat.toList_repr]
    rfl

theorem isDigit_of_mem_toDigits {n : Nat} {c : Char} (h : c ∈ Nat.toDigits 10 n) :
    c.isDigit = true :=
  Nat.isDigit_of_mem_toDigits (by omega) (by omega) h

/-- The first digit is zero for zero only. -/
theorem head_toDigits {n : Nat} (h : 0 < n) : (Nat.toDigits 10 n).head? ≠ some '0' := by
  induction n using Nat.strong_induction_on with
  | _ n ih =>
    rcases Nat.lt_or_ge n 10 with hlt | hge
    · have hall : ∀ n < 10, 0 < n → [n.digitChar].head? ≠ some '0' := by decide
      rw [Nat.toDigits_of_lt_base hlt]
      exact hall n hlt h
    · rw [Nat.toDigits_of_base_le (by omega) hge]
      have hrest := ih (n / 10) (by omega) (by omega)
      cases hdigits : Nat.toDigits 10 (n / 10) with
      | nil => exact absurd hdigits Nat.toDigits_ne_nil
      | cons d ds =>
        rw [hdigits] at hrest
        exact hrest

/-- The digits of a literal end where no digit follows. -/
theorem scanDigits_append {digits rest : List Char} (hne : digits ≠ [])
    (hdigits : ∀ c ∈ digits, c.isDigit = true) (hrest : ∀ c ∈ rest.head?, c.isDigit = false) :
    scanDigits (digits ++ rest) = some (digits, rest) := by
  have htake : (digits ++ rest).takeWhile Char.isDigit = digits := by
    rw [List.takeWhile_append_of_pos hdigits]
    cases rest with
    | nil => exact List.append_nil _
    | cons c cs => rw [List.takeWhile_cons_of_neg (by simp [hrest c rfl]), List.append_nil]
  have hdrop : (digits ++ rest).dropWhile Char.isDigit = rest := by
    rw [List.dropWhile_append_of_pos hdigits]
    cases rest with
    | nil => rfl
    | cons c cs => exact List.dropWhile_cons_of_neg (by simp [hrest c rfl])
  rw [scanDigits, List.span_eq_takeWhile_dropWhile, htake, hdrop]
  exact if_neg hne

theorem Ends.head {c : Char} {cs : List Char} (h : Ends (c :: cs)) :
    c = ',' ∨ c = ']' ∨ c = '}' := by
  simpa [Ends] using h

theorem Ends.notDigit {rest : List Char} (h : Ends rest) : ∀ c ∈ rest.head?, c.isDigit = false := by
  cases rest with
  | nil => exact fun c hc => absurd hc (by simp)
  | cons c cs =>
    intro c' hc
    obtain rfl : c = c' := Option.some.inj hc
    rcases h.head with rfl | rfl | rfl <;> rfl

/-- The digits of a number with neither fraction nor exponent. -/
theorem scanNumber_toDigits (n : Nat) {sign : List Char} (hsign : sign = [] ∨ sign = ['-'])
    {rest : List Char} (hrest : Ends rest) :
    scanNumber (sign ++ Nat.toDigits 10 n ++ rest) = some (sign ++ Nat.toDigits 10 n, rest) := by
  obtain ⟨d, ds, hdigits⟩ := List.exists_cons_of_ne_nil (@Nat.toDigits_ne_nil n 10)
  have hall : ∀ c ∈ d :: ds, c.isDigit = true := by
    rw [← hdigits]
    exact fun c hc => isDigit_of_mem_toDigits hc
  have hminus : d ≠ '-' := by
    rintro rfl
    exact absurd (hall '-' List.mem_cons_self) (by decide)
  have hscan : scanDigits (d :: (ds ++ rest)) = some (d :: ds, rest) :=
    scanDigits_append (List.cons_ne_nil d ds) hall hrest.notDigit
  rw [hdigits]
  rcases Nat.eq_zero_or_pos n with rfl | hpos
  · -- a zero ends the integer part
    rw [Nat.toDigits_zero] at hdigits
    cases hdigits
    rcases hsign with rfl | rfl <;> cases rest with
    | nil => rfl
    | cons c cs => rcases hrest.head with rfl | rfl | rfl <;> rfl
  · have hzero : d ≠ '0' := by
      have hhead := head_toDigits hpos
      rw [hdigits] at hhead
      exact fun h => hhead (congrArg some h)
    rcases hsign with rfl | rfl <;> cases rest with
    | nil =>
      rw [List.append_nil] at hscan
      simp [scanNumber, hminus, hzero, hscan]
    | cons c cs =>
      rcases hrest.head with rfl | rfl | rfl <;> simp [scanNumber, hminus, hzero, hscan]

theorem scanNumber_intLiteral (n : Int) {rest : List Char} (hrest : Ends rest) :
    scanNumber ((intLiteral n).toList ++ rest) = some ((intLiteral n).toList, rest) := by
  rw [toList_intLiteral]
  refine scanNumber_toDigits n.natAbs ?_ hrest
  split_ifs
  · exact Or.inr rfl
  · exact Or.inl rfl

/-- An integer that fits is read from its literal. -/
theorem int64Literal_intLiteral {n : Int} (h : -2 ^ 63 ≤ n ∧ n < 2 ^ 63) :
    int64Literal (intLiteral n) = some n := by
  obtain ⟨d, ds, hdigits⟩ := List.exists_cons_of_ne_nil (@Nat.toDigits_ne_nil n.natAbs 10)
  have hall : ∀ c ∈ d :: ds, c.isDigit = true := by
    rw [← hdigits]
    exact fun c hc => isDigit_of_mem_toDigits hc
  have hminus : d ≠ '-' := by
    rintro rfl
    exact absurd (hall '-' List.mem_cons_self) (by decide)
  have hvalue : (d :: ds).foldl (fun n c => 10 * n + (c.toNat - '0'.toNat)) 0 = n.natAbs := by
    rw [← hdigits, ← Nat.ofDigitChars_eq_foldl, Nat.ofDigitChars_ten_toDigits]
  have hdigit : ¬(d :: ds = [] ∨ (!(d :: ds).all Char.isDigit) = true) := by
    rw [List.all_eq_true.mpr hall]
    simp
  unfold int64Literal
  rw [toList_intLiteral, hdigits]
  by_cases hneg : n < 0
  · have habs : -(n.natAbs : Int) = n := by omega
    rw [if_pos hneg]
    simp only [List.singleton_append, hdigit, if_false, hvalue, if_true, habs, h, and_self]
  · have habs : (n.natAbs : Int) = n := by omega
    rw [if_neg hneg, List.nil_append]
    split
    next negative digits hsign =>
    obtain ⟨rfl, rfl⟩ : negative = false ∧ digits = d :: ds := by
      split at hsign
      · next heq => exact absurd (List.cons.inj heq).1 hminus
      · cases hsign
        exact ⟨rfl, rfl⟩
    simp only [hdigit, if_false, hvalue, Bool.false_eq_true, habs, h, and_self, if_true]

/-! ### Reading

By induction on the value: its text is read as the value, and the reading stops where the text
ends. -/

theorem skipSpace_cons {c : Char} (h : ¬(c = ' ' ∨ c = '\t' ∨ c = '\r' ∨ c = '\n'))
    (cs : List Char) : skipSpace (c :: cs) = c :: cs := by
  simp only [not_or] at h
  exact List.dropWhile_cons_of_neg (by simp [h])

/-- A value begins with no space, and no bracket that closes. -/
theorem text_head {depth : Nat} {j : Json} (h : Readable depth j) :
    ∃ c cs, text j = c :: cs ∧ c ∉ [' ', '\t', '\r', '\n', ']', '}'] := by
  cases h with
  | number depth n =>
    obtain ⟨d, ds, hdigits⟩ := List.exists_cons_of_ne_nil (@Nat.toDigits_ne_nil n.natAbs 10)
    have hd : d.isDigit = true := isDigit_of_mem_toDigits (hdigits ▸ List.mem_cons_self)
    rw [text, toList_intLiteral, hdigits]
    split_ifs
    · exact ⟨'-', d :: ds, rfl, by decide⟩
    · refine ⟨d, ds, rfl, fun hmem => ?_⟩
      simp only [List.mem_cons, List.not_mem_nil, or_false] at hmem
      rcases hmem with rfl | rfl | rfl | rfl | rfl | rfl <;> exact absurd hd (by decide)
  | null => exact ⟨_, _, rfl, by decide⟩
  | bool depth b => cases b <;> exact ⟨_, _, rfl, by decide⟩
  | string => exact ⟨_, _, rfl, by decide⟩
  | array => exact ⟨_, _, rfl, by decide⟩
  | object => exact ⟨_, _, rfl, by decide⟩

/-- A value is read again from its text. -/
def ReadsAgain (depth : Nat) (j : Json) : Prop :=
  ∀ {fuel : Nat}, (text j).length < fuel → ∀ {rest : List Char}, Ends rest →
    parseValue fuel depth (text j ++ rest) = some (j, rest)

theorem ends_cons {c : Char} (h : c ∈ [',', ']', '}']) (cs : List Char) : Ends (c :: cs) := by
  simpa [Ends] using h

/-- The elements of an array. -/
theorem parseElems_text {depth : Nat} {elems : List Json} (hne : elems ≠ [])
    (h : ∀ elem ∈ elems, ReadsAgain depth elem) {fuel : Nat}
    (hfuel : (textElems elems).length + 1 < fuel) (rest : List Char) :
    parseElems fuel depth (textElems elems ++ ']' :: rest) = some (elems, rest) := by
  induction elems generalizing fuel with
  | nil => exact absurd rfl hne
  | cons elem elems ih =>
    obtain ⟨helem, helems⟩ := List.forall_mem_cons.mp h
    cases fuel with
    | zero => omega
    | succ fuel =>
      cases elems with
      | nil =>
        rw [textElems] at hfuel ⊢
        rw [parseElems, helem (by omega) (ends_cons (by simp) rest)]
        simp [skipSpace_cons]
      | cons elem' elems =>
        rw [textElems_cons_cons, List.length_append, List.length_cons] at hfuel
        have hrest := @ih (List.cons_ne_nil _ _) helems fuel (by omega)
        rw [textElems_cons_cons, parseElems, List.append_assoc, List.cons_append,
          helem (by omega) (ends_cons (by simp) _)]
        simp [skipSpace_cons, hrest]

theorem parseKey_quote (key : String) (cs : List Char) :
    (expect ['"'] (skipSpace (quote key ++ cs))).bind parseString = some (key, cs) := by
  have hquote : quote key ++ cs = '"' :: (key.toList.flatMap escapeRune ++ '"' :: cs) := by
    simp [quote]
  rw [hquote, skipSpace_cons (by simp)]
  exact parseString_quote key cs

/-- The members of an object. -/
theorem parseMembers_text {depth : Nat} {ms : List (String × Json)} (hne : ms ≠ [])
    (h : ∀ m ∈ ms, ReadsAgain depth m.2) {fuel : Nat}
    (hfuel : (textMembers ms).length + 1 < fuel) (rest : List Char) :
    parseMembers fuel depth (textMembers ms ++ '}' :: rest) = some (ms, rest) := by
  induction ms generalizing fuel with
  | nil => exact absurd rfl hne
  | cons m ms ih =>
    obtain ⟨key, value⟩ := m
    obtain ⟨hvalue, hms⟩ := List.forall_mem_cons.mp h
    replace hvalue : ReadsAgain depth value := hvalue
    cases fuel with
    | zero => omega
    | succ fuel =>
      cases ms with
      | nil =>
        rw [textMembers, List.length_append, List.length_cons] at hfuel
        have hread := @hvalue fuel (by omega) _ (@ends_cons '}' (by simp) rest)
        rw [textMembers, List.append_assoc, List.cons_append, parseMembers]
        simp only [Option.bind_eq_bind, ← Option.bind_assoc]
        rw [parseKey_quote]
        simp [skipSpace_cons, expect, hread]
      | cons m' ms =>
        rw [textMembers_cons_cons, List.length_append, List.length_cons, List.length_append,
          List.length_cons] at hfuel
        have hread := @hvalue fuel (by omega) _
          (@ends_cons ',' (by simp) (textMembers (m' :: ms) ++ '}' :: rest))
        have hrest := @ih (List.cons_ne_nil _ _) hms fuel (by omega)
        rw [textMembers_cons_cons, List.append_assoc, List.cons_append, List.append_assoc,
          List.cons_append,
          parseMembers]
        simp only [Option.bind_eq_bind, ← Option.bind_assoc]
        rw [parseKey_quote]
        simp [skipSpace_cons, expect, hread, hrest]

/-- The text of an array begins with a value, so with none of the characters that would end it. -/
theorem textElems_head {depth : Nat} {elems : List Json} (hne : elems ≠ [])
    (h : ∀ elem ∈ elems, Readable depth elem) :
    ∃ c cs, textElems elems = c :: cs ∧ c ∉ [' ', '\t', '\r', '\n', ']', '}'] := by
  cases elems with
  | nil => exact absurd rfl hne
  | cons elem elems =>
    obtain ⟨c, cs, htext, hc⟩ := text_head (h elem List.mem_cons_self)
    cases elems with
    | nil => exact ⟨c, cs, htext, hc⟩
    | cons elem' elems =>
      rw [textElems_cons_cons, htext]
      exact ⟨c, _, rfl, hc⟩

theorem textMembers_head {ms : List (String × Json)} (hne : ms ≠ []) :
    ∃ cs, textMembers ms = '"' :: cs := by
  cases ms with
  | nil => exact absurd rfl hne
  | cons m ms =>
    cases ms with
    | nil => exact ⟨_, rfl⟩
    | cons m' ms => exact ⟨_, textMembers_cons_cons _ _ _ _⟩

/-- **What was written** is read again. -/
theorem readsAgain {depth : Nat} {j : Json} (h : Readable depth j) : ReadsAgain depth j := by
  induction h with
  | null depth =>
    intro fuel hfuel rest _
    cases fuel with
    | zero => omega
    | succ fuel => rfl
  | bool depth b =>
    intro fuel hfuel rest _
    cases fuel with
    | zero => omega
    | succ fuel => cases b <;> rfl
  | number depth n =>
    intro fuel hfuel rest hrest
    obtain ⟨d, ds, hdigits⟩ := List.exists_cons_of_ne_nil (@Nat.toDigits_ne_nil n.natAbs 10)
    have hd : d.isDigit = true := isDigit_of_mem_toDigits (hdigits ▸ List.mem_cons_self)
    -- a number begins with a digit or a sign, and so with none of the other marks
    have hne : ∀ c : Char, c.isDigit = false → d ≠ c := by
      rintro c hc rfl
      rw [hd] at hc
      cases hc
    have hread := scanNumber_intLiteral n hrest
    rw [text]
    cases fuel with
    | zero => omega
    | succ fuel =>
      by_cases hneg : n < 0
      · have htext : (intLiteral n).toList = '-' :: d :: ds := by
          rw [toList_intLiteral, if_pos hneg, hdigits]
          rfl
        have hliteral : String.ofList ('-' :: d :: ds) = intLiteral n := by
          rw [← htext, String.ofList_toList]
        rw [htext, List.cons_append, List.cons_append] at hread
        rw [htext, parseValue, List.cons_append, skipSpace_cons (by simp)]
        simp [parseScalar, hliteral, hread]
      · have htext : (intLiteral n).toList = d :: ds := by
          rw [toList_intLiteral, if_neg hneg, hdigits]
          rfl
        have hliteral : String.ofList (d :: ds) = intLiteral n := by
          rw [← htext, String.ofList_toList]
        rw [htext, List.cons_append] at hread
        rw [htext, parseValue, List.cons_append, skipSpace_cons (by
          simp [hne ' ' rfl, hne '\t' rfl, hne '\r' rfl, hne '\n' rfl])]
        simp [parseScalar, hne '{' rfl, hne '[' rfl, hne '"' rfl, hne 'n' rfl, hne 't' rfl,
          hne 'f' rfl, hliteral, hread]
  | string depth s =>
    intro fuel hfuel rest _
    cases fuel with
    | zero => omega
    | succ fuel =>
      have hread := parseString_quote s rest
      have hquote : quote s ++ rest = '"' :: (s.toList.flatMap escapeRune ++ '"' :: rest) := by
        simp [quote]
      rw [text, hquote, parseValue, skipSpace_cons (by simp)]
      simp [hread]
  | @array depth elems helems ih =>
    intro fuel hfuel rest _
    cases fuel with
    | zero => omega
    | succ fuel =>
      rw [text, List.length_append, List.length_cons, List.length_singleton] at hfuel
      rw [text, List.cons_append, List.cons_append, List.append_assoc, parseValue,
        skipSpace_cons (by simp)]
      by_cases hne : elems = []
      · subst hne
        simp [textElems, skipSpace_cons]
      · obtain ⟨c, cs, htext, hc⟩ := textElems_head hne helems
        have hread := @parseElems_text depth elems hne ih fuel (by omega) rest
        simp only [List.mem_cons, List.not_mem_nil, or_false, not_or] at hc
        rw [htext, List.cons_append] at hread
        have hskip := @skipSpace_cons c (by simp [hc]) (cs ++ ']' :: rest)
        simp [htext, hskip, hc, hread]
  | @object depth ms hms ih =>
    intro fuel hfuel rest _
    cases fuel with
    | zero => omega
    | succ fuel =>
      rw [text, List.length_append, List.length_cons, List.length_singleton] at hfuel
      rw [text, List.cons_append, List.cons_append, List.append_assoc, parseValue,
        skipSpace_cons (by simp)]
      by_cases hne : ms = []
      · subst hne
        simp [textMembers, skipSpace_cons]
      · obtain ⟨cs, htext⟩ := textMembers_head hne
        have hread := @parseMembers_text depth ms hne ih fuel (by omega) rest
        rw [htext, List.cons_append] at hread
        simp [htext, skipSpace_cons, hread]

/-- `json.Marshal`: the bytes of a value. -/
def toBytes (j : Json) : List UInt8 := utf8 (text j)

/-- **The bytes** that were written are read again. -/
theorem ofBytes_toBytes {j : Json} (h : Readable maxNestingDepth j) :
    ofBytes (toBytes j) = some j := by
  have hread : parseValue ((text j).length + 1) maxNestingDepth (text j) = some (j, []) := by
    have happend := readsAgain h (Nat.lt_succ_self (text j).length) (show Ends [] by simp [Ends])
    rwa [List.append_nil] at happend
  unfold ofBytes
  rw [toBytes, runesFrom_utf8]
  simp only [hread, Option.bind_eq_bind, Option.bind_some]
  rfl

end WptFyi.Lib.Json
