import Mathlib

/-!
# Times as Go's package `time` reads and writes them

A time is a reading of the clock in a zone. It is written as RFC 3339 has it, and read
with that layout or a beginning of it.

Parsing is a loop over the elements of the layout, each of which takes its part off the value. It
accepts more than it writes: a fraction of a second after the seconds though the layout has none,
one digit instead of two at some places, and zones of more than a day. What the loop has read so
far is a `Reading`, whose ranges are the invariant of the loop, and only at its end the day is
compared with the length of the month. Writing refuses the years and zones that RFC 3339 does not
have if it is asked to be strict, as JSON does.

- `chunks`, `parse`: the elements of a layout, and reading a value with them;
- `Reading.InRange`: what each turn of the loop keeps;
- `parse_valid`: what was read is a reading there is;
- `parse_format`: what was written is read again, without its part of a second if that was
  not written;
- `instant`: when it is, by which times are compared.
-/

namespace WptFyi.Lib

/-! ## Digits -/

namespace GoTime

/-- `appendInt`: a number with zeros in front. -/
def appendInt (n width : Nat) : List Char :=
  let digits := Nat.toDigits 10 n
  List.replicate (width - digits.length) '0' ++ digits

variable {n width : Nat}

theorem isDigit_of_mem_appendInt {c : Char} (h : c ∈ appendInt n width) : c.isDigit = true := by
  rcases List.mem_append.mp h with hzero | hdigit
  · rw [List.eq_of_mem_replicate hzero]
    rfl
  · exact Nat.isDigit_of_mem_toDigits (by omega) (by omega) hdigit

theorem length_appendInt (hpos : 0 < width) (h : n < 10 ^ width) :
    (appendInt n width).length = width := by
  have hlen := (Nat.length_toDigits_le_iff (by omega) hpos).mpr h
  rw [appendInt, List.length_append, List.length_replicate]
  omega

theorem ofDigitChars_appendInt (n width : Nat) : Nat.ofDigitChars 10 (appendInt n width) 0 = n := by
  rw [appendInt, Nat.ofDigitChars_append, Nat.ofDigitChars_replicate_zero, Nat.mul_zero,
    Nat.ofDigitChars_ten_toDigits]

/-- So many digits make a number below that power of ten. -/
theorem ofDigitChars_lt {digits : List Char} (h : ∀ c ∈ digits, c.isDigit = true) :
    Nat.ofDigitChars 10 digits 0 < 10 ^ digits.length := by
  induction digits with
  | nil => simp
  | cons c cs ih =>
    obtain ⟨hc, hcs⟩ := List.forall_mem_cons.mp h
    have hvalue : c.toNat - '0'.toNat ≤ 9 := by
      rw [Char.isDigit, Bool.and_eq_true, decide_eq_true_iff, decide_eq_true_iff] at hc
      have hle : c.toNat ≤ 57 := hc.2
      show c.toNat - 48 ≤ 9
      omega
    have hrest := ih hcs
    rw [Nat.ofDigitChars_cons, Nat.ofDigitChars_eq_ofDigitChars_zero, List.length_cons, pow_succ]
    calc 10 ^ cs.length * (10 * 0 + (c.toNat - '0'.toNat)) + Nat.ofDigitChars 10 cs 0
        < 10 ^ cs.length * 9 + 10 ^ cs.length :=
          Nat.add_lt_add_of_le_of_lt (Nat.mul_le_mul_left _ (by omega)) hrest
      _ = 10 ^ cs.length * 10 := by ring

/-! ## The calendar -/

def isLeap (year : Nat) : Bool := year % 4 = 0 && (year % 100 ≠ 0 || year % 400 = 0)

def daysIn (month year : Nat) : Nat :=
  if month = 2 then (if isLeap year then 29 else 28)
  else if month ∈ [4, 6, 9, 11] then 30
  else 31

end GoTime

open GoTime

/-- A reading of the clock in a zone that is so many minutes east of UTC. -/
structure GoTime where
  year : Nat
  month : Nat
  day : Nat
  hour : Nat
  minute : Nat
  second : Nat
  nanosecond : Nat
  offset : Int
deriving DecidableEq, Repr

namespace GoTime

/-- The readings that are read from texts. -/
structure Valid (t : GoTime) : Prop where
  year : t.year < 10000
  month : 1 ≤ t.month ∧ t.month ≤ 12
  day : 1 ≤ t.day ∧ t.day ≤ daysIn t.month t.year
  hour : t.hour < 24
  minute : t.minute < 60
  second : t.second < 60
  nanosecond : t.nanosecond < 10 ^ 9
  offset : t.offset.natAbs ≤ 24 * 60 + 60

/-- The days of the year before a month. -/
def daysBeforeMonth (month year : Nat) : Nat :=
  ((List.range month).tail.map fun m => daysIn m year).sum

/-- The days before a year, from the first of January of year zero. -/
def daysBeforeYear (year : Nat) : Nat :=
  365 * year + (year + 3) / 4 - (year + 99) / 100 + (year + 399) / 400

/-- The instant: the seconds since year zero began in UTC, and nanoseconds. -/
def instant (t : GoTime) : Int × Nat :=
  let days := daysBeforeYear t.year + daysBeforeMonth t.month t.year + (t.day - 1)
  ((((days : Int) * 24 + t.hour) * 60 + t.minute - t.offset) * 60 + t.second, t.nanosecond)

/-! ## Layouts -/

/-- The elements of a layout. -/
inductive Chunk where
  | literal (c : Char)
  | longYear
  | numMonth
  | zeroMonth
  | day
  | zeroDay
  | hour
  | zeroMinute
  | zeroSecond
  | iso8601ColonTZ
deriving DecidableEq

/-- `time.RFC3339`. -/
def rfc3339 : List Char := "2006-01-02T15:04:05Z07:00".toList

/-- `nextStdChunk` until the layout ends, for the beginnings of `time.RFC3339`. -/
def chunks : List Char → List Chunk
  | '2' :: '0' :: '0' :: '6' :: layout => .longYear :: chunks layout
  | '2' :: layout => .day :: chunks layout
  | '0' :: '1' :: layout => .zeroMonth :: chunks layout
  | '0' :: '2' :: layout => .zeroDay :: chunks layout
  | '0' :: '4' :: layout => .zeroMinute :: chunks layout
  | '0' :: '5' :: layout => .zeroSecond :: chunks layout
  | '1' :: '5' :: layout => .hour :: chunks layout
  | '1' :: layout => .numMonth :: chunks layout
  | 'Z' :: '0' :: '7' :: ':' :: '0' :: '0' :: layout => .iso8601ColonTZ :: chunks layout
  | c :: layout => .literal c :: chunks layout
  | [] => []

/-! ## Reading

The layout is read from left to right, one chunk after the other, and each chunk takes its part of
the text or fails. -/

/-- What was read so far, and the rest of the value. -/
structure Reading where
  year : Nat := 0
  month : Option Nat := none
  day : Option Nat := none
  hour : Nat := 0
  minute : Nat := 0
  second : Nat := 0
  nanosecond : Nat := 0
  offset : Int := 0
  rest : List Char

/-- `getnum`: two digits, or one where that is allowed. -/
def getnum (cs : List Char) (fixed : Bool) : Option (Nat × List Char) :=
  match cs with
  | a :: b :: cs =>
    if !a.isDigit then none
    else if b.isDigit then some (Nat.ofDigitChars 10 [a, b] 0, cs)
    else if fixed then none
    else some (Nat.ofDigitChars 10 [a] 0, b :: cs)
  | [a] => if a.isDigit && !fixed then some (Nat.ofDigitChars 10 [a] 0, []) else none
  | [] => none

/-- `parseNanoseconds`, for the digits behind the point. -/
def nanoseconds (digits : List Char) : Nat :=
  let digits := digits.take 9
  Nat.ofDigitChars 10 digits 0 * 10 ^ (9 - digits.length)

/-- A part of a second, which may come though the layout has none. -/
def fraction (cs : List Char) : Nat × List Char :=
  match cs with
  | c :: d :: ds =>
    if (c = '.' ∨ c = ',') ∧ d.isDigit then
      (nanoseconds ((d :: ds).takeWhile Char.isDigit), (d :: ds).dropWhile Char.isDigit)
    else (0, cs)
  | _ => (0, cs)

/-- A zone: `Z`, or a sign, hours and minutes. More than a day is refused, not a day. -/
def zone (cs : List Char) : Option (Int × List Char) :=
  match cs with
  | 'Z' :: cs => some (0, cs)
  | sign :: a :: b :: ':' :: c :: d :: cs => do
    let (hr, _) ← getnum [a, b] true
    let (mm, _) ← getnum [c, d] true
    if 24 < hr ∨ 60 < mm then none
    else if sign = '+' then some (hr * 60 + mm, cs)
    else if sign = '-' then some (-(hr * 60 + mm), cs)
    else none
  | _ => none

/-- One turn of the loop of `parse`. -/
def readChunk (r : Reading) : Chunk → Option Reading
  | .literal c => if r.rest.head? = some c then some { r with rest := r.rest.tail } else none
  | .longYear =>
    let digits := r.rest.take 4
    if digits.length = 4 ∧ digits.all Char.isDigit then
      some { r with year := Nat.ofDigitChars 10 digits 0, rest := r.rest.drop 4 }
    else none
  | .numMonth => do
    let (month, rest) ← getnum r.rest false
    if month = 0 ∨ 12 < month then none else some { r with month, rest }
  | .zeroMonth => do
    let (month, rest) ← getnum r.rest true
    if month = 0 ∨ 12 < month then none else some { r with month, rest }
  | .day => do
    let (day, rest) ← getnum r.rest false
    some { r with day, rest }
  | .zeroDay => do
    let (day, rest) ← getnum r.rest true
    some { r with day, rest }
  | .hour => do
    let (hour, rest) ← getnum r.rest false
    if 24 ≤ hour then none else some { r with hour, rest }
  | .zeroMinute => do
    let (minute, rest) ← getnum r.rest true
    if 60 ≤ minute then none else some { r with minute, rest }
  | .zeroSecond => do
    let (second, rest) ← getnum r.rest true
    if 60 ≤ second then none
    else
      let (nanosecond, rest) := fraction rest
      some { r with second, nanosecond, rest }
  | .iso8601ColonTZ => do
    let (offset, rest) ← zone r.rest
    some { r with offset, rest }

/-- The end of `parse`: the first of January by default, and a day that the month has. -/
def Reading.time (r : Reading) : Option GoTime :=
  let month := r.month.getD 1
  let day := r.day.getD 1
  if day < 1 ∨ daysIn month r.year < day then none
  else some
    { year := r.year, month, day, hour := r.hour, minute := r.minute, second := r.second,
      nanosecond := r.nanosecond, offset := r.offset }

/-- `time.Parse`. -/
def parse (layout value : List Char) : Option GoTime := do
  let r ← (chunks layout).foldlM readChunk { rest := value }
  if r.rest ≠ [] then none else r.time

/-! ## Writing -/

/-- `appendNano`: nine digits without the zeros at their end. -/
def appendNano (nanosecond : Nat) : List Char :=
  if nanosecond = 0 then [] else '.' :: (appendInt nanosecond 9).rdropWhile (· = '0')

def appendZone (offset : Int) : List Char :=
  if offset = 0 then ['Z']
  else
    (if offset < 0 then '-' else '+') :: appendInt (offset.natAbs / 60) 2 ++
      ':' :: appendInt (offset.natAbs % 60) 2

/-- `appendFormatRFC3339`. -/
def format (t : GoTime) (nanos : Bool) : List Char :=
  appendInt t.year 4 ++ '-' :: appendInt t.month 2 ++ '-' :: appendInt t.day 2 ++
    'T' :: appendInt t.hour 2 ++ ':' :: appendInt t.minute 2 ++ ':' :: appendInt t.second 2 ++
      (if nanos then appendNano t.nanosecond else []) ++ appendZone t.offset

/-- `appendStrictRFC3339`: no year or zone that RFC 3339 does not have. -/
def formatStrict (t : GoTime) : Option (List Char) :=
  if 10000 ≤ t.year ∨ 24 ≤ t.offset.natAbs / 60 then none else some (t.format true)

/-! ## What is read

A time that was read is a time: its fields are in their bounds, and so is its offset. -/

theorem nanoseconds_lt {digits : List Char} (h : ∀ c ∈ digits, c.isDigit = true) :
    nanoseconds digits < 10 ^ 9 := by
  have hlen : (digits.take 9).length ≤ 9 := List.length_take_le 9 digits
  have hlt := ofDigitChars_lt fun c (hc : c ∈ digits.take 9) => h c (List.mem_of_mem_take hc)
  calc Nat.ofDigitChars 10 (digits.take 9) 0 * 10 ^ (9 - (digits.take 9).length)
      < 10 ^ (digits.take 9).length * 10 ^ (9 - (digits.take 9).length) :=
        Nat.mul_lt_mul_of_pos_right hlt (Nat.pow_pos (by omega))
    _ = 10 ^ 9 := by rw [← pow_add, Nat.add_sub_cancel' hlen]

theorem fraction_lt (cs : List Char) : (fraction cs).1 < 10 ^ 9 := by
  have hzero : (0 : Nat) < 10 ^ 9 := Nat.pow_pos (by omega)
  unfold fraction
  split
  · split_ifs
    · exact nanoseconds_lt fun c hc => List.mem_takeWhile_imp hc
    · exact hzero
  · exact hzero

theorem natAbs_zone {cs rest : List Char} {offset : Int} (h : zone cs = some (offset, rest)) :
    offset.natAbs ≤ 24 * 60 + 60 := by
  unfold zone at h
  split at h
  · cases h
    exact Nat.zero_le _
  · simp only [Option.bind_eq_bind, Option.bind_eq_some_iff] at h
    obtain ⟨⟨hr, _⟩, -, ⟨mm, _⟩, -, h⟩ := h
    split_ifs at h <;> cases h <;> omega
  · cases h

/-- The ranges that the loop checks. -/
structure Reading.InRange (r : Reading) : Prop where
  year : r.year < 10000
  month : ∀ month ∈ r.month, 1 ≤ month ∧ month ≤ 12
  hour : r.hour < 24
  minute : r.minute < 60
  second : r.second < 60
  nanosecond : r.nanosecond < 10 ^ 9
  offset : r.offset.natAbs ≤ 24 * 60 + 60

/-- **One turn** of the loop keeps the ranges. -/
theorem Reading.InRange.readChunk {r r' : Reading} (h : r.InRange) {c : Chunk}
    (hread : GoTime.readChunk r c = some r') : r'.InRange := by
  cases c <;> rw [GoTime.readChunk] at hread
  case literal c =>
    split_ifs at hread
    cases hread
    exact { h with }
  case longYear =>
    split_ifs at hread with hdigits
    cases hread
    refine { h with year := ?_ }
    have hlt := ofDigitChars_lt (List.all_eq_true.mp hdigits.2)
    rw [hdigits.1] at hlt
    exact hlt
  case iso8601ColonTZ =>
    obtain ⟨⟨offset, rest⟩, hzone, hsome⟩ := Option.bind_eq_some_iff.mp hread
    cases hsome
    exact { h with offset := natAbs_zone hzone }
  case day | zeroDay =>
    obtain ⟨⟨day, rest⟩, -, hsome⟩ := Option.bind_eq_some_iff.mp hread
    cases hsome
    exact { h with }
  case numMonth | zeroMonth =>
    obtain ⟨⟨month, rest⟩, -, hsome⟩ := Option.bind_eq_some_iff.mp hread
    simp only at hsome
    split_ifs at hsome with hmonth
    cases hsome
    refine { h with month := ?_ }
    rintro _ ⟨⟩
    omega
  case hour =>
    obtain ⟨⟨hour, rest⟩, -, hsome⟩ := Option.bind_eq_some_iff.mp hread
    simp only at hsome
    split_ifs at hsome with hhour
    cases hsome
    exact { h with hour := by simpa using hhour }
  case zeroMinute =>
    obtain ⟨⟨minute, rest⟩, -, hsome⟩ := Option.bind_eq_some_iff.mp hread
    simp only at hsome
    split_ifs at hsome with hminute
    cases hsome
    exact { h with minute := by simpa using hminute }
  case zeroSecond =>
    obtain ⟨⟨second, rest⟩, -, hsome⟩ := Option.bind_eq_some_iff.mp hread
    simp only at hsome
    split_ifs at hsome with hsecond
    cases hsome
    exact { h with second := by simpa using hsecond, nanosecond := fraction_lt rest }

/-- **Every time** that is read is a valid one. -/
theorem parse_valid {layout value : List Char} {t : GoTime} (h : parse layout value = some t) :
    t.Valid := by
  -- every element keeps the ranges, so the loop does
  have hrun : ∀ (cs : List Chunk) (r r' : Reading), r.InRange → cs.foldlM readChunk r = some r' →
      r'.InRange := by
    intro cs
    induction cs with
    | nil =>
      rintro r _ hr ⟨⟩
      exact hr
    | cons c cs ih =>
      intro r r' hr hloop
      rw [List.foldlM_cons] at hloop
      obtain ⟨next, hnext, hrest⟩ := Option.bind_eq_some_iff.mp hloop
      exact ih next r' (hr.readChunk hnext) hrest
  obtain ⟨r, hloop, hend⟩ := Option.bind_eq_some_iff.mp h
  have hr := hrun _ _ r
    ⟨by simp, by simp, by simp, by simp, by simp, by simp, by simp⟩ hloop
  split_ifs at hend
  rw [Reading.time] at hend
  split_ifs at hend with hday
  cases hend
  refine ⟨hr.year, ?_, by simp only; omega, hr.hour, hr.minute, hr.second, hr.nanosecond, hr.offset⟩
  show 1 ≤ r.month.getD 1 ∧ r.month.getD 1 ≤ 12
  cases hmonth : r.month with
  | none => simp
  | some month => exact hr.month month hmonth

/-! ## What is written

Chunk by chunk what was written is read again, with nothing of the rest taken. A year of more than
four digits is the exception. -/

theorem getnum_append {digits : List Char} (hlen : digits.length = 2)
    (hdigits : ∀ c ∈ digits, c.isDigit = true) (cs : List Char) (fixed : Bool) :
    getnum (digits ++ cs) fixed = some (Nat.ofDigitChars 10 digits 0, cs) := by
  obtain ⟨a, b, rfl⟩ := List.length_eq_two.mp hlen
  have ha : a.isDigit = true := hdigits a (by simp)
  have hb : b.isDigit = true := hdigits b (by simp)
  show (if !a.isDigit then _ else if b.isDigit then _ else _) = _
  rw [ha, hb]
  rfl

/-- A number of two digits. -/
theorem getnum_appendInt {n : Nat} (h : n < 100) (cs : List Char) (fixed : Bool) :
    getnum (appendInt n 2 ++ cs) fixed = some (n, cs) := by
  rw [getnum_append (length_appendInt (by omega) (by omega))
    (fun c hc => isDigit_of_mem_appendInt hc), ofDigitChars_appendInt]

theorem exists_rdropWhile_append {α : Type*} [DecidableEq α] (a : α) (l : List α) :
    ∃ k, l = l.rdropWhile (· = a) ++ List.replicate k a := by
  refine ⟨(l.reverse.takeWhile (· = a)).length, ?_⟩
  have hsplit := congrArg List.reverse
    (List.takeWhile_append_dropWhile (p := (· = a)) (l := l.reverse))
  have hreplicate : l.reverse.takeWhile (· = a) =
      List.replicate (l.reverse.takeWhile (· = a)).length a :=
    List.eq_replicate_of_mem fun x hx => by simpa using List.mem_takeWhile_imp hx
  rw [List.reverse_append, List.reverse_reverse] at hsplit
  rw [← List.reverse_replicate, ← hreplicate]
  exact hsplit.symm

/-- The digits of a part of a second, with the zeros at the end left out. -/
theorem nanoseconds_rdropWhile {n : Nat} (h : n < 10 ^ 9) :
    nanoseconds ((appendInt n 9).rdropWhile (· = '0')) = n := by
  obtain ⟨k, hk⟩ := exists_rdropWhile_append '0' (appendInt n 9)
  have hlen : (appendInt n 9).length = 9 := length_appendInt (by omega) h
  have hvalue := ofDigitChars_appendInt n 9
  generalize (appendInt n 9).rdropWhile (· = '0') = digits at hk
  rw [hk, List.length_append, List.length_replicate] at hlen
  rw [hk, Nat.ofDigitChars_append, Nat.ofDigitChars_replicate_zero] at hvalue
  rw [nanoseconds, List.take_of_length_le (by omega), show 9 - digits.length = k by omega, mul_comm]
  exact hvalue

/-- There is a digit other than zero to keep. -/
theorem rdropWhile_ne_nil {n : Nat} (h : n ≠ 0) : (appendInt n 9).rdropWhile (· = '0') ≠ [] := by
  intro hnil
  obtain ⟨k, hk⟩ := exists_rdropWhile_append '0' (appendInt n 9)
  have hvalue := ofDigitChars_appendInt n 9
  rw [hnil, List.nil_append] at hk
  rw [hk, Nat.ofDigitChars_replicate_zero] at hvalue
  omega

/-- A part of a second is read again, whatever zeros at its end were left out. -/
theorem fraction_append {n : Nat} (h : n < 10 ^ 9) {cs : List Char}
    (hcs : ∀ c ∈ cs.head?, c ∈ ['Z', '+', '-']) : fraction (appendNano n ++ cs) = (n, cs) := by
  have hdigit : ∀ c ∈ cs.head?, c.isDigit = false ∧ c ≠ '.' ∧ c ≠ ',' := by
    intro c hc
    have hmem := hcs c hc
    simp only [List.mem_cons, List.not_mem_nil, or_false] at hmem
    rcases hmem with rfl | rfl | rfl <;> decide
  by_cases hn : n = 0
  · subst hn
    rw [appendNano, if_pos rfl, List.nil_append, fraction.eq_def]
    split
    · next c d ds =>
      rw [if_neg fun hc => ?_]
      obtain ⟨-, hpoint, hcomma⟩ := hdigit c rfl
      exact hc.1.elim hpoint hcomma
    · rfl
  · obtain ⟨d, ds, hdigits⟩ := List.exists_cons_of_ne_nil (rdropWhile_ne_nil hn)
    have hall : ∀ c ∈ d :: ds, c.isDigit = true := by
      rw [← hdigits]
      exact fun c hc => isDigit_of_mem_appendInt ((List.rdropWhile_prefix _ _).subset hc)
    -- the digits end where the zone begins
    have htake : (d :: ds ++ cs).takeWhile Char.isDigit = d :: ds := by
      rw [List.takeWhile_append_of_pos hall]
      cases cs with
      | nil => exact List.append_nil _
      | cons c cs => rw [List.takeWhile_cons_of_neg (by simp [hdigit c rfl]), List.append_nil]
    have hdrop : (d :: ds ++ cs).dropWhile Char.isDigit = cs := by
      rw [List.dropWhile_append_of_pos hall]
      cases cs with
      | nil => rfl
      | cons c cs => exact List.dropWhile_cons_of_neg (by simp [hdigit c rfl])
    rw [appendNano, if_neg hn, hdigits]
    show (if ('.' = '.' ∨ '.' = ',') ∧ d.isDigit then _ else _) = _
    rw [if_pos ⟨Or.inl rfl, hall d List.mem_cons_self⟩,
      show d :: ds.append cs = d :: ds ++ cs from rfl,
      htake, hdrop, ← hdigits, nanoseconds_rdropWhile h]

theorem head_appendZone (offset : Int) : ∀ c ∈ (appendZone offset).head?, c ∈ ['Z', '+', '-'] := by
  unfold appendZone
  split_ifs <;> simp

/-- A sign, hours and minutes. -/
theorem zone_of_sign {sign : Char} (hsign : sign = '+' ∨ sign = '-') {n : Nat} (h : n < 25 * 60) :
    zone (sign :: appendInt (n / 60) 2 ++ ':' :: appendInt (n % 60) 2) =
      some (if sign = '+' then (n : Int) else -n, []) := by
  obtain ⟨a, b, hr⟩ := List.length_eq_two.mp (@length_appendInt (n / 60) 2 (by omega) (by omega))
  obtain ⟨c, d, mm⟩ := List.length_eq_two.mp (@length_appendInt (n % 60) 2 (by omega) (by omega))
  have hhours := @getnum_appendInt (n / 60) (by omega) [] true
  have hminutes := @getnum_appendInt (n % 60) (by omega) [] true
  rw [hr, List.append_nil] at hhours
  rw [mm, List.append_nil] at hminutes
  rw [hr, mm]
  rcases hsign with rfl | rfl
  · show ((getnum [a, b] true).bind fun x => (getnum [c, d] true).bind fun y => _) = _
    rw [hhours, hminutes]
    show (if 24 < n / 60 ∨ 60 < n % 60 then _ else _) = _
    rw [if_neg (by omega), if_pos rfl, if_pos rfl]
    congr 2
    omega
  · show ((getnum [a, b] true).bind fun x => (getnum [c, d] true).bind fun y => _) = _
    rw [hhours, hminutes]
    show (if 24 < n / 60 ∨ 60 < n % 60 then _ else _) = _
    rw [if_neg (by omega), if_neg (by decide), if_pos rfl, if_neg (by decide)]
    congr 2
    omega

/-- So is a zone of less than 25 hours. -/
theorem zone_appendZone {offset : Int} (h : offset.natAbs < 25 * 60) :
    zone (appendZone offset) = some (offset, []) := by
  rw [appendZone]
  split_ifs with hzero hneg
  · rw [hzero]
    rfl
  · rw [zone_of_sign (Or.inr rfl) h, if_neg (by decide)]
    congr 2
    omega
  · rw [zone_of_sign (Or.inl rfl) h, if_pos rfl]
    congr 2
    omega

section Chunks

variable {year hour minute second nanosecond : Nat} {month day : Option Nat} {offset : Int}
  {cs : List Char}

theorem readChunk_literal (c : Char) :
    readChunk ⟨year, month, day, hour, minute, second, nanosecond, offset, c :: cs⟩ (.literal c) =
      some ⟨year, month, day, hour, minute, second, nanosecond, offset, cs⟩ := by
  rw [readChunk]
  exact if_pos rfl

/-- And a year of four digits. -/
theorem readChunk_longYear {n : Nat} (h : n < 10000) :
    readChunk ⟨year, month, day, hour, minute, second, nanosecond, offset, appendInt n 4 ++ cs⟩
      .longYear = some ⟨n, month, day, hour, minute, second, nanosecond, offset, cs⟩ := by
  have hlen : (appendInt n 4).length = 4 := length_appendInt (by omega) (by omega)
  have htake : (appendInt n 4 ++ cs).take 4 = appendInt n 4 := by
    rw [List.take_append_of_le_length (by omega), List.take_of_length_le (by omega)]
  have hdrop : (appendInt n 4 ++ cs).drop 4 = cs := by
    rw [List.drop_append_of_le_length (by omega), List.drop_of_length_le (by omega),
      List.nil_append]
  have hall : (appendInt n 4).all Char.isDigit = true :=
    List.all_eq_true.mpr fun c hc => isDigit_of_mem_appendInt hc
  rw [readChunk]
  simp only [htake, hdrop, hlen, hall, ofDigitChars_appendInt, and_self, if_true]

theorem readChunk_zeroMonth {n : Nat} (h : 1 ≤ n ∧ n ≤ 12) :
    readChunk ⟨year, month, day, hour, minute, second, nanosecond, offset, appendInt n 2 ++ cs⟩
      .zeroMonth = some ⟨year, some n, day, hour, minute, second, nanosecond, offset, cs⟩ := by
  rw [readChunk, getnum_appendInt (by omega)]
  exact if_neg (by omega)

theorem readChunk_zeroDay {n : Nat} (h : n < 100) :
    readChunk ⟨year, month, day, hour, minute, second, nanosecond, offset, appendInt n 2 ++ cs⟩
      .zeroDay = some ⟨year, month, some n, hour, minute, second, nanosecond, offset, cs⟩ := by
  rw [readChunk, getnum_appendInt h]
  rfl

theorem readChunk_hour {n : Nat} (h : n < 24) :
    readChunk ⟨year, month, day, hour, minute, second, nanosecond, offset, appendInt n 2 ++ cs⟩
      .hour = some ⟨year, month, day, n, minute, second, nanosecond, offset, cs⟩ := by
  rw [readChunk, getnum_appendInt (by omega)]
  exact if_neg (by omega)

theorem readChunk_zeroMinute {n : Nat} (h : n < 60) :
    readChunk ⟨year, month, day, hour, minute, second, nanosecond, offset, appendInt n 2 ++ cs⟩
      .zeroMinute = some ⟨year, month, day, hour, n, second, nanosecond, offset, cs⟩ := by
  rw [readChunk, getnum_appendInt (by omega)]
  exact if_neg (by omega)

/-- The seconds, with the part of a second behind them. -/
theorem readChunk_zeroSecond {n nanos : Nat} (h : n < 60) {rest : List Char}
    (hfraction : fraction cs = (nanos, rest)) :
    readChunk ⟨year, month, day, hour, minute, second, nanosecond, offset, appendInt n 2 ++ cs⟩
      .zeroSecond = some ⟨year, month, day, hour, minute, n, nanos, offset, rest⟩ := by
  rw [readChunk, getnum_appendInt (by omega)]
  simp only [Option.bind_eq_bind, Option.bind_some, hfraction]
  exact if_neg (by omega)

theorem readChunk_zone :
    readChunk ⟨year, month, day, hour, minute, second, nanosecond, offset, cs⟩ .iso8601ColonTZ =
      (zone cs).map fun read =>
        ⟨year, month, day, hour, minute, second, nanosecond, read.1, read.2⟩ := by
  rw [readChunk]
  cases zone cs <;> rfl

end Chunks

theorem chunks_rfc3339 : chunks rfc3339 =
    [.longYear, .literal '-', .zeroMonth, .literal '-', .zeroDay, .literal 'T', .hour, .literal ':',
      .zeroMinute, .literal ':', .zeroSecond, .iso8601ColonTZ] := rfl

/-- What was written is read again up to the zone. -/
theorem parse_format_eq {t : GoTime} (ht : t.Valid) (nanos : Bool) :
    parse rfc3339 (t.format nanos) = (zone (appendZone t.offset)).bind fun read =>
      if read.2 ≠ [] then none
      else some { t with nanosecond := if nanos then t.nanosecond else 0, offset := read.1 } := by
  have hday : t.day ≤ 31 := by
    refine ht.day.2.trans ?_
    unfold daysIn
    split_ifs <;> omega
  -- seconds are read with a part of a second, whether one was written or not
  have hfraction :
      fraction ((if nanos then appendNano t.nanosecond else []) ++ appendZone t.offset) =
      (if nanos then t.nanosecond else 0, appendZone t.offset) := by
    cases nanos with
    | true => exact fraction_append ht.nanosecond (head_appendZone t.offset)
    | false => exact @fraction_append 0 (by omega) _ (head_appendZone t.offset)
  rw [parse, chunks_rfc3339, format]
  simp only [List.append_assoc, List.cons_append, List.foldlM_cons, List.foldlM_nil,
    readChunk_longYear ht.year, readChunk_literal, readChunk_zeroMonth ht.month,
    readChunk_zeroDay (show t.day < 100 by omega), readChunk_hour ht.hour,
    readChunk_zeroMinute ht.minute, readChunk_zeroSecond ht.second hfraction,
    readChunk_zone, Option.bind_eq_bind, Option.bind_some]
  cases zone (appendZone t.offset) with
  | none => rfl
  | some read =>
    show (if read.2 ≠ [] then none
      else if t.day < 1 ∨ daysIn t.month t.year < t.day then none else some _) = _
    rw [if_neg (show ¬(t.day < 1 ∨ daysIn t.month t.year < t.day) by have hdays := ht.day; omega)]
    rfl

/-- **What was written** is read again, in whole seconds if the rest was not written. -/
theorem parse_format {t : GoTime} (ht : t.Valid) (hoffset : t.offset.natAbs < 25 * 60)
    (nanos : Bool) : parse rfc3339 (t.format nanos) =
      some { t with nanosecond := if nanos then t.nanosecond else 0 } := by
  rw [parse_format_eq ht, zone_appendZone hoffset]
  rfl

/-- A zone of a day and sixty minutes is written as twenty-five hours, which are refused. -/
theorem parse_format_eq_none {t : GoTime} (ht : t.Valid) (hoffset : 25 * 60 ≤ t.offset.natAbs)
    (nanos : Bool) : parse rfc3339 (t.format nanos) = none := by
  have hzone : zone (appendZone t.offset) = none := by
    have hbound := ht.offset
    have hoffset : t.offset = 1500 ∨ t.offset = -1500 := by omega
    rcases hoffset with hoffset | hoffset <;> rw [hoffset] <;> decide
  rw [parse_format_eq ht, hzone]
  rfl

/-- A time that is written is longer than RFC 3339 before the zone. -/
theorem lt_length_format {t : GoTime} (ht : t.Valid) (nanos : Bool) :
    19 < (t.format nanos).length := by
  have hday : t.day ≤ 31 := by
    refine ht.day.2.trans ?_
    unfold daysIn
    split_ifs <;> omega
  have hzone : 0 < (appendZone t.offset).length := by
    unfold appendZone
    split_ifs <;> simp
  have hyear := @length_appendInt t.year 4 (by omega) ht.year
  have hmonth := @length_appendInt t.month 2 (by omega) (by have := ht.month.2; omega)
  have hday := @length_appendInt t.day 2 (by omega) (by omega)
  have hhour := @length_appendInt t.hour 2 (by omega) (by have := ht.hour; omega)
  have hminute := @length_appendInt t.minute 2 (by omega) (by have := ht.minute; omega)
  have hsecond := @length_appendInt t.second 2 (by omega) (by have := ht.second; omega)
  rw [format]
  simp only [List.length_append, List.length_cons, hyear, hmonth, hday, hhour, hminute, hsecond]
  omega

end GoTime

end WptFyi.Lib
