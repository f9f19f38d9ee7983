import Mathlib

/-!
# Base64 as Go's `encoding/base64` has it

`base64.URLEncoding`: the alphabet for URLs, with padding.

A text is encoded three bytes at a time as four digits of six bits, and the last one or two bytes as
fewer digits with padding. Decoding skips line breaks, wherever they are, before it looks at the
quanta; a text that was encoded has none, so that the inverse goes quantum by quantum.

- `encode`, `decode`: the two functions of an encoding on bytes;
- `decodeDigit_encodeDigit`: one digit;
- `decode_encode`: what was encoded is decoded again.
-/

namespace WptFyi.Lib.Base64

/-- `encodeURL`. -/
def alphabet : List Char :=
  "ABCDEFGHIJKLMNOPQRSTUVWXYZabcdefghijklmnopqrstuvwxyz0123456789-_".toList

def encodeDigit (n : Nat) : Char := alphabet.getD n 'A'

def decodeDigit (c : Char) : Option Nat :=
  if c ∈ alphabet then some (alphabet.idxOf c) else none

/-- `EncodeToString`: four digits for three bytes. -/
def encode : List UInt8 → List Char
  | [] => []
  | [a] => [encodeDigit (a.toNat / 4), encodeDigit (a.toNat % 4 * 16), '=', '=']
  | [a, b] =>
    [encodeDigit (a.toNat / 4), encodeDigit (a.toNat % 4 * 16 + b.toNat / 16),
      encodeDigit (b.toNat % 16 * 4), '=']
  | a :: b :: c :: bs =>
    encodeDigit (a.toNat / 4) :: encodeDigit (a.toNat % 4 * 16 + b.toNat / 16) ::
      encodeDigit (b.toNat % 16 * 4 + c.toNat / 64) :: encodeDigit (c.toNat % 64) :: encode bs

/-- The bytes of digits, as far as they are whole. -/
def bytesOfDigits (digits : List Nat) : List UInt8 :=
  let n := digits.foldl (fun n d => 64 * n + d) 0
  match digits with
  | [_, _, _, _] => [UInt8.ofNat (n / 65536), UInt8.ofNat (n / 256), UInt8.ofNat n]
  | [_, _, _] => [UInt8.ofNat (n / 1024), UInt8.ofNat (n / 4)]
  | [_, _] => [UInt8.ofNat (n / 16)]
  | _ => []

/-- Quanta of four digits, the last one with padding. -/
def decodeQuanta : List Char → Option (List UInt8)
  | [] => some []
  | a :: b :: c :: d :: cs =>
    if d = '=' then
      -- nothing comes after padding
      if cs ≠ [] then none
      else if c = '=' then ([a, b].mapM decodeDigit).map bytesOfDigits
      else ([a, b, c].mapM decodeDigit).map bytesOfDigits
    else do
      let digits ← [a, b, c, d].mapM decodeDigit
      let bytes ← decodeQuanta cs
      return bytesOfDigits digits ++ bytes
  | _ => none

/-- `DecodeString`: line breaks are skipped. -/
def decode (cs : List Char) : Option (List UInt8) :=
  decodeQuanta (cs.filter fun c => c ≠ '\r' && c ≠ '\n')

theorem decodeDigit_encodeDigit {n : Nat} (h : n < 64) :
    decodeDigit (encodeDigit n) = some n := by
  have hall : ∀ n < 64, decodeDigit (encodeDigit n) = some n := by decide +kernel
  exact hall n h

theorem encodeDigit_plain {n : Nat} (h : n < 64) :
    encodeDigit n ≠ '=' ∧ encodeDigit n ≠ '\r' ∧ encodeDigit n ≠ '\n' := by
  have hall : ∀ n < 64,
      encodeDigit n ≠ '=' ∧ encodeDigit n ≠ '\r' ∧ encodeDigit n ≠ '\n' := by decide +kernel
  exact hall n h

theorem mapM_decodeDigit {digits : List Nat} (h : ∀ n ∈ digits, n < 64) :
    (digits.map encodeDigit).mapM decodeDigit = some digits := by
  induction digits with
  | nil => rfl
  | cons n digits ih =>
    obtain ⟨hn, hdigits⟩ := List.forall_mem_cons.mp h
    rw [List.map_cons, List.mapM_cons, decodeDigit_encodeDigit hn, ih hdigits]
    rfl

/-- Quantum by quantum, with the padding at the end. -/
theorem decodeQuanta_encode (bs : List UInt8) : decodeQuanta (encode bs) = some bs := by
  induction bs using encode.induct with
  | case1 => rfl
  | case2 a =>
    have ha := a.toNat_lt
    have hdigits := @mapM_decodeDigit [a.toNat / 4, a.toNat % 4 * 16] (by simp; omega)
    have hbyte : (64 * (a.toNat / 4) + a.toNat % 4 * 16) / 16 = a.toNat := by omega
    rw [encode, decodeQuanta, if_pos rfl, if_neg (by simp), if_pos rfl]
    refine (congrArg (Option.map bytesOfDigits) hdigits).trans ?_
    simp [bytesOfDigits, hbyte]
  | case3 a b =>
    have ha := a.toNat_lt
    have hb := b.toNat_lt
    have hdigits := @mapM_decodeDigit
      [a.toNat / 4, a.toNat % 4 * 16 + b.toNat / 16, b.toNat % 16 * 4] (by simp; omega)
    have hplain := @encodeDigit_plain (b.toNat % 16 * 4) (by omega)
    rw [encode, decodeQuanta, if_pos rfl, if_neg (by simp), if_neg hplain.1]
    refine (congrArg (Option.map bytesOfDigits) hdigits).trans ?_
    rw [Option.map_some, bytesOfDigits]
    congr 1
    refine congrArg₂ (fun x y : UInt8 => [x, y]) (UInt8.toNat_inj.mp ?_) (UInt8.toNat_inj.mp ?_)
    all_goals
      simp only [List.foldl_cons, List.foldl_nil, UInt8.toNat_ofNat']
      omega
  | case4 a b c bs ih =>
    have ha := a.toNat_lt
    have hb := b.toNat_lt
    have hc := c.toNat_lt
    have hdigits := @mapM_decodeDigit
      [a.toNat / 4, a.toNat % 4 * 16 + b.toNat / 16, b.toNat % 16 * 4 + c.toNat / 64, c.toNat % 64]
      (by simp; omega)
    have hplain := @encodeDigit_plain (c.toNat % 64) (by omega)
    have hbytes : bytesOfDigits [a.toNat / 4, a.toNat % 4 * 16 + b.toNat / 16,
        b.toNat % 16 * 4 + c.toNat / 64, c.toNat % 64] = [a, b, c] := by
      refine congrArg₂ (fun (x : UInt8) (xs : List UInt8) => x :: xs) (UInt8.toNat_inj.mp ?_)
        (congrArg₂ (fun x y : UInt8 => [x, y]) (UInt8.toNat_inj.mp ?_) (UInt8.toNat_inj.mp ?_))
      all_goals
        simp only [List.foldl_cons, List.foldl_nil, UInt8.toNat_ofNat']
        omega
    rw [encode, decodeQuanta, if_neg hplain.1, ih]
    rw [List.map_cons, List.map_cons, List.map_cons, List.map_cons, List.map_nil] at hdigits
    rw [hdigits]
    simp [hbytes]

/-- No digit is a line break, and those are all that decoding skips. -/
theorem encode_plain (bs : List UInt8) : ∀ c ∈ encode bs, c ≠ '\r' ∧ c ≠ '\n' := by
  induction bs using encode.induct with
  | case1 => exact fun c hc => absurd hc List.not_mem_nil
  | case2 a =>
    have ha := a.toNat_lt
    have h₁ := @encodeDigit_plain (a.toNat / 4) (by omega)
    have h₂ := @encodeDigit_plain (a.toNat % 4 * 16) (by omega)
    simp [encode, h₁.2, h₂.2]
  | case3 a b =>
    have ha := a.toNat_lt
    have hb := b.toNat_lt
    have h₁ := @encodeDigit_plain (a.toNat / 4) (by omega)
    have h₂ := @encodeDigit_plain (a.toNat % 4 * 16 + b.toNat / 16) (by omega)
    have h₃ := @encodeDigit_plain (b.toNat % 16 * 4) (by omega)
    simp [encode, h₁.2, h₂.2, h₃.2]
  | case4 a b c bs ih =>
    have ha := a.toNat_lt
    have hb := b.toNat_lt
    have hc := c.toNat_lt
    have h₁ := @encodeDigit_plain (a.toNat / 4) (by omega)
    have h₂ := @encodeDigit_plain (a.toNat % 4 * 16 + b.toNat / 16) (by omega)
    have h₃ := @encodeDigit_plain (b.toNat % 16 * 4 + c.toNat / 64) (by omega)
    have h₄ := @encodeDigit_plain (c.toNat % 64) (by omega)
    rw [encode]
    simp only [List.forall_mem_cons]
    exact ⟨h₁.2, h₂.2, h₃.2, h₄.2, ih⟩

/-- **What was encoded** is decoded again. -/
theorem decode_encode (bs : List UInt8) : decode (encode bs) = some bs := by
  have hfilter : (encode bs).filter (fun c => c ≠ '\r' && c ≠ '\n') = encode bs := by
    rw [List.filter_eq_self]
    intro c hc
    simp [encode_plain bs c hc]
  rw [decode, hfilter, decodeQuanta_encode]

end WptFyi.Lib.Base64
