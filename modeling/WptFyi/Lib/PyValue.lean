import Mathlib

/-!
# JSON values in Python

What Python's `json.load` makes of a JSON text, and when `==` holds between two
of these values. NaN, which is no JSON, is left out.

Python's `==` is coarser than identity: `True == 1`, `1 == 1.0`, and dicts are equal whatever the
order of their entries. The program keeps one of two values that are `==`, so which one it keeps
can show in its output though no comparison tells. Each value has a canonical one here, and `==` is
identity of those; so it is an equivalence without a proof by cases over pairs of values, and a set
of values up to `==` is a set of canonical ones.

- `PyValue`: a value; equality of the type is identity of the values;
- `PyValue.canon`: one value for all that are `==`;
- `PyValue.eq`: Python's `==`.
-/

namespace WptFyi.Lib

/-- A number is its value: Python compares integers and floats exactly, and a float
literal out of range is read as an infinity. -/
abbrev PyNumber := WithBot (WithTop ℚ)

/-- A JSON value. The keys of a dict are distinct: of equal keys the last one is read. -/
inductive PyValue where
  | none
  | bool (b : Bool)
  | number (x : PyNumber)
  | str (s : String)
  | list (elems : List PyValue)
  | dict (entries : List (String × PyValue))

namespace PyValue

mutual
/-- Whether two values are written alike. -/
def alike : PyValue → PyValue → Bool
  | .none, .none => true
  | .bool a, .bool b => a == b
  | .number x, .number y => x == y
  | .str s, .str t => s == t
  | .list vs, .list ws => alikeElems vs ws
  | .dict es, .dict fs => alikeEntries es fs
  | _, _ => false

def alikeElems : List PyValue → List PyValue → Bool
  | [], [] => true
  | v :: vs, w :: ws => alike v w && alikeElems vs ws
  | _, _ => false

def alikeEntries : List (String × PyValue) → List (String × PyValue) → Bool
  | [], [] => true
  | (k, v) :: es, (k', w) :: fs => k == k' && alike v w && alikeEntries es fs
  | _, _ => false
end

mutual
theorem alike_iff : ∀ v w : PyValue, alike v w = true ↔ v = w
  | .none, w => by cases w <;> simp [alike]
  | .bool a, w => by cases w <;> simp [alike]
  | .number x, w => by cases w <;> simp [alike]
  | .str s, w => by cases w <;> simp [alike]
  | .list vs, w => by cases w <;> simp [alike, alikeElems_iff vs]
  | .dict es, w => by cases w <;> simp [alike, alikeEntries_iff es]

theorem alikeElems_iff : ∀ vs ws : List PyValue, alikeElems vs ws = true ↔ vs = ws
  | [], ws => by cases ws <;> simp [alikeElems]
  | v :: vs, [] => by simp [alikeElems]
  | v :: vs, w :: ws => by simp [alikeElems, alike_iff v w, alikeElems_iff vs ws]

theorem alikeEntries_iff : ∀ es fs : List (String × PyValue), alikeEntries es fs = true ↔ es = fs
  | [], fs => by cases fs <;> simp [alikeEntries]
  | (k, v) :: es, [] => by simp [alikeEntries]
  | (k, v) :: es, (k', w) :: fs => by
    simp [alikeEntries, alike_iff v w, alikeEntries_iff es fs, and_assoc]
end

instance : DecidableEq PyValue := fun v w => decidable_of_iff _ (alike_iff v w)

/-! ## Python's equality -/

mutual
/-- A boolean is the number 0 or 1, and the order of a dict's entries does not count. -/
def canon : PyValue → PyValue
  | .bool b => .number (if b then 1 else 0 : ℚ)
  | .list elems => .list (canonElems elems)
  | .dict entries => .dict ((canonEntries entries).insertionSort fun e e' => e.1 ≤ e'.1)
  | v => v

def canonElems : List PyValue → List PyValue
  | [] => []
  | v :: vs => v.canon :: canonElems vs

def canonEntries : List (String × PyValue) → List (String × PyValue)
  | [] => []
  | (k, v) :: es => (k, v.canon) :: canonEntries es
end

/-- Python's `==`. -/
def eq (v w : PyValue) : Bool := decide (v.canon = w.canon)

theorem eq_iff {v w : PyValue} : eq v w = true ↔ v.canon = w.canon := decide_eq_true_iff

/-- Only `None` is equal to `None`. -/
theorem eq_none_of_canon {v : PyValue} (h : v.canon = none) : v = none := by
  cases v with
  | none => rfl
  | bool b => simp [canon] at h
  | number x => simp [canon] at h
  | str s => simp [canon] at h
  | list elems => simp [canon] at h
  | dict entries => simp [canon] at h

example :
    eq (.dict [("a", .bool true), ("b", .none)])
      (.dict [("b", .none), ("a", .number (1 : ℚ))]) := by
  decide +kernel

end PyValue

end WptFyi.Lib
