import WptFyi.Lib.GoStrings

/-!
# Products in the web UI (`webapp/components/product-info.js`)

The UI has a parser for product specs of its own. It cuts at the first `@`, at
the first `[` and at the first `-`, wherever they are; it knows no operating
systems and no browsers. It never fails on a text with a name in it, so a spec that the
server rejects is still a product on the page.

- `parseProductSpec`, `parseProduct`: the parser;
- `getSpec`: the spec printed again;
- `uniqueLabels`: the labels once each, in the order of their first occurrence.
-/

namespace WptFyi.Webapp

open Lib.GoStrings

/-- `DefaultProductSpecs`. -/
def defaultProductSpecs : List String := ["chrome", "edge", "firefox", "safari"]

/-- `Channels`. -/
def channels : List String := ["stable", "beta", "experimental"]

/-- A product object; an undefined version is `none`. -/
structure UIProduct where
  browser_name : String
  browser_version : Option String
  labels : List String
  revision : String
deriving DecidableEq

/-- Cut at the first such character, unless the string starts with it: what
`indexOf(c) > 0` and the two `substr` calls do. -/
def cutAt (s : String) (c : Char) : Option (String × String) :=
  let i := s.toList.idxOf c
  if 0 < i ∧ i < s.toList.length then
    some (String.ofList (s.toList.take i), String.ofList (s.toList.drop (i + 1)))
  else none

/-- The loop over the labels: the first of equal ones stays. -/
def uniqueLabels (labels : List String) : List String :=
  labels.foldl (fun seen label => if label ∈ seen then seen else seen ++ [label]) []

/-- `parseProduct`. -/
def parseProduct (name : String) : String × Option String :=
  match cutAt name '-' with
  | some (name, version) => (name, some version)
  | none => (name, none)

/-- `parseProductSpec`. -/
def parseProductSpec (spec : String) : Except String UIProduct :=
  let (spec, revision) := (cutAt spec '@').getD (spec, "")
  match cutAt spec '[' with
  | some (spec, labelsStr) =>
    if labelsStr.toList.getLast? ≠ some ']' then .error "Expected closing bracket"
    else
      let labels := uniqueLabels (split (String.ofList labelsStr.toList.dropLast) ',')
      let (browser_name, browser_version) := parseProduct spec
      .ok { browser_name, browser_version, labels, revision }
  | none =>
    let (browser_name, browser_version) := parseProduct spec
    .ok { browser_name, browser_version, labels := [], revision }

/-- `computeIsLatest` of one SHA. -/
def computeIsLatest (sha : String) : Bool := sha == "" || sha == "latest"

/-- `getSpec`, with the revision. -/
def getSpec (product : UIProduct) : String :=
  let spec := product.browser_name
  let version := product.browser_version.getD ""
  let spec := if version ≠ "" then spec ++ "-" ++ version else spec
  let spec := if product.labels ≠ [] then spec ++ "[" ++ join product.labels ',' ++ "]" else spec
  if product.revision ≠ "" ∧ !computeIsLatest product.revision then spec ++ "@" ++ product.revision
  else spec

/-! ## Cutting -/

section Cut

variable {s a b : String} {c : Char}

theorem cutAt_of_notMem (h : c ∉ s.toList) : cutAt s c = none := by
  rw [cutAt, List.idxOf_eq_length_iff.mpr h]
  exact if_neg fun hlt => lt_irrefl _ hlt.2

/-- The first such character, after something. -/
theorem cutAt_append (ha : c ∉ a.toList) (hne : a ≠ "") :
    cutAt (a ++ String.singleton c ++ b) c = some (a, b) := by
  have hlist : (a ++ String.singleton c ++ b).toList = a.toList ++ c :: b.toList := by
    simp [String.toList_append]
  have hidx : (a.toList ++ c :: b.toList).idxOf c = a.toList.length := by
    rw [List.idxOf_append_of_notMem ha, List.idxOf_cons_self, Nat.add_zero]
  have hpos : 0 < a.toList.length := by
    rw [List.length_pos_iff]
    intro hnil
    exact hne (String.toList_inj.mp hnil)
  unfold cutAt
  rw [hlist, hidx]
  simp only
  rw [if_pos ⟨hpos, by simp⟩, List.take_left, List.drop_length_add_append, List.drop_one,
    List.tail_cons, String.ofList_toList, String.ofList_toList]

end Cut

/-! ## The labels once each -/

/-- The loop keeps every label. -/
theorem mem_foldl_uniqueLabels (labels seen : List String) (label : String) :
    label ∈ labels.foldl (fun seen label => if label ∈ seen then seen else seen ++ [label]) seen ↔
      label ∈ seen ∨ label ∈ labels := by
  induction labels generalizing seen with
  | nil => simp
  | cons next labels ih =>
    rw [List.foldl_cons, ih]
    by_cases hmem : next ∈ seen
    · rw [if_pos hmem, List.mem_cons]
      constructor
      · tauto
      · rintro (h | rfl | h)
        · exact Or.inl h
        · exact Or.inl hmem
        · exact Or.inr h
    · rw [if_neg hmem, List.mem_append, List.mem_singleton, List.mem_cons, or_assoc]

theorem mem_uniqueLabels {labels : List String} {label : String} :
    label ∈ uniqueLabels labels ↔ label ∈ labels := by
  rw [uniqueLabels, mem_foldl_uniqueLabels, or_iff_right List.not_mem_nil]

end WptFyi.Webapp
