import WptFyi.Webapp.ProductInfo

/-!
# Specs as the UI prints them

A product whose parts have none of the characters that separate them is read back
as it was printed, also after its labels were filtered or added to. The parser cuts at the first
of each separator, so the printed spec is cut where it was joined; labels that are equal are read
once, and a version that is not there is not printed.

- `Printable`: the parts of the product can be told apart in its spec;
- `parseProductSpec_getSpec`: reading back what was printed.
-/

namespace WptFyi.Webapp

open Lib.GoStrings

namespace UIProduct

/-- The parts of the product can be told apart in its spec. -/
structure Printable (p : UIProduct) : Prop where
  browser_name : p.browser_name ≠ "" ∧ '-' ∉ p.browser_name.toList ∧
    '[' ∉ p.browser_name.toList ∧ '@' ∉ p.browser_name.toList
  browser_version : ∀ version, p.browser_version = some version →
    version ≠ "" ∧ '[' ∉ version.toList ∧ '@' ∉ version.toList
  labels : p.labels.Nodup ∧ ∀ label ∈ p.labels, ',' ∉ label.toList ∧ '@' ∉ label.toList
  revision : p.revision ≠ "latest"

/-- The spec up to the labels. -/
def named (p : UIProduct) : String :=
  if p.browser_version.getD "" ≠ "" then p.browser_name ++ "-" ++ p.browser_version.getD ""
  else p.browser_name

/-- The spec up to the revision. -/
def labelled (p : UIProduct) : String :=
  if p.labels ≠ [] then p.named ++ "[" ++ join p.labels ',' ++ "]" else p.named

theorem getSpec_eq (p : UIProduct) : getSpec p =
    if p.revision ≠ "" ∧ !computeIsLatest p.revision then p.labelled ++ "@" ++ p.revision
    else p.labelled := rfl

variable {p : UIProduct}

/-- A character that separates is in no part before it. -/
theorem notMem_named (h : p.Printable) {c : Char} (hc : c = '[' ∨ c = '@') :
    c ∉ p.named.toList := by
  have hname : c ∉ p.browser_name.toList := by
    rcases hc with rfl | rfl
    · exact h.browser_name.2.2.1
    · exact h.browser_name.2.2.2
  have hdash : c ∉ "-".toList := by rcases hc with rfl | rfl <;> decide
  unfold named
  split_ifs with hversion
  · cases hsome : p.browser_version with
    | none => simp [hsome] at hversion
    | some version =>
      have hmem : c ∉ version.toList := by
        rcases hc with rfl | rfl
        · exact (h.browser_version version hsome).2.1
        · exact (h.browser_version version hsome).2.2
      rw [Option.getD_some, String.toList_append, String.toList_append, List.mem_append,
        List.mem_append]
      tauto
  · exact hname

theorem at_notMem_labelled (h : p.Printable) : '@' ∉ p.labelled.toList := by
  have hnamed := notMem_named h (c := '@') (Or.inr rfl)
  unfold labelled
  split_ifs
  · have hjoin : '@' ∉ (join p.labels ',').toList :=
      notMem_join (by decide) fun label hlabel => (h.labels.2 label hlabel).2
    simp [String.toList_append, hnamed, hjoin]
  · exact hnamed

theorem named_ne_empty (h : p.Printable) : p.named ≠ "" := by
  intro hempty
  refine h.browser_name.1 ?_
  unfold named at hempty
  split_ifs at hempty
  · simpa using congrArg String.toList hempty
  · exact hempty

theorem parseProduct_named (h : p.Printable) :
    parseProduct p.named = (p.browser_name, p.browser_version) := by
  obtain ⟨hne, hdash, _⟩ := h.browser_name
  unfold named parseProduct
  cases hsome : p.browser_version with
  | none =>
    rw [if_neg (by simp), cutAt_of_notMem hdash]
  | some version =>
    rw [Option.getD_some, if_pos (h.browser_version version hsome).1,
      show "-" = String.singleton '-' from rfl, cutAt_append hdash hne]

/-- Distinct labels are all kept. -/
theorem uniqueLabels_of_nodup {labels : List String} (h : labels.Nodup) :
    uniqueLabels labels = labels := by
  have hfold : ∀ seen : List String, (seen ++ labels).Nodup →
      labels.foldl (fun seen label => if label ∈ seen then seen else seen ++ [label]) seen =
        seen ++ labels := by
    clear h
    induction labels with
    | nil => simp
    | cons label labels ih =>
      intro seen hnodup
      have hnew : label ∉ seen := fun hmem =>
        (List.nodup_append.mp hnodup).2.2 label hmem label List.mem_cons_self rfl
      rw [List.foldl_cons, if_neg hnew, ih _ (by simpa using hnodup)]
      simp
  exact hfold [] h

/-- **Reading back** what was printed. -/
theorem parseProductSpec_getSpec (h : p.Printable) : parseProductSpec (getSpec p) = .ok p := by
  -- only the revision is printed with an `@`, so the first one cuts it off
  have hcut : (cutAt (getSpec p) '@').getD (getSpec p, "") = (p.labelled, p.revision) := by
    rw [getSpec_eq]
    by_cases hrevision : p.revision = ""
    · rw [hrevision, if_neg (by simp), cutAt_of_notMem (at_notMem_labelled h)]
      rfl
    · have hprinted : p.revision ≠ "" ∧ (!computeIsLatest p.revision) = true := by
        simp [computeIsLatest, hrevision, h.revision]
      have hne : p.labelled ≠ "" := by
        intro hempty
        refine named_ne_empty h ?_
        unfold labelled at hempty
        split_ifs at hempty
        · simpa using congrArg String.toList hempty
        · exact hempty
      rw [if_pos hprinted, show "@" = String.singleton '@' from rfl,
        cutAt_append (at_notMem_labelled h) hne]
      rfl
  unfold parseProductSpec
  rw [hcut]
  simp only
  unfold labelled
  by_cases hlabels : p.labels = []
  · rw [if_neg (not_not.mpr hlabels), cutAt_of_notMem (notMem_named h (Or.inl rfl))]
    simp only
    rw [parseProduct_named h]
    cases p
    simp_all
  · have hlist : (join p.labels ',' ++ "]").toList = (join p.labels ',').toList ++ [']'] := by
      simp [String.toList_append]
    rw [if_pos hlabels, show p.named ++ "[" ++ join p.labels ',' ++ "]" =
      p.named ++ String.singleton '[' ++ (join p.labels ',' ++ "]") by simp [String.append_assoc],
      cutAt_append (notMem_named h (Or.inl rfl)) (named_ne_empty h)]
    simp only
    rw [hlist, if_neg (by simp), List.dropLast_concat, String.ofList_toList,
      split_join hlabels fun label hlabel => (h.labels.2 label hlabel).1,
      uniqueLabels_of_nodup h.labels.1, parseProduct_named h]

/-- Other labels can be told apart just as well. -/
theorem Printable.withLabels (h : p.Printable) {labels : List String} (hnodup : labels.Nodup)
    (hlabels : ∀ label ∈ labels, ',' ∉ label.toList ∧ '@' ∉ label.toList) :
    ({ p with labels } : UIProduct).Printable :=
  ⟨h.browser_name, h.browser_version, ⟨hnodup, hlabels⟩, h.revision⟩

end UIProduct

end WptFyi.Webapp
