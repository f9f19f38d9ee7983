import WptFyi.Cache.Filter
import WptFyi.Shared.Metadata

/-!
# Wildcard metadata and the root (`cache/index/filter.go`)

A key `folder/*` of a metadata map is about all tests below its folder. The
filters `Link` and `Triaged` take the nearest entry above a test, `TestLabel`
takes all of them, and each has its own copy of a loop that strips one
directory after the other. The loops stop when one byte is left, which is
before they have asked for the key of the root.

The loops are not structurally recursive: they go from a path to `filepath.Dir` of it, which cleans
the path as well. They are modelled turn by turn, with a number of turns that may not suffice, and
the first theorems say that the length of the path does, so that the loops end and the shorter
definitions of `Filter` are what they compute. The specification side walks over the directories
above a test, the root included, whose key is `/*` as `GetWPTTestPath` makes it; in the source that
key is written by one function and never asked for by the others.

- `stripForEntry`, `stripForLabels`: the loops turn by turn, with the proofs
  that they end and leave what `Filter` reads off at once;
- `wildcardKey`: the key that `GetWPTTestPath` gives the wildcard of a directory;
- `nearestEntry`, `labelsAbove`: what the entries say, the root's included;
- `wildcardFilters_iff`: the tests for which the filters go by that.
-/

namespace WptFyi.Cache

open Lib Lib.GoStrings Lib.FilePath Query Shared

/-! ## The loops

Both loops strip the last part of a name again and again. They end at the root, which they do not
look up. -/

/-- The loop of `Link` and `Triaged` from `val, ok := metadata[name]` on, in so
many turns; `none` when they do not suffice. -/
def stripForEntry (metadata : MetadataMap) :
    Nat → Option (List String) → String → Option (Option (List String))
  | 0, _, _ => none
  | turns + 1, val, d =>
    if val.isNone ∧ 1 < byteLen d then
      match metadata.lookup (d ++ "/*") with
      | some urls => some (some urls)
      | none => stripForEntry metadata turns none (dir d)
    else some val

/-- The loop of `TestLabel`, in so many turns. -/
def stripForLabels (metadata : MetadataMap) :
    Nat → List String → String → Option (List String)
  | 0, _, _ => none
  | turns + 1, labels, d =>
    if 1 < byteLen d then
      stripForLabels metadata turns (labels ++ (metadata.lookup (d ++ "/*")).getD []) (dir d)
    else some labels

/-- The loop without a file name: the first of the directories from `d` upwards that has an entry.
-/
theorem stripForEntry_none (metadata : MetadataMap) {turns : Nat} {d : String}
    (hturns : byteLen d < turns) :
    stripForEntry metadata turns none d =
      some ((ancestors d).findSome? fun d => metadata.lookup (d ++ "/*")) := by
  induction turns generalizing d with
  | zero => omega
  | succ turns ih =>
    rw [stripForEntry, ancestors_eq]
    by_cases hlong : 1 < byteLen d
    · rw [if_pos ⟨rfl, hlong⟩, if_pos hlong, List.findSome?_cons]
      cases metadata.lookup (d ++ "/*") with
      | some urls => rfl
      | none =>
        have hdir := byteLen_dir_le d
        exact ih (by omega)
    · rw [if_neg fun h => hlong h.2, if_neg hlong]
      rfl

/-- **The loop of `Link` and `Triaged` ends** in fewer turns than the directory
has bytes, and one more, with the entry that decides. -/
theorem stripForEntry_eq (metadata : MetadataMap) (name : String) {turns : Nat}
    (hturns : byteLen (dir name) < turns) :
    stripForEntry metadata turns (metadata.lookup name) (dir name) =
      some (lookupWithWildcards metadata name) := by
  unfold lookupWithWildcards
  cases hentry : metadata.lookup name with
  | none => exact stripForEntry_none metadata hturns
  | some urls =>
    obtain ⟨n, rfl⟩ := Nat.exists_eq_add_of_lt hturns
    rw [stripForEntry, if_neg fun h => by cases h.1]

/-- **The loop of `TestLabel` ends** with the labels gathered on the way. -/
theorem stripForLabels_eq (metadata : MetadataMap) (labels : List String) {turns : Nat} {d : String}
    (hturns : byteLen d < turns) :
    stripForLabels metadata turns labels d =
      some ((ancestors d).foldl
        (fun labels d => labels ++ (metadata.lookup (d ++ "/*")).getD []) labels) := by
  induction turns generalizing labels d with
  | zero => omega
  | succ turns ih =>
    rw [stripForLabels, ancestors_eq]
    by_cases hlong : 1 < byteLen d
    · have hdir := byteLen_dir_le d
      rw [if_pos hlong, if_pos hlong, List.foldl_cons, ih _ (by omega)]
    · rw [if_neg hlong, if_neg hlong]
      rfl

/-! ## What the entries say -/

/-- The key of a directory's wildcard; the folder of the root is empty. -/
def wildcardKey (d : String) : String :=
  getWPTTestPath (String.ofList (d.toList.drop 1)) "*"

example : wildcardKey "/" = "/*" ∧ wildcardKey "/css/grid" = "/css/grid/*" := by decide

/-- The entry of a test, or else the wildcard entry of the nearest directory
above it that has one. -/
def nearestEntry (metadata : MetadataMap) (name : String) : Option (List String) :=
  match metadata.lookup name with
  | some values => some values
  | none => (directoriesAbove name).findSome? fun d => metadata.lookup (wildcardKey d)

/-- The labels of a test and of all directories above it. -/
def labelsAbove (metadata : MetadataMap) (name : String) : List String :=
  (metadata.lookup name).getD [] ++
    (directoriesAbove name).flatMap fun d => (metadata.lookup (wildcardKey d)).getD []

/-- Whether some value of the deciding entry is as asked. -/
def decides (metadata : MetadataMap) (name : String) (asked : String → Bool) : Bool :=
  ((nearestEntry metadata name).getD []).any asked

/-- The test has an entry, or a directory above it other than the root has. -/
def HasEntryBelowRoot (metadata : MetadataMap) (name : String) : Prop :=
  name ∈ metadata ∨ ∃ d ∈ directoriesAbove name, d ≠ "/" ∧ wildcardKey d ∈ metadata

/-- The test has a value as asked, or a directory above it other than the root has. -/
def HasValueBelowRoot (metadata : MetadataMap) (name : String) (asked : String → Bool) : Prop :=
  (∃ value ∈ (metadata.lookup name).getD [], asked value) ∨
    ∃ d ∈ directoriesAbove name, d ≠ "/" ∧
      ∃ value ∈ (metadata.lookup (wildcardKey d)).getD [], asked value

/-- No value of the root's wildcard is as asked. -/
def RootSilent (metadata : MetadataMap) (asked : String → Bool) : Prop :=
  ∀ value ∈ (metadata.lookup (wildcardKey "/")).getD [], asked value = false

/-! ## Below the root

Of the entries above a test two filters go by the nearest and one by all of them. The loops find
those that are below the root. -/

section BelowRoot

variable {metadata : MetadataMap} {name : String}

/-- The key of a directory's wildcard, below the root. -/
theorem wildcardKey_eq {d : String} (h : hasPrefix d "/" = true) (hlong : 1 < byteLen d) :
    wildcardKey d = d ++ "/*" := by
  obtain ⟨rest, hrest⟩ := hasPrefix_iff.mp h
  have hne : String.ofList (d.toList.drop 1) ≠ "" := by
    intro hempty
    have hnil : rest = [] := by
      have hlist := congrArg String.toList hempty
      rw [String.toList_ofList, ← hrest] at hlist
      exact hlist
    have hd : d = "/" := by rw [← String.toList_inj, ← hrest, hnil, List.append_nil]
    rw [hd, byteLen_slash] at hlong
    omega
  rw [wildcardKey, getWPTTestPath, if_neg hne, ← String.toList_inj]
  rw [String.toList_append, String.toList_append, String.toList_append, String.toList_append,
    String.toList_ofList, ← hrest]
  simp

/-- The directories above a test that the loops go through. -/
theorem mem_ancestors_dir_iff (h : hasPrefix name "/" = true) {d : String} :
    d ∈ ancestors (dir name) ↔ d ∈ directoriesAbove name ∧ d ≠ "/" := by
  have hroot : "/" ∉ ancestors (dir name) := fun hmem =>
    absurd (mem_ancestors hmem (hasPrefix_dir h)).2 (by decide)
  rw [directoriesAbove, List.mem_append, List.mem_singleton]
  constructor
  · intro hmem
    exact ⟨.inl hmem, fun heq => hroot (heq ▸ hmem)⟩
  · rintro ⟨hmem | heq, hne⟩
    · exact hmem
    · exact absurd heq hne

theorem wildcardKey_of_mem (h : hasPrefix name "/" = true) {d : String}
    (hd : d ∈ ancestors (dir name)) : wildcardKey d = d ++ "/*" :=
  let ⟨hrooted, hlong⟩ := mem_ancestors hd (hasPrefix_dir h)
  wildcardKey_eq hrooted hlong

/-- The nearest entry is what the loop finds, or else the root's. -/
theorem nearestEntry_eq (h : hasPrefix name "/" = true) :
    nearestEntry metadata name =
      (lookupWithWildcards metadata name).or (metadata.lookup (wildcardKey "/")) := by
  unfold nearestEntry lookupWithWildcards
  cases metadata.lookup name with
  | some values => rfl
  | none =>
    dsimp only
    have hbelow : ((ancestors (dir name)).findSome? fun d => metadata.lookup (wildcardKey d)) =
        (ancestors (dir name)).findSome? fun d => metadata.lookup (d ++ "/*") := by
      rw [← List.head?_filterMap, ← List.head?_filterMap]
      exact congrArg List.head? (List.filterMap_congr fun d hd => by rw [wildcardKey_of_mem h hd])
    rw [directoriesAbove, List.findSome?_append, List.findSome?_singleton, hbelow]

/-- Nothing is found exactly when neither the test nor a directory below the root has an entry. -/
theorem lookupWithWildcards_eq_none_iff (h : hasPrefix name "/" = true) :
    lookupWithWildcards metadata name = none ↔ ¬HasEntryBelowRoot metadata name := by
  unfold lookupWithWildcards HasEntryBelowRoot
  cases hentry : metadata.lookup name with
  | some values =>
    have hmem : name ∈ metadata := Finmap.mem_of_lookup_eq_some hentry
    exact iff_of_false (Option.some_ne_none values) (not_not.mpr (.inl hmem))
  | none =>
    have hnotMem : name ∉ metadata := Finmap.lookup_eq_none.mp hentry
    rw [List.findSome?_eq_none_iff]
    constructor
    · rintro hnone (hmem | ⟨d, hd, hne, hkey⟩)
      · exact hnotMem hmem
      · have hd' := (mem_ancestors_dir_iff h).mpr ⟨hd, hne⟩
        rw [wildcardKey_of_mem h hd'] at hkey
        exact Finmap.lookup_eq_none.mp (hnone d hd') hkey
    · intro hnot d hd
      obtain ⟨habove, hne⟩ := (mem_ancestors_dir_iff h).mp hd
      refine Finmap.lookup_eq_none.mpr fun hkey => hnot (.inr ⟨d, habove, hne, ?_⟩)
      rwa [wildcardKey_of_mem h hd]

/-- The labels above a test are those of the loop and those of the root. -/
theorem labelsAbove_eq (h : hasPrefix name "/" = true) :
    labelsAbove metadata name =
      (ancestors (dir name)).foldl
        (fun labels d => labels ++ (metadata.lookup (d ++ "/*")).getD [])
        ((metadata.lookup name).getD []) ++ (metadata.lookup (wildcardKey "/")).getD [] := by
  have hbelow : ((ancestors (dir name)).flatMap fun d =>
      (metadata.lookup (wildcardKey d)).getD []) =
      (ancestors (dir name)).flatMap fun d => (metadata.lookup (d ++ "/*")).getD [] :=
    List.flatMap_congr fun d hd => by rw [wildcardKey_of_mem h hd]
  rw [labelsAbove, directoriesAbove, List.flatMap_append, List.flatMap_singleton, hbelow,
    List.foldl_append_eq_append, ← List.flatMap_def, List.append_assoc]

/-- Whether a label that the loop gathers is as asked. -/
theorem any_foldl_iff (h : hasPrefix name "/" = true) (asked : String → Bool) :
    ((ancestors (dir name)).foldl
      (fun labels d => labels ++ (metadata.lookup (d ++ "/*")).getD [])
      ((metadata.lookup name).getD [])).any asked = true ↔
      HasValueBelowRoot metadata name asked := by
  rw [List.foldl_append_eq_append, ← List.flatMap_def, List.any_append, Bool.or_eq_true_iff,
    List.any_eq_true, HasValueBelowRoot, List.any_eq_true]
  refine or_congr Iff.rfl ?_
  constructor
  · rintro ⟨value, hvalue, hasked⟩
    obtain ⟨d, hd, hmem⟩ := List.mem_flatMap.mp hvalue
    obtain ⟨habove, hne⟩ := (mem_ancestors_dir_iff h).mp hd
    rw [← wildcardKey_of_mem h hd] at hmem
    exact ⟨d, habove, hne, value, hmem, hasked⟩
  · rintro ⟨d, habove, hne, value, hmem, hasked⟩
    have hd := (mem_ancestors_dir_iff h).mpr ⟨habove, hne⟩
    rw [wildcardKey_of_mem h hd] at hmem
    exact ⟨value, List.mem_flatMap.mpr ⟨d, hd, hmem⟩, hasked⟩

end BelowRoot

/-! ## When the filters go by the entries

The root wildcard is the one entry that the loops never come to, so the filters go by the entries
exactly when it would not have decided anything. -/

section Meets

variable {metadata : MetadataMap}

theorem rootSilent_iff {asked : String → Bool} :
    RootSilent metadata asked ↔
      ((metadata.lookup (wildcardKey "/")).getD []).any asked = false := by
  rw [List.any_eq_false, RootSilent]
  simp only [Bool.not_eq_true]

/-- A filter that decides by the entry that the loop finds. -/
theorem lookup_decides_iff {name : String} (h : hasPrefix name "/" = true)
    (asked : String → Bool) :
    ((lookupWithWildcards metadata name).getD []).any asked = decides metadata name asked ↔
      HasEntryBelowRoot metadata name ∨ RootSilent metadata asked := by
  rw [decides, nearestEntry_eq h, rootSilent_iff]
  cases hlookup : lookupWithWildcards metadata name with
  | some values =>
    have hentry : HasEntryBelowRoot metadata name := by
      by_contra hnot
      rw [(lookupWithWildcards_eq_none_iff h).mpr hnot] at hlookup
      cases hlookup
    exact iff_of_true rfl (.inl hentry)
  | none =>
    have hnoentry := (lookupWithWildcards_eq_none_iff h).mp hlookup
    rw [or_iff_right hnoentry]
    exact eq_comm

theorem linkMatches_eq (pattern : String) (n : TestName) :
    linkMatches pattern metadata n =
      ((lookupWithWildcards metadata n.name).getD []).any fun url => contains url pattern := by
  unfold linkMatches
  cases lookupWithWildcards metadata n.name <;> rfl

theorem triagedMatches_eq (n : TestName) :
    triagedMatches metadata n =
      ((lookupWithWildcards metadata n.name).getD []).any fun url => url != "" := by
  unfold triagedMatches
  cases lookupWithWildcards metadata n.name <;> rfl

/-- `TestLabel` goes by all labels above exactly when the root adds nothing. -/
theorem testLabelMatches_iff (cases : CaseMapping) (label : String) {n : TestName}
    (h : hasPrefix n.name "/" = true) :
    testLabelMatches cases label metadata n =
        (labelsAbove metadata n.name).any (fun l => cases.equalFold l label) ↔
      HasValueBelowRoot metadata n.name (fun l => cases.equalFold l label) ∨
        RootSilent metadata fun l => cases.equalFold l label := by
  rw [labelsAbove_eq h, List.any_append, rootSilent_iff, ← any_foldl_iff h]
  unfold testLabelMatches
  dsimp only
  cases ((ancestors (dir n.name)).foldl
    (fun labels d => labels ++ (metadata.lookup (d ++ "/*")).getD [])
    ((metadata.lookup n.name).getD [])).any fun l => cases.equalFold l label with
  | true => exact iff_of_true rfl (.inl rfl)
  | false =>
    rw [Bool.false_or, or_iff_right Bool.false_ne_true]
    exact eq_comm

/-- **`Link`, `Triaged` and `TestLabel`** on a test whose name is a path from
the root: each goes by the entries above the test exactly when there is one
below the root, or the root's has nothing to say. All three loops end. -/
theorem wildcardFilters_iff (cases : CaseMapping) {idx : Index} {t : TestID} {n : TestName}
    (ht : idx.tests.lookup t = some n) (hname : hasPrefix n.name "/" = true)
    (metadata : MetadataMap) (pattern label : String) (run : Int) :
    (newFilter cases idx (.link pattern metadata) t =
        some (decides metadata n.name fun url => contains url pattern) ↔
      HasEntryBelowRoot metadata n.name ∨
        RootSilent metadata fun url => contains url pattern) ∧
    (newFilter cases idx (.triaged run metadata) t =
        some (decides metadata n.name fun url => url != "") ↔
      HasEntryBelowRoot metadata n.name ∨ RootSilent metadata fun url => url != "") ∧
    (newFilter cases idx (.testLabel label metadata) t =
        some ((labelsAbove metadata n.name).any fun l => cases.equalFold l label) ↔
      HasValueBelowRoot metadata n.name (fun l => cases.equalFold l label) ∨
        RootSilent metadata fun l => cases.equalFold l label) ∧
    ∀ (name : String) (turns : Nat), byteLen (dir name) < turns →
      (∃ entry, stripForEntry metadata turns (metadata.lookup name) (dir name) = some entry) ∧
      ∃ labels, stripForLabels metadata turns ((metadata.lookup name).getD []) (dir name) =
        some labels := by
  -- each filter asks its question of the name that the row has
  have hfilter : ∀ p : TestName → Bool, nameFilter idx p t = some (p n) := by
    intro p
    rw [nameFilter, ht]
  refine ⟨?_, ?_, ?_, fun name turns hturns => ⟨⟨_, stripForEntry_eq metadata name hturns⟩,
    ⟨_, stripForLabels_eq metadata _ hturns⟩⟩⟩
  · rw [newFilter, hfilter, Option.some_inj, linkMatches_eq]
    exact lookup_decides_iff hname _
  · rw [newFilter, hfilter, Option.some_inj, triagedMatches_eq]
    exact lookup_decides_iff hname _
  · rw [newFilter, hfilter, Option.some_inj]
    exact testLabelMatches_iff cases label hname

end Meets

/-! ## A wildcard of the root -/

/-- One test in a folder. -/
def oneTestIndex : Index where
  tests := Finmap.singleton ⟨1, 0⟩ ⟨"/dom/historical.html", none⟩
  runResults := ∅

/-- A link, and a label, for all tests. -/
def rootWildcard : MetadataMap := Finmap.singleton (getWPTTestPath "" "*") ["bug.example/1"]

/-- The same for the tests of one folder. -/
def folderWildcard : MetadataMap := Finmap.singleton (getWPTTestPath "dom" "*") ["bug.example/1"]

/-- Names are taken as they are. -/
def exactCases : CaseMapping where
  toLower := id
  equalFold s s' := s == s'

theorem wildcardFilters_folderWildcard :
    newFilter exactCases oneTestIndex (.link "bug" folderWildcard) ⟨1, 0⟩ =
      some (decides folderWildcard "/dom/historical.html" fun url => contains url "bug") := by
  have hentry : HasEntryBelowRoot folderWildcard "/dom/historical.html" :=
    .inr ⟨"/dom", by decide, by decide, by decide⟩
  have ht : oneTestIndex.tests.lookup ⟨1, 0⟩ = some ⟨"/dom/historical.html", none⟩ := rfl
  exact (wildcardFilters_iff exactCases ht (by decide) folderWildcard "bug" "" 0).1.mpr
    (.inl hentry)

theorem not_wildcardFilters_rootWildcard :
    newFilter exactCases oneTestIndex (.link "bug" rootWildcard) ⟨1, 0⟩ = some false ∧
    decides rootWildcard "/dom/historical.html" (fun url => contains url "bug") = true ∧
    newFilter exactCases oneTestIndex (.triaged 1 rootWildcard) ⟨1, 0⟩ = some false ∧
    decides rootWildcard "/dom/historical.html" (fun url => url != "") = true ∧
    newFilter exactCases oneTestIndex (.testLabel "bug.example/1" rootWildcard) ⟨1, 0⟩ =
      some false ∧
    ((labelsAbove rootWildcard "/dom/historical.html").any fun l =>
      exactCases.equalFold l "bug.example/1") = true := by
  refine ⟨?_, ?_, ?_, ?_, ?_, ?_⟩ <;> decide +kernel

end WptFyi.Cache
