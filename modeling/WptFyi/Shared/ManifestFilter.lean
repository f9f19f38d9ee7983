import WptFyi.Lib.GoMap
import WptFyi.Lib.GoStrings
import WptFyi.Lib.Json

/-!
# Filtering a manifest by paths (`shared/manifest.go`)

A manifest has, for each test type, a trie of folders with the test files as
leaves. `FilterByPath` decodes one layer at a time along a path and encodes what
it finds as a trie of that one branch; the branch of a later path replaces the
one that an earlier path left for a test type.

A trie is kept as JSON that was not decoded yet, layer by layer. So a leaf is told from a folder
only when a path is continued below it, which is an error of decoding, and a path that leads
nowhere is the nil trie. What a manifest has is said by `node`, a walk down the decoded value, and
the files of a trie are the paths at which there is an array.

The loop over the paths is an induction in which what a test type has so far is the branch of the
last path that named anything of it (`Manifest.filterByPath_cases`); that this is all the paths
cover is then a condition on the paths and the manifest.

- `rawFilterByPath`: one trie and one path, nil where the path leads nowhere;
- `Manifest.filterByPath`: all paths, with the order in which each `range` over
  the test types goes;
- `Manifest.containsFile`: the walk through the decoded tries;
- `node`, `IsTrie`, `Manifest.HasFile`: what a manifest is and has;
- `Manifest.filtersByPath_iff`: the paths with which the filter keeps the files
  that it should.
-/

namespace WptFyi.Shared

open Lib Lib.GoStrings Lib.Json

/-- A manifest; the cache of its decoded items is left out. -/
structure Manifest where
  items : GoMap String Json
  version : Int
  urlBase : String

/-- An order in which a `range` over the items goes. -/
abbrev Manifest.Range (m : Manifest) :=
  {order : List (Σ _ : String, Json) // (order : Multiset (Σ _ : String, Json)) = m.items.entries}

/-- `strings.Trim(s, "/")`. -/
def trimSlashes (s : String) : String :=
  String.ofList ((s.toList.dropWhile (· = '/')).reverse.dropWhile (· = '/')).reverse

/-! ## `FilterByPath` -/

/-- How an error of `json.Unmarshal` names a value. -/
def valueKind : Json → String
  | .null => "null"
  | .bool _ => "bool"
  | .number _ => "number"
  | .string _ => "string"
  | .array _ => "array"
  | .object _ => "object"

/-- The error of decoding a value into a map. -/
def unmarshalTypeError (value : Json) (goType : String) : String :=
  "json: cannot unmarshal " ++ valueKind value ++ " into Go value of type " ++ goType

/-- `rawManifestTrie.FilterByPath`; `none` is the nil trie. -/
def rawFilterByPath : Option Json → List String → Except String (Option Json)
  | none, _ => .ok none
  | some t, [] => .ok (some t)
  | some t, part :: parts =>
    -- one more layer
    match t.members with
    | none => .error (unmarshalTypeError t "map[string]shared.rawManifestTrie")
    | some expanded => do
      match ← rawFilterByPath (lastMember part expanded) parts with
      | none => return none
      | some subT => return some (.object [(part, subT)])

/-- The body of the loop over the test types. -/
def addFiltered (parts : List String) (items : GoMap String Json) (entry : Σ _ : String, Json) :
    Except String (GoMap String Json) := do
  match ← rawFilterByPath (some entry.2) parts with
  | none => return items
  | some filtered => return items.insert entry.1 filtered

/-- The keys of a path. -/
def keysOf (p : String) : List String := split (trimSlashes p) '/'

/-- `Manifest.FilterByPath` of the paths, each with the order of its `range`. -/
def Manifest.filterByPath (m : Manifest) (visits : List (String × m.Range)) :
    Except String Manifest := do
  let items ← visits.foldlM
    (fun items visit => visit.2.1.foldlM (addFiltered (keysOf visit.1)) items) ∅
  return { items, version := m.version, urlBase := "" }

/-! ## `ContainsFile` -/

/-- A decoded value as an interface: null is nil. -/
def interfaceOf : Json → Option Json
  | .null => none
  | value => some value

/-- `findNode`; `none` is nil. -/
def findNode : Option Json → List String → Option Json
  | t, [] => t
  | some (.object trie), part :: parts => findNode ((lastMember part trie).bind interfaceOf) parts
  | _, _ :: _ => none

/-- `unmarshalAll`, without the cache: the tries in the order of its `range`. -/
def Manifest.unmarshalAll (m : Manifest) (range : m.Range) : Except String (List Json) :=
  range.1.mapM fun entry =>
    match entry.2.members with
    | none => .error (unmarshalTypeError entry.2 "map[string]interface {}")
    | some decoded => .ok (.object decoded)

/-- `ContainsFile`. -/
def Manifest.containsFile (m : Manifest) (range : m.Range) (path : String) :
    Except String Bool := do
  let imap ← m.unmarshalAll range
  let path := trimSlashes path
  -- the root directory always exists
  if path = "" then return true
  else return imap.any fun items => (findNode (some items) (split path '/')).isSome

/-! ## Tries and their files

A manifest as a tree of objects. A file is a path down to a leaf, and a path of the request covers
the files at and below it. -/

/-- What a trie has at a path of keys. -/
def node : Json → List String → Option Json
  | t, [] => some t
  | .object trie, part :: parts => (lastMember part trie).bind fun sub => node sub parts
  | _, _ :: _ => none

/-- A trie: folders with arrays as leaves. -/
inductive IsTrie : Json → Prop where
  | leaf (elems : List Json) : IsTrie (.array elems)
  | folder {members : List (String × Json)} :
      (∀ member ∈ members, IsTrie member.2) → IsTrie (.object members)

/-- Each test type of the manifest has a folder. -/
def Manifest.WellFormed (m : Manifest) : Prop :=
  ∀ testType trie, m.items.lookup testType = some trie →
    IsTrie trie ∧ ∃ members, trie = .object members

/-- A test type has a file at a path of keys. -/
def Manifest.HasFile (m : Manifest) (testType : String) (path : List String) (leaf : List Json) :
    Prop :=
  ∃ trie, m.items.lookup testType = some trie ∧ node trie path = some (.array leaf)

/-- The elements of a path; the root has none. -/
def pathParts (p : String) : List String :=
  if trimSlashes p = "" then [] else split (trimSlashes p) '/'

/-- The path is the file or a folder above it. -/
def Covers (p : String) (file : List String) : Prop := pathParts p <+: file

/-- **What the filter is to keep**: the files that some path covers. -/
structure Manifest.FiltersByPath (m : Manifest) (visits : List (String × m.Range)) : Prop where
  keeps : ∃ result, m.filterByPath visits = .ok result ∧
    ∀ testType file leaf, result.HasFile testType file leaf ↔
      m.HasFile testType file leaf ∧ ∃ visit ∈ visits, Covers visit.1 file
  single : ∀ p range, visits = [(p, range)] → pathParts p ≠ [] →
    ∃ result, m.filterByPath visits = .ok result ∧
      ∀ range', result.items ≠ ∅ ↔ m.containsFile range' p = .ok true
  monotone : ∀ visits' : List (String × m.Range),
    (visits'.map Prod.fst).Sublist (visits.map Prod.fst) →
    ∃ result result', m.filterByPath visits = .ok result ∧ m.filterByPath visits' = .ok result' ∧
      ∀ testType file leaf, result'.HasFile testType file leaf → result.HasFile testType file leaf

/-- The path continues below a file. -/
def BelowLeaf (trie : Json) (parts : List String) : Prop :=
  ∃ file rest leaf, parts = file ++ rest ∧ rest ≠ [] ∧ node trie file = some (.array leaf)

/-- The path names a file or a folder. -/
def Names (trie : Json) (p : String) : Prop := (node trie (keysOf p)).isSome

/-- The file is below the last of the paths that names anything. -/
def UnderLastNamed (trie : Json) (paths : List String) (file : List String) : Prop :=
  ∃ before p after, paths = before ++ p :: after ∧ Names trie p ∧ (∀ p' ∈ after, ¬Names trie p') ∧
    keysOf p <+: file

/-- No path continues below a file, and every file that a path covers is below
the last path that names anything of its test type. -/
structure Manifest.LastPathCovers (m : Manifest) (paths : List String) : Prop where
  above : ∀ p ∈ paths, ∀ testType trie, m.items.lookup testType = some trie →
    ¬BelowLeaf trie (pathParts p)
  last : ∀ testType trie, m.items.lookup testType = some trie →
    ∀ file leaf, node trie file = some (.array leaf) → (∃ p ∈ paths, Covers p file) →
      UnderLastNamed trie paths file

/-! ## One trie and one path

The filter goes down one path and keeps what is there, so what it gives is a trie with one branch
down to there, or nothing. -/

/-- A trie with one branch only. -/
def spine (parts : List String) (v : Json) : Json :=
  parts.foldr (fun part sub => .object [(part, sub)]) v

theorem spine_cons (part : String) (parts : List String) (v : Json) :
    spine (part :: parts) v = .object [(part, spine parts v)] := rfl

theorem node_append (t : Json) (parts rest : List String) :
    node t (parts ++ rest) = (node t parts).bind fun sub => node sub rest := by
  induction parts generalizing t with
  | nil => rw [List.nil_append, node, Option.bind_some]
  | cons part parts ih =>
    cases t with
    | object members =>
      rw [List.cons_append, node, node, Option.bind_assoc]
      exact congrArg _ (funext fun sub => ih sub)
    | _ => rfl

theorem lastMember_singleton (part key : String) (v : Json) :
    lastMember key [(part, v)] = if part = key then some v else none := by
  unfold lastMember
  by_cases h : part = key <;> simp [h]

/-- The files of a branch are those of what it leads to. -/
theorem node_spine {parts file : List String} {v : Json} {leaf : List Json} :
    node (spine parts v) file = some (.array leaf) ↔
      ∃ rest, file = parts ++ rest ∧ node v rest = some (.array leaf) := by
  induction parts generalizing file with
  | nil => exact ⟨fun h => ⟨file, rfl, h⟩, fun ⟨_, heq, h⟩ => heq ▸ h⟩
  | cons part parts ih =>
    rw [spine_cons]
    cases file with
    | nil =>
      refine iff_of_false (fun h => ?_) fun ⟨rest, heq, _⟩ => List.cons_ne_nil _ _ heq.symm
      rw [node] at h
      cases h
    | cons key file =>
      rw [node, lastMember_singleton]
      by_cases hkey : part = key
      · rw [if_pos hkey, Option.bind_some, ih, hkey]
        simp only [List.cons_append, List.cons.injEq, true_and]
      · rw [if_neg hkey, Option.bind_none]
        refine iff_of_false (fun h => (nomatch h)) fun ⟨rest, heq, _⟩ => ?_
        exact hkey (List.cons.inj heq).1.symm

@[simp] theorem rawFilterByPath_none (parts : List String) :
    rawFilterByPath none parts = .ok none := by
  cases parts <;> rfl

theorem not_belowLeaf_nil (t : Json) : ¬BelowLeaf t [] := by
  rintro ⟨file, rest, leaf, heq, hrest, -⟩
  exact hrest (List.append_eq_nil_iff.mp heq.symm).2

/-- One layer of a folder. -/
theorem belowLeaf_object_cons {members : List (String × Json)} {part : String}
    {parts : List String} :
    BelowLeaf (.object members) (part :: parts) ↔
      ∃ sub, lastMember part members = some sub ∧ BelowLeaf sub parts := by
  constructor
  · rintro ⟨file, rest, leaf, heq, hrest, hleaf⟩
    cases file with
    | nil => cases hleaf
    | cons key file =>
      obtain ⟨rfl, rfl⟩ := List.cons.inj heq
      rw [node, Option.bind_eq_some_iff] at hleaf
      obtain ⟨sub, hsub, hleaf⟩ := hleaf
      exact ⟨sub, hsub, file, rest, leaf, rfl, hrest, hleaf⟩
  · rintro ⟨sub, hsub, file, rest, leaf, rfl, hrest, hleaf⟩
    exact ⟨part :: file, rest, leaf, rfl, hrest, by rw [node, hsub]; exact hleaf⟩

/-- **One trie and one path**: an error below a leaf, else the branch that the
path takes. -/
theorem rawFilterByPath_cases {t : Json} (ht : IsTrie t) (parts : List String) :
    (BelowLeaf t parts ∧ ∃ err, rawFilterByPath (some t) parts = .error err) ∨
      (¬BelowLeaf t parts ∧
        rawFilterByPath (some t) parts = .ok ((node t parts).map (spine parts))) := by
  induction parts generalizing t with
  | nil => exact .inr ⟨not_belowLeaf_nil t, rfl⟩
  | cons part parts ih =>
    cases ht with
    | leaf elems =>
      exact .inl ⟨⟨[], part :: parts, elems, rfl, List.cons_ne_nil _ _, rfl⟩, _, rfl⟩
    | @folder members hmembers =>
      rw [belowLeaf_object_cons]
      simp only [rawFilterByPath, Json.members, node]
      cases hsub : lastMember part members with
      | none =>
        refine .inr ⟨fun ⟨_, h, _⟩ => (nomatch h), ?_⟩
        rw [rawFilterByPath_none]
        rfl
      | some sub =>
        simp only [Option.some.injEq, exists_eq_left', Option.bind_some]
        obtain ⟨hbelow, err, herr⟩ | ⟨hbelow, hok⟩ := ih (hmembers _ (mem_of_lastMember hsub))
        · exact .inl ⟨hbelow, err, by rw [herr]; rfl⟩
        · refine .inr ⟨hbelow, ?_⟩
          rw [hok]
          cases node sub parts <;> rfl

/-! ## All test types and all paths

The filtered tries of several paths are put together for each test type. The last path that gives
one is what is kept. -/

section Visits

variable {m : Manifest}

/-- What one path keeps of a test type. -/
def Manifest.kept (m : Manifest) (p : String) (testType : String) : Option Json :=
  (m.items.lookup testType).bind fun trie => (node trie (keysOf p)).map (spine (keysOf p))

/-- No path of the list makes the filter fail. -/
def Manifest.NoneBelowLeaf (m : Manifest) (paths : List String) : Prop :=
  ∀ p ∈ paths, ∀ testType trie, m.items.lookup testType = some trie → ¬BelowLeaf trie (keysOf p)

/-- One path and all test types: an error below some leaf, else each test type in which the path
names anything has the branch that it takes. -/
theorem foldlM_addFiltered {parts : List String} {order : List (Σ _ : String, Json)}
    (horder : ∀ entry ∈ order, IsTrie entry.2) (items : GoMap String Json) :
    ((∃ entry ∈ order, BelowLeaf entry.2 parts) ∧
      ∃ err, order.foldlM (addFiltered parts) items = .error err) ∨
    ((∀ entry ∈ order, ¬BelowLeaf entry.2 parts) ∧
      order.foldlM (addFiltered parts) items = .ok (items.insertAll (order.filterMap fun entry =>
        (node entry.2 parts).map fun v => (entry.1, spine parts v)))) := by
  induction order generalizing items with
  | nil => exact .inr ⟨fun entry hentry => absurd hentry List.not_mem_nil, rfl⟩
  | cons entry order ih =>
    rw [List.foldlM_cons]
    obtain ⟨hbelow, err, herr⟩ | ⟨hbelow, hok⟩ :=
      rawFilterByPath_cases (horder entry List.mem_cons_self) parts
    · refine .inl ⟨⟨entry, List.mem_cons_self, hbelow⟩, err, ?_⟩
      rw [addFiltered, herr]
      rfl
    · have hstep : addFiltered parts items entry =
          .ok (items.insertAll (((node entry.2 parts).map fun v =>
            (entry.1, spine parts v)).toList)) := by
        rw [addFiltered, hok]
        cases node entry.2 parts <;> rfl
      rw [hstep]
      -- the loop adds nothing for a trie without the path
      have hfilterMap : (entry :: order).filterMap (fun entry =>
          (node entry.2 parts).map fun v => (entry.1, spine parts v)) =
          ((node entry.2 parts).map fun v => (entry.1, spine parts v)).toList ++
            order.filterMap fun entry =>
              (node entry.2 parts).map fun v => (entry.1, spine parts v) := by
        cases hnode : node entry.2 parts with
        | none => rw [List.filterMap_cons_none (by rw [hnode]; rfl)]; rfl
        | some v => rw [List.filterMap_cons_some (by rw [hnode]; rfl)]; rfl
      rw [hfilterMap, GoMap.insertAll_append]
      obtain ⟨⟨entry', hmem, hbelow'⟩, err, herr⟩ | ⟨hrest, hloop⟩ :=
        ih (fun entry' hentry' => horder entry' (List.mem_cons_of_mem _ hentry'))
          (items.insertAll (((node entry.2 parts).map fun v => (entry.1, spine parts v)).toList))
      · exact .inl ⟨⟨entry', List.mem_cons_of_mem _ hmem, hbelow'⟩, err, herr⟩
      · exact .inr ⟨List.forall_mem_cons.mpr ⟨hbelow, hrest⟩, hloop⟩

theorem mem_range_iff (range : m.Range) (testType : String) (trie : Json) :
    (⟨testType, trie⟩ : Σ _ : String, Json) ∈ range.1 ↔
      m.items.lookup testType = some trie := by
  rw [Finmap.lookup_eq_some_iff, ← Multiset.mem_coe]
  exact iff_of_eq (congrArg (fun entries => ⟨testType, trie⟩ ∈ entries) range.2)

/-- One path: an error, or each test type has what the path keeps of it, and
else what it had. -/
theorem visit_cases (hm : m.WellFormed) (p : String) (range : m.Range)
    (items : GoMap String Json) :
    ((∃ testType trie, m.items.lookup testType = some trie ∧ BelowLeaf trie (keysOf p)) ∧
      ∃ err, range.1.foldlM (addFiltered (keysOf p)) items = .error err) ∨
    ((∀ testType trie, m.items.lookup testType = some trie → ¬BelowLeaf trie (keysOf p)) ∧
      ∃ items', range.1.foldlM (addFiltered (keysOf p)) items = .ok items' ∧
        ∀ testType, items'.lookup testType = (m.kept p testType).or (items.lookup testType)) := by
  have htries : ∀ entry ∈ range.1, IsTrie entry.2 := fun entry hentry =>
    (hm entry.1 entry.2 ((mem_range_iff range _ _).mp hentry)).1
  obtain ⟨⟨entry, hentry, hbelow⟩, err, herr⟩ | ⟨hbelow, hok⟩ := foldlM_addFiltered htries items
  · exact .inl ⟨⟨entry.1, entry.2, (mem_range_iff range _ _).mp hentry, hbelow⟩, err, herr⟩
  · refine .inr ⟨fun testType trie htrie =>
      hbelow ⟨testType, trie⟩ ((mem_range_iff range _ _).mpr htrie), _, hok, fun testType => ?_⟩
    -- each test type is written at most once in a visit, in whatever order the map is ranged over
    have hwritten : ∀ testType v, (testType, v) ∈ range.1.filterMap (fun entry =>
        (node entry.2 (keysOf p)).map fun v => (entry.1, spine (keysOf p) v)) ↔
        True ∧ m.kept p testType = some v := by
      intro testType v
      rw [true_and, List.mem_filterMap, Manifest.kept, Option.bind_eq_some_iff]
      constructor
      · rintro ⟨⟨testType', trie⟩, hentry, hv⟩
        obtain ⟨v', hnode, heq⟩ := Option.map_eq_some_iff.mp hv
        obtain ⟨rfl, rfl⟩ := Prod.mk.inj heq
        exact ⟨trie, (mem_range_iff range _ _).mp hentry, by rw [hnode]; rfl⟩
      · rintro ⟨trie, htrie, hv⟩
        obtain ⟨v', hnode, rfl⟩ := Option.map_eq_some_iff.mp hv
        exact ⟨⟨testType, trie⟩, (mem_range_iff range _ _).mpr htrie, by rw [hnode]; rfl⟩
    rw [GoMap.lookup_insertAll_of_mem_iff hwritten, if_pos trivial]

/-- All paths. -/
theorem visits_cases (hm : m.WellFormed) (visits : List (String × m.Range))
    (items : GoMap String Json) :
    (¬m.NoneBelowLeaf (visits.map Prod.fst) ∧ ∃ err, visits.foldlM
      (fun items visit => visit.2.1.foldlM (addFiltered (keysOf visit.1)) items) items =
        .error err) ∨
    (m.NoneBelowLeaf (visits.map Prod.fst) ∧ ∃ items', visits.foldlM
      (fun items visit => visit.2.1.foldlM (addFiltered (keysOf visit.1)) items) items =
        .ok items' ∧
      ∀ testType, items'.lookup testType =
        ((visits.map Prod.fst).reverse.findSome? fun p => m.kept p testType).or
          (items.lookup testType)) := by
  induction visits generalizing items with
  | nil => exact .inr ⟨fun p hp => absurd hp List.not_mem_nil, items, rfl, fun _ => rfl⟩
  | cons visit visits ih =>
    rw [List.foldlM_cons, List.map_cons]
    obtain ⟨⟨testType, trie, htrie, hbelow⟩, err, herr⟩ | ⟨hbelow, items', hok, hlookup⟩ :=
      visit_cases hm visit.1 visit.2 items
    · refine .inl ⟨fun h => h visit.1 List.mem_cons_self testType trie htrie hbelow, err, ?_⟩
      rw [herr]
      rfl
    · rw [hok]
      obtain ⟨hsome, err, herr⟩ | ⟨hnone, items'', hok', hlookup'⟩ := ih items'
      · exact .inl ⟨fun h => hsome fun p hp => h p (List.mem_cons_of_mem _ hp), err, herr⟩
      · refine .inr ⟨List.forall_mem_cons.mpr ⟨hbelow, hnone⟩, items'', hok', fun testType => ?_⟩
        rw [hlookup', hlookup, List.reverse_cons, List.findSome?_append, List.findSome?_singleton,
          Option.or_assoc]

/-- **`FilterByPath`**: an error, or each test type has what the last path that
keeps anything of it keeps. -/
theorem Manifest.filterByPath_cases (hm : m.WellFormed) (visits : List (String × m.Range)) :
    (¬m.NoneBelowLeaf (visits.map Prod.fst) ∧ ∃ err, m.filterByPath visits = .error err) ∨
    (m.NoneBelowLeaf (visits.map Prod.fst) ∧ ∃ result, m.filterByPath visits = .ok result ∧
      ∀ testType, result.items.lookup testType =
        (visits.map Prod.fst).reverse.findSome? fun p => m.kept p testType) := by
  unfold Manifest.filterByPath
  obtain ⟨hsome, err, herr⟩ | ⟨hnone, items, hok, hlookup⟩ := visits_cases hm visits ∅
  · exact .inl ⟨hsome, err, by rw [herr]; rfl⟩
  · refine .inr ⟨hnone, ⟨items, m.version, ""⟩, by rw [hok]; rfl, fun testType => ?_⟩
    rw [hlookup, Finmap.lookup_empty, Option.or_none]

theorem kept_eq_some_iff {p testType : String} {kept : Json} :
    m.kept p testType = some kept ↔
      ∃ trie v, m.items.lookup testType = some trie ∧ node trie (keysOf p) = some v ∧
        kept = spine (keysOf p) v := by
  unfold Manifest.kept
  simp only [Option.bind_eq_some_iff, Option.map_eq_some_iff]
  constructor
  · rintro ⟨trie, htrie, v, hv, hkept⟩
    exact ⟨trie, v, htrie, hv, hkept.symm⟩
  · rintro ⟨trie, v, htrie, hv, hkept⟩
    exact ⟨trie, htrie, v, hv, hkept.symm⟩

theorem kept_eq_none_iff {p testType : String} {trie : Json}
    (htrie : m.items.lookup testType = some trie) :
    m.kept p testType = none ↔ ¬Names trie p := by
  rw [Manifest.kept, htrie, Option.bind_some, Option.map_eq_none_iff, Names,
    Option.not_isSome_iff_eq_none]

/-- The files of a result. -/
theorem hasFile_of_lookup {paths : List String} {result : Manifest}
    (hlookup : ∀ testType, result.items.lookup testType =
      paths.reverse.findSome? fun p => m.kept p testType)
    (testType : String) (file : List String) (leaf : List Json) :
    result.HasFile testType file leaf ↔
      ∃ trie, m.items.lookup testType = some trie ∧ node trie file = some (.array leaf) ∧
        UnderLastNamed trie paths file := by
  unfold Manifest.HasFile UnderLastNamed
  constructor
  · rintro ⟨kept, hkept, hfile⟩
    rw [hlookup, List.findSome?_eq_some_iff] at hkept
    -- the entry is of the last path that names something in this trie
    obtain ⟨after, p, before, heq, hp, hafter⟩ := hkept
    obtain ⟨trie, v, htrie, hv, hspine⟩ := kept_eq_some_iff.mp hp
    rw [hspine] at hfile
    obtain ⟨rest, hrest, hleaf⟩ := node_spine.mp hfile
    refine ⟨trie, htrie, by rw [hrest, node_append, hv]; exact hleaf, before.reverse, p,
      after.reverse, ?_, ?_, ?_, hrest ▸ List.prefix_append _ _⟩
    · rw [← List.reverse_inj, heq]
      simp
    · rw [Names, hv]
      rfl
    · intro p' hp'
      exact (kept_eq_none_iff htrie).mp (hafter p' (List.mem_reverse.mp hp'))
  · rintro ⟨trie, htrie, hfile, before, p, after, heq, hnames, hafter, rest, hrest⟩
    obtain ⟨v, hv⟩ := Option.isSome_iff_exists.mp hnames
    refine ⟨spine (keysOf p) v, ?_, node_spine.mpr ⟨rest, hrest.symm, ?_⟩⟩
    · rw [hlookup, List.findSome?_eq_some_iff]
      refine ⟨after.reverse, p, before.reverse, ?_, kept_eq_some_iff.mpr ⟨trie, v, htrie, hv, rfl⟩,
        fun p' hp' => ?_⟩
      · rw [heq]
        simp
      · exact (kept_eq_none_iff htrie).mpr (hafter p' (List.mem_reverse.mp hp'))
    · rw [← hrest, node_append, hv] at hfile
      exact hfile

/-! ## The elements of a path -/

theorem keysOf_eq {p : String} (h : pathParts p ≠ []) : keysOf p = pathParts p := by
  unfold pathParts at h ⊢
  split
  next hempty => rw [if_pos hempty] at h; exact absurd rfl h
  next => rfl

/-- The root's path has one empty key, which no file is at. -/
theorem belowLeaf_keysOf {members : List (String × Json)} {p : String} :
    BelowLeaf (.object members) (keysOf p) ↔ BelowLeaf (.object members) (pathParts p) := by
  by_cases hroot : pathParts p = []
  · rw [hroot]
    refine iff_of_false ?_ (not_belowLeaf_nil _)
    have htrim : trimSlashes p = "" := by
      by_contra hne
      unfold pathParts at hroot
      rw [if_neg hne] at hroot
      have hlength : (split (trimSlashes p) '/').length = _ := length_split
      rw [hroot, List.length_nil] at hlength
      omega
    have hkeys : keysOf p = [""] := by rw [keysOf, htrim, split_of_notMem (by simp)]
    rw [hkeys, belowLeaf_object_cons]
    rintro ⟨sub, -, hbelow⟩
    exact not_belowLeaf_nil sub hbelow
  · rw [keysOf_eq hroot]

theorem noneBelowLeaf_iff (hm : m.WellFormed) (paths : List String) :
    m.NoneBelowLeaf paths ↔ ∀ p ∈ paths, ∀ testType trie,
      m.items.lookup testType = some trie → ¬BelowLeaf trie (pathParts p) := by
  refine forall₂_congr fun p _ => forall₃_congr fun testType trie htrie => ?_
  obtain ⟨-, members, rfl⟩ := hm testType trie htrie
  rw [belowLeaf_keysOf]

/-- A file below the last path that names something is covered by it. -/
theorem UnderLastNamed.covers {trie : Json} {paths : List String} {file : List String}
    (h : UnderLastNamed trie paths file) : ∃ p ∈ paths, Covers p file := by
  obtain ⟨before, p, after, rfl, -, -, hprefix⟩ := h
  refine ⟨p, List.mem_append_right _ List.mem_cons_self, ?_⟩
  by_cases hroot : pathParts p = []
  · rw [Covers, hroot]
    exact List.nil_prefix
  · rwa [Covers, ← keysOf_eq hroot]

end Visits

/-! ## When the filter keeps what it should -/

section Main

variable {m : Manifest}

/-- In a trie the walk through the decoded values is the one through the keys. -/
theorem findNode_eq {t : Json} (ht : IsTrie t) (parts : List String) :
    findNode (some t) parts = node t parts := by
  induction parts generalizing t with
  | nil => rfl
  | cons part parts ih =>
    cases ht with
    | leaf elems => rfl
    | @folder members hmembers =>
      rw [findNode, node]
      cases hsub : lastMember part members with
      | none => cases parts <;> rfl
      | some sub =>
        have hsubtrie := hmembers _ (mem_of_lastMember hsub)
        have hinterface : interfaceOf sub = some sub := by cases hsubtrie <;> rfl
        rw [Option.bind_some, hinterface, Option.bind_some, ih hsubtrie]

/-- A manifest whose test types are tries is decoded without an error. -/
theorem unmarshalAll_eq (hm : m.WellFormed) (range : m.Range) :
    m.unmarshalAll range = .ok (range.1.map Sigma.snd) := by
  have hfolders : ∀ entry ∈ range.1, ∃ members, entry.2 = .object members := fun entry hentry =>
    (hm entry.1 entry.2 ((mem_range_iff range _ _).mp hentry)).2
  unfold Manifest.unmarshalAll
  generalize range.1 = order at hfolders
  induction order with
  | nil => rfl
  | cons entry order ih =>
    obtain ⟨members, hentry⟩ := hfolders entry List.mem_cons_self
    rw [List.mapM_cons, hentry, ih fun e he => hfolders e (List.mem_cons_of_mem _ he),
      List.map_cons, hentry]
    rfl

/-- `ContainsFile` of a path that is not the root's. -/
theorem Manifest.containsFile_iff (hm : m.WellFormed) (range : m.Range) {p : String}
    (hp : pathParts p ≠ []) :
    m.containsFile range p = .ok true ↔
      ∃ testType trie, m.items.lookup testType = some trie ∧ Names trie p := by
  have hne : trimSlashes p ≠ "" := fun hempty => hp (if_pos hempty)
  have heq : m.containsFile range p = .ok ((range.1.map Sigma.snd).any fun items =>
      (findNode (some items) (split (trimSlashes p) '/')).isSome) := by
    rw [Manifest.containsFile, unmarshalAll_eq hm]
    exact if_neg hne
  rw [heq, Except.ok.injEq, List.any_eq_true]
  constructor
  · rintro ⟨trie, htrie, hnode⟩
    obtain ⟨entry, hentry, rfl⟩ := List.mem_map.mp htrie
    have hlookup := (mem_range_iff range _ _).mp hentry
    rw [findNode_eq (hm _ _ hlookup).1] at hnode
    exact ⟨entry.1, entry.2, hlookup, hnode⟩
  · rintro ⟨testType, trie, hlookup, hnames⟩
    refine ⟨trie, List.mem_map.mpr ⟨⟨testType, trie⟩, (mem_range_iff range _ _).mpr hlookup, rfl⟩,
      ?_⟩
    rw [findNode_eq (hm _ _ hlookup).1]
    exact hnames

/-- The items of a result are those that some path names something of. -/
theorem items_ne_empty_iff {paths : List String} {result : Manifest}
    (hlookup : ∀ testType, result.items.lookup testType =
      paths.reverse.findSome? fun p => m.kept p testType) :
    result.items ≠ ∅ ↔
      ∃ testType trie, m.items.lookup testType = some trie ∧ ∃ p ∈ paths, Names trie p := by
  constructor
  · intro hne
    by_contra hnone
    refine hne (Finmap.ext_lookup fun testType => ?_)
    rw [hlookup, Finmap.lookup_empty, List.findSome?_eq_none_iff]
    intro p hp
    cases htrie : m.items.lookup testType with
    | none => rw [Manifest.kept, htrie, Option.bind_none]
    | some trie =>
      exact (kept_eq_none_iff htrie).mpr fun hnames =>
        hnone ⟨testType, trie, htrie, p, List.mem_reverse.mp hp, hnames⟩
  · rintro ⟨testType, trie, htrie, p, hp, hnames⟩ hempty
    have hnone := hlookup testType
    rw [hempty, Finmap.lookup_empty] at hnone
    exact (kept_eq_none_iff htrie).mp
      (List.findSome?_eq_none_iff.mp hnone.symm p (List.mem_reverse.mpr hp)) hnames

/-- The condition is enough: what the last path keeps is all that is covered. -/
theorem Manifest.LastPathCovers.filtersByPath (hm : m.WellFormed)
    {visits : List (String × m.Range)} (h : m.LastPathCovers (visits.map Prod.fst)) :
    m.FiltersByPath visits := by
  obtain ⟨hsome, -⟩ | ⟨-, result, hok, hlookup⟩ := Manifest.filterByPath_cases hm visits
  · exact absurd ((noneBelowLeaf_iff hm _).mpr h.above) hsome
  have hfiles := hasFile_of_lookup hlookup
  constructor
  · refine ⟨result, hok, fun testType file leaf => ?_⟩
    rw [hfiles]
    constructor
    · rintro ⟨trie, htrie, hfile, hlast⟩
      obtain ⟨p, hp, hcovers⟩ := hlast.covers
      obtain ⟨visit, hvisit, rfl⟩ := List.mem_map.mp hp
      exact ⟨⟨trie, htrie, hfile⟩, visit, hvisit, hcovers⟩
    · rintro ⟨⟨trie, htrie, hfile⟩, visit, hvisit, hcovers⟩
      exact ⟨trie, htrie, hfile, h.last testType trie htrie file leaf hfile
        ⟨visit.1, List.mem_map_of_mem hvisit, hcovers⟩⟩
  · rintro p range rfl hp
    refine ⟨result, hok, fun range' => ?_⟩
    rw [items_ne_empty_iff hlookup, Manifest.containsFile_iff hm range' hp]
    simp only [List.map_cons, List.map_nil, List.mem_singleton, exists_eq_left]
  · intro visits' hsub
    obtain ⟨hsome', -⟩ | ⟨-, result', hok', hlookup'⟩ := Manifest.filterByPath_cases hm visits'
    · refine absurd ((noneBelowLeaf_iff hm _).mpr fun p hp => ?_) hsome'
      exact h.above p (hsub.subset hp)
    refine ⟨result, result', hok, hok', fun testType file leaf hfile => ?_⟩
    -- what the shorter list keeps is covered by one of its paths, so by one of the longer list
    obtain ⟨trie, htrie, hleaf, hlast⟩ := (hasFile_of_lookup hlookup' _ _ _).mp hfile
    obtain ⟨p, hp, hcovers⟩ := hlast.covers
    exact (hfiles _ _ _).mpr ⟨trie, htrie, hleaf,
      h.last testType trie htrie file leaf hleaf ⟨p, hsub.subset hp, hcovers⟩⟩

/-- It is needed: a covered file that the last path does not cover is lost. -/
theorem Manifest.FiltersByPath.lastPathCovers (hm : m.WellFormed)
    {visits : List (String × m.Range)} (h : m.FiltersByPath visits) :
    m.LastPathCovers (visits.map Prod.fst) := by
  obtain ⟨result, hok, hkeeps⟩ := h.keeps
  obtain ⟨-, err, herr⟩ | ⟨hnone, result', hok', hlookup⟩ := Manifest.filterByPath_cases hm visits
  · rw [herr] at hok
    cases hok
  obtain rfl : result = result' := Except.ok.inj (hok.symm.trans hok')
  refine ⟨(noneBelowLeaf_iff hm _).mp hnone, ?_⟩
  rintro testType trie htrie file leaf hfile ⟨p, hp, hcovers⟩
  obtain ⟨visit, hvisit, rfl⟩ := List.mem_map.mp hp
  have hkept := (hkeeps testType file leaf).mpr ⟨⟨trie, htrie, hfile⟩, visit, hvisit, hcovers⟩
  obtain ⟨trie', htrie', -, hlast⟩ := (hasFile_of_lookup hlookup _ _ _).mp hkept
  obtain rfl : trie = trie' := Option.some.inj (htrie.symm.trans htrie')
  exact hlast

/-- **`FilterByPath`** keeps the files that the paths cover exactly when none of
the paths continues below a file and, for each test type, the last path that
names anything covers all that any of them covers. -/
theorem Manifest.filtersByPath_iff (hm : m.WellFormed) (visits : List (String × m.Range)) :
    m.FiltersByPath visits ↔ m.LastPathCovers (visits.map Prod.fst) :=
  ⟨fun h => h.lastPathCovers hm, fun h => h.filtersByPath hm⟩

end Main

/-! ## Two folders -/

def historicalLeaf : List Json := [.string "1d3166465cc6", .array [.null, .object []]]

/-- Two folders with a file each. -/
def twoFolders : Json :=
  .object [("dom", .object [("historical.html", .array historicalLeaf)]),
    ("fetch", .object [("cors.html", .array [.string "2d3166465cc6", .array [.null, .object []]])])]

/-- A manifest of one test type. -/
def twoFoldersManifest : Manifest where
  items := Finmap.singleton "testharness" twoFolders
  version := 8
  urlBase := "/"

/-- The only order there is. -/
def onlyRange : twoFoldersManifest.Range := ⟨[⟨"testharness", twoFolders⟩], rfl⟩

theorem twoFolders_of_lookup {testType : String} {trie : Json}
    (h : twoFoldersManifest.items.lookup testType = some trie) :
    testType = "testharness" ∧ trie = twoFolders := by
  have hmem : testType ∈ twoFoldersManifest.items := Finmap.mem_of_lookup_eq_some h
  obtain rfl : testType = "testharness" :=
    (Finmap.mem_singleton testType "testharness" twoFolders).mp hmem
  exact ⟨rfl, (Option.some.inj (h.symm.trans Finmap.lookup_singleton_eq)).symm ▸ rfl⟩

theorem wellFormed_twoFolders : twoFoldersManifest.WellFormed := by
  intro testType trie htrie
  obtain ⟨-, rfl⟩ := twoFolders_of_lookup htrie
  refine ⟨?_, _, rfl⟩
  have hfolder : ∀ name elems, IsTrie (.object [(name, .array elems)]) := fun name elems =>
    .folder (List.forall_mem_singleton.mpr (.leaf elems))
  exact .folder
    (List.forall_mem_cons.mpr ⟨hfolder _ _, List.forall_mem_singleton.mpr (hfolder _ _)⟩)

/-- One folder, written with a slash at its end. -/
theorem filtersByPath_oneFolder :
    twoFoldersManifest.FiltersByPath [("/dom/", onlyRange)] := by
  have hparts : pathParts "/dom/" = ["dom"] := by decide +kernel
  have hkeys : keysOf "/dom/" = ["dom"] := by decide +kernel
  refine (twoFoldersManifest.filtersByPath_iff wellFormed_twoFolders _).mpr ⟨?_, ?_⟩
  · intro p hp testType trie htrie
    obtain ⟨-, rfl⟩ := twoFolders_of_lookup htrie
    obtain rfl : p = "/dom/" := List.mem_singleton.mp hp
    rw [hparts, twoFolders, belowLeaf_object_cons]
    rintro ⟨sub, -, hbelow⟩
    exact not_belowLeaf_nil sub hbelow
  · rintro testType trie htrie file leaf - ⟨p, hp, hcovers⟩
    obtain ⟨-, rfl⟩ := twoFolders_of_lookup htrie
    obtain rfl : p = "/dom/" := List.mem_singleton.mp hp
    refine ⟨[], "/dom/", [], rfl, ?_, fun p' hp' => absurd hp' List.not_mem_nil, ?_⟩
    · rw [Names, hkeys]
      rfl
    · rwa [hkeys, ← hparts]

/-- Of two folders only the later one is kept; below a leaf is an error; and the root as a path
names nothing. -/
theorem not_filtersByPath_twoFolders :
    ¬twoFoldersManifest.FiltersByPath [("/dom", onlyRange), ("/fetch", onlyRange)] ∧
    twoFoldersManifest.filterByPath [("/dom/historical.html/x", onlyRange)] =
      .error "json: cannot unmarshal array into Go value of type map[string]shared.rawManifestTrie"
        ∧
    ¬twoFoldersManifest.FiltersByPath [("/", onlyRange)] := by
  have hlookup : twoFoldersManifest.items.lookup "testharness" = some twoFolders :=
    Finmap.lookup_singleton_eq
  have hfile : node twoFolders ["dom", "historical.html"] = some (.array historicalLeaf) := rfl
  have hfetch : keysOf "/fetch" = ["fetch"] := by decide +kernel
  have hroot : keysOf "/" = [""] := by decide +kernel
  refine ⟨fun h => ?_, ?_, fun h => ?_⟩
  · obtain ⟨before, p, after, heq, -, hafter, hprefix⟩ :=
      (h.lastPathCovers wellFormed_twoFolders).last _ _ hlookup _ _ hfile
        ⟨"/dom", List.mem_cons_self, by unfold Covers; decide +kernel⟩
    have hlast : "/fetch" ∈ p :: after := by
      have hgetLast := congrArg List.getLast? heq
      rw [List.getLast?_append_of_ne_nil _ (List.cons_ne_nil _ _)] at hgetLast
      exact List.mem_of_getLast? hgetLast.symm
    rcases List.mem_cons.mp hlast with rfl | hmem
    · rw [hfetch] at hprefix
      exact absurd hprefix (by decide)
    · exact hafter _ hmem (by rw [Names, hfetch]; rfl)
  · rfl
  · obtain ⟨before, p, after, heq, -, -, hprefix⟩ :=
      (h.lastPathCovers wellFormed_twoFolders).last _ _ hlookup _ _ hfile
        ⟨"/", List.mem_cons_self, by unfold Covers; decide +kernel⟩
    have hp : p = "/" := by
      have hmem : p ∈ before ++ p :: after := List.mem_append_right before List.mem_cons_self
      rw [← heq] at hmem
      exact List.mem_singleton.mp hmem
    rw [hp, hroot] at hprefix
    exact absurd hprefix (by decide)

end WptFyi.Shared
