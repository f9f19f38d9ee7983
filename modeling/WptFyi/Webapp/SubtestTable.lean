import WptFyi.Lib.JsObject

/-!
# The subtests of a test (`webapp/components/test-file-results.js`)

The page of a test has a row for the harness, one for the duration and one for each subtest.
The rows of the subtests are gathered from the result files of the runs, run after run.

Names are merged so that runs with the same subtests in the same order are listed in that order,
and a new name is put behind the last name before it that was known. A known name is found wherever
it is, so names that come in another order are not listed twice, but they may end up in an order
that is not that of their run. The invariant `InOrder` splits the table at the place where the next
name goes: what was merged stands before it, and the names to come agree with what stands behind
it.

The first run's names are taken as they are, so a name that it lists twice is there twice; a name
of a later run is added once. The banner counts the rows that are shown and takes off two, if there
are more of them and the second one is that of the duration.

- `mergeNamesInto`: the names of one more run, put among those that are there;
- `fetchTestFile`, `filterResultsTableBySearch`, `computeRows`: the rows of the page;
- `sublist_rows_iff`: when the subtests of a run stand in its order;
- `shows_computeRows`: which subtests the page shows, and how many it says that there are.
-/

namespace WptFyi.Webapp.TestPage

open Lib

/-! ## Names -/

section Merge

variable {α : Type*} [DecidableEq α]

/-- The names so far, where the last match is among them, and where it is in the new names. -/
structure Merged (α : Type*) where
  allNames : List α
  lastOffset : Nat := 0
  lastMatch : Nat := 0

/-- `splice(start, 0, name)`. -/
def splice (start : Nat) (name : α) (names : List α) : List α :=
  names.take start ++ name :: names.drop start

/-- Where a new name is among the names. -/
def Merged.offset (s : Merged α) (i : Nat) (name : α) : Option Nat :=
  -- the next item matches too
  if i = s.lastMatch + 1 ∧ s.allNames[s.lastOffset + 1]? = some name then some (s.lastOffset + 1)
  else s.allNames.findIdx? (· = name)

/-- One new name, the `i`th. -/
def mergeName (s : Merged α) (i : Nat) (name : α) : Merged α :=
  match s.offset i name with
  | some offset => { s with lastOffset := offset, lastMatch := i }
  | none => { s with allNames := splice (s.lastOffset + i - s.lastMatch) name s.allNames }

/-- The new names from the `i`th on. -/
def mergeFrom (i : Nat) : List α → Merged α → Merged α
  | [], s => s
  | name :: names, s => mergeFrom (i + 1) names (mergeName s i name)

/-- `mergeNamesInto`. -/
def mergeNamesInto (names allNames : List α) : List α :=
  if allNames = [] then names else (mergeFrom 0 names { allNames }).allNames

end Merge

/-! ## The table

The functions of the page in the order in which they are called, on the result files of the
runs. -/

structure Subtest where
  name : String
  status : String
  message : Option String

/-- The results of a test in a run. -/
structure ResultFile where
  status : String
  message : Option String
  duration : Option Nat
  subtests : Option (List Subtest)
  screenshots : Option (JsObject String)

structure ResultCell where
  status : Option String
  message : Option String
  screenshots : Option (List (String × String)) := none
deriving DecidableEq

structure ResultRow where
  name : String
  results : List ResultCell
deriving DecidableEq

/-- The number of milliseconds as a text, in seconds. -/
def secondsText (millis : Nat) : String :=
  let rest := (toString (1000 + millis % 1000)).toList.drop 1
  let digits := (rest.reverse.dropWhile (· = '0')).reverse
  toString (millis / 1000) ++ if digits = [] then "" else "." ++ String.ofList digits

/-- `timeTaken`. -/
def timeTaken (millis : Option Nat) : String :=
  let millis := millis.getD 0
  if millis = 0 then "N/A"
  else
    let units := [(60 * 60 * 24 * 365, "years"), (60 * 60 * 24 * 28, "months"),
      (60 * 60 * 24 * 7, "weeks"), (60 * 60 * 24, "days"), (60 * 60, "hours"), (60, "minutes")]
    match units.find? fun unit => 1 < millis / (1000 * unit.1) with
    | some unit => toString (millis / (1000 * unit.1)) ++ " " ++ unit.2
    | none => secondsText millis ++ " seconds"

/-- `shuffleScreenshots`: the test itself is first. -/
def shuffleScreenshots (path : String) (rawScreenshots : JsObject String) :
    List (String × String) :=
  ((rawScreenshots.get? path).map (path, ·)).toList ++ (rawScreenshots.erase path).entries

/-- `resultsTableHeaders`. -/
def resultsTableHeaders (path : String) (files : List (Option ResultFile)) :
    ResultRow × ResultRow :=
  ({ name := ""
     results := files.map fun data =>
       { status := data.map ResultFile.status
         message := data.bind ResultFile.message
         screenshots := (data.bind ResultFile.screenshots).map (shuffleScreenshots path) } },
   { name := "Duration"
     results := files.map fun data =>
       { status := data.map fun data => timeTaken data.duration, message := none } })

/-- The names of the subtests of each run that has some. -/
def subtestNames (files : List (Option ResultFile)) : List (List String) :=
  files.filterMap fun data => (data.bind ResultFile.subtests).map (·.map Subtest.name)

/-- The names of all runs. -/
def mergeAll {α : Type*} [DecidableEq α] (lists : List (List α)) : List α :=
  lists.foldl (fun allNames names => mergeNamesInto names allNames) []

/-- The result of a subtest in a run. -/
def subtestCell (name : String) (data : Option ResultFile) : ResultCell :=
  match (data.bind ResultFile.subtests).bind (·.find? fun sub => sub.name = name) with
  | some result => { status := some result.status, message := result.message }
  | none => { status := none, message := none }

def subtestRow (files : List (Option ResultFile)) (name : String) : ResultRow where
  name := name
  results := files.map (subtestCell name)

/-- `statusName`. -/
def statusName (numSubtests : Nat) : String :=
  if 0 < numSubtests then "Harness status" else "Test status"

/-- `fetchTestFile`, of the files that were loaded; one that could not be is `none`. -/
def fetchTestFile (path : String) (files : List (Option ResultFile)) : Option (List ResultRow) :=
  if path = "" then none
  else
    let headers := resultsTableHeaders path files
    let rows := (mergeAll (subtestNames files)).map (subtestRow files)
    some ({ headers.1 with name := statusName rows.length } :: headers.2 :: rows)

/-- What a search says of a test. -/
structure FoundTest where
  test : String
  subtests : List String

/-- `filterResultsTableBySearch`. -/
def filterResultsTableBySearch (path : String) (searchResults : Option (List FoundTest)) :
    List ResultRow → List ResultRow
  | status :: duration :: others =>
    match (searchResults.getD []).find? fun r => r.test = path with
    | some test => status :: duration :: others.filter fun t => test.subtests.contains t.name
    | none => status :: duration :: others
  | rows => rows

/-- The results of the first two runs differ. -/
def ResultRow.differs (r : ResultRow) : Bool :=
  r.results[0]?.map ResultCell.status != r.results[1]?.map ResultCell.status

/-- The number of subtests in the banner, of the rows that are shown. -/
def subtestRowCount (rows : List ResultRow) : Nat :=
  if 2 < rows.length ∧ rows[1]?.map ResultRow.name = some "Duration" then rows.length - 2 else 0

/-- `computeRows`. -/
def computeRows (resultsTable : List ResultRow) (onlyShowDifferences : Bool) :
    Option (List ResultRow) :=
  match resultsTable, onlyShowDifferences with
  | first :: others, true =>
    -- a result that is not there has no status
    if others.all fun r => 2 ≤ r.results.length then some (first :: others.filter ResultRow.differs)
    else none
  | rows, _ => some rows

/-! ## Merging names

Merging inserts names and moves none, so what was in the table stays there in its order. -/

section Merge

variable {α : Type*} {name : α} {names allNames : List α}

theorem sublist_splice (start : Nat) (name : α) (names : List α) :
    names.Sublist (splice start name names) := by
  conv_lhs => rw [← List.take_append_drop start names]
  exact (List.Sublist.refl _).append (List.sublist_cons_self _ _)

theorem perm_splice (start : Nat) (name : α) (names : List α) :
    (splice start name names).Perm (name :: names) := by
  conv_rhs => rw [← List.take_append_drop start names]
  exact List.perm_middle

theorem splice_append {pre post : List α} {start : Nat} (h : start = pre.length) (name : α) :
    splice start name (pre ++ post) = pre ++ [name] ++ post := by
  rw [splice, h, List.take_left, List.drop_left, List.append_assoc, List.singleton_append]

/-- `all` has the names and what else there is in `more`, the names in the same order. -/
structure Extends (names more all : List α) : Prop where
  sublist : names.Sublist all
  mem : ∀ name, name ∈ all ↔ name ∈ names ∨ name ∈ more
  nodup : all.Nodup ↔ names.Nodup

theorem Extends.refl (names : List α) : Extends names [] names where
  sublist := List.Sublist.refl names
  mem name := by simp
  nodup := Iff.rfl

theorem Extends.trans {more more' all all' : List α} (h : Extends names more all)
    (h' : Extends all more' all') : Extends names (more ++ more') all' where
  sublist := h.sublist.trans h'.sublist
  mem name := by rw [h'.mem, h.mem, List.mem_append, or_assoc]
  nodup := h'.nodup.trans h.nodup

variable [DecidableEq α] {s : Merged α} {i : Nat}

/-- A name that is there is found, another one is put in. -/
theorem mergeName_cases (s : Merged α) (i : Nat) (name : α) :
    (∃ offset, s.allNames[offset]? = some name ∧
        mergeName s i name = { s with lastOffset := offset, lastMatch := i }) ∨
      (name ∉ s.allNames ∧ mergeName s i name =
        { s with allNames := splice (s.lastOffset + i - s.lastMatch) name s.allNames }) := by
  rw [mergeName, Merged.offset]
  split_ifs with hnext
  · exact .inl ⟨s.lastOffset + 1, hnext.2, rfl⟩
  · cases hfind : s.allNames.findIdx? (· = name) with
    | some offset =>
      obtain ⟨hlt, heq, -⟩ := List.findIdx?_eq_some_iff_getElem.mp hfind
      refine .inl ⟨offset, ?_, rfl⟩
      rw [List.getElem?_eq_getElem hlt, of_decide_eq_true heq]
    | none =>
      refine .inr ⟨fun hmem => ?_, rfl⟩
      exact of_decide_eq_false (List.findIdx?_eq_none_iff.mp hfind name hmem) rfl

/-- One new name is added at most, and what was there keeps its order. -/
theorem extends_mergeName (s : Merged α) (i : Nat) (name : α) :
    Extends s.allNames [name] (mergeName s i name).allNames := by
  obtain ⟨offset, hoffset, heq⟩ | ⟨hnew, heq⟩ := mergeName_cases s i name
  · rw [heq]
    refine ⟨List.Sublist.refl _, fun other => ?_, Iff.rfl⟩
    refine ⟨.inl, fun h => h.elim id fun hother => ?_⟩
    rw [List.mem_singleton.mp hother]
    exact List.mem_of_getElem? hoffset
  · rw [heq]
    have hperm := perm_splice (s.lastOffset + i - s.lastMatch) name s.allNames
    refine ⟨sublist_splice _ _ _, fun other => ?_, ?_⟩
    · rw [hperm.mem_iff, List.mem_cons, List.mem_singleton, or_comm]
    · rw [hperm.nodup_iff, List.nodup_cons]
      exact and_iff_right hnew

theorem extends_mergeFrom (names : List α) (i : Nat) (s : Merged α) :
    Extends s.allNames names (mergeFrom i names s).allNames := by
  induction names generalizing i s with
  | nil => exact Extends.refl _
  | cons name names ih => exact (extends_mergeName s i name).trans (ih (i + 1) (mergeName s i name))

theorem extends_mergeNamesInto (h : allNames ≠ []) :
    Extends allNames names (mergeNamesInto names allNames) := by
  rw [mergeNamesInto, if_neg h]
  exact extends_mergeFrom names 0 { allNames }

theorem sublist_mergeNamesInto (names allNames : List α) :
    allNames.Sublist (mergeNamesInto names allNames) := by
  by_cases h : allNames = []
  · rw [h]
    exact List.nil_sublist _
  · exact (extends_mergeNamesInto h).sublist

theorem mem_mergeNamesInto :
    name ∈ mergeNamesInto names allNames ↔ name ∈ allNames ∨ name ∈ names := by
  by_cases h : allNames = []
  · rw [h, mergeNamesInto, if_pos rfl]
    simp
  · exact (extends_mergeNamesInto h).mem name

/-! ### Order -/

/-- What two lists share stands in the same order in both. -/
def OrdersAgree (names allNames : List α) : Prop :=
  names.filter (· ∈ allNames) = allNames.filter (· ∈ names)

/-- A sublist of distinct elements consists of those that are in it. -/
theorem eq_filter_of_sublist {l r : List α} (h : l.Sublist r) (hr : r.Nodup) :
    l = r.filter (· ∈ l) := by
  induction h with
  | slnil => rfl
  | @cons l r a h ih =>
    have ha : a ∉ l := fun hmem => (List.nodup_cons.mp hr).1 (h.subset hmem)
    rw [List.filter_cons_of_neg (by simpa using ha)]
    exact ih (List.nodup_cons.mp hr).2
  | @cons_cons l r a h ih =>
    obtain ⟨ha, hr⟩ := List.nodup_cons.mp hr
    rw [List.filter_cons_of_pos (by simp)]
    congr 1
    conv_lhs => rw [ih hr]
    refine List.filter_congr fun x hx => ?_
    have hne : x ≠ a := fun heq => ha (heq ▸ hx)
    simp [hne]

theorem ordersAgree_of_sublist {l r all : List α} (hall : all.Nodup) (hl : l.Sublist all)
    (hr : r.Sublist all) : OrdersAgree l r := by
  rw [OrdersAgree]
  conv_lhs => rw [eq_filter_of_sublist hl hall]
  conv_rhs => rw [eq_filter_of_sublist hr hall]
  rw [List.filter_filter, List.filter_filter]
  exact List.filter_congr fun x hx => Bool.and_comm _ _

/-- In order so far: the names that were merged are in `pre`, at whose end the next name goes if it
is new, and those to come agree with `post`. -/
structure InOrder (s : Merged α) (i : Nat) (merged rest pre post : List α) : Prop where
  allNames : s.allNames = pre ++ post
  place : pre.length + s.lastMatch = s.lastOffset + i
  merged : merged.Sublist pre
  notMem : ∀ name ∈ rest, name ∉ pre
  agree : OrdersAgree rest post

/-- **A name that is new** goes to the end of what was merged. -/
theorem InOrder.new {merged rest pre post : List α}
    (h : InOrder s i merged (name :: rest) pre post) (hnew : name ∉ s.allNames)
    (hrest : name ∉ rest) :
    InOrder { s with allNames := splice (s.lastOffset + i - s.lastMatch) name s.allNames } (i + 1)
      (merged ++ [name]) rest (pre ++ [name]) post where
  allNames := by
    have hplace : s.lastOffset + i - s.lastMatch = pre.length := by
      have := h.place
      omega
    rw [h.allNames, splice_append hplace]
  place := by
    have := h.place
    rw [List.length_append, List.length_singleton]
    dsimp only
    omega
  merged := h.merged.append (List.Sublist.refl _)
  notMem other hother := by
    rw [List.mem_append, List.mem_singleton]
    rintro (hpre | rfl)
    · exact h.notMem other (List.mem_cons_of_mem _ hother) hpre
    · exact hrest hother
  agree := by
    have hpost : name ∉ post := fun hmem => hnew (h.allNames ▸ List.mem_append_right _ hmem)
    have hagree := h.agree
    rw [OrdersAgree, List.filter_cons_of_neg (by simpa using hpost)] at hagree
    rw [OrdersAgree, hagree]
    refine List.filter_congr fun x hx => ?_
    have hne : x ≠ name := fun heq => hpost (heq ▸ hx)
    simp [hne]

/-- **A name that is there** is behind what was merged, since the orders agree. -/
theorem InOrder.found {merged rest pre post : List α} {offset : Nat}
    (h : InOrder s i merged (name :: rest) pre post) (hall : s.allNames.Nodup)
    (hoffset : s.allNames[offset]? = some name) (hrest : name ∉ rest) :
    ∃ pre' post', InOrder { s with lastOffset := offset, lastMatch := i } (i + 1)
      (merged ++ [name]) rest pre' post' := by
  have hpost : name ∈ post := by
    have hmem : name ∈ pre ++ post := h.allNames ▸ List.mem_of_getElem? hoffset
    exact (List.mem_append.mp hmem).resolve_left (h.notMem name List.mem_cons_self)
  obtain ⟨mid, post', rfl⟩ := List.append_of_mem hpost
  rw [h.allNames] at hall hoffset
  have hdistinct : (mid ++ name :: post').Nodup := (List.nodup_append.mp hall).2.1
  have hmid : name ∉ mid := fun hmem =>
    (List.nodup_append.mp hdistinct).2.2 name hmem name List.mem_cons_self rfl
  have hpost' : name ∉ post' := (List.nodup_cons.mp (List.nodup_append.mp hdistinct).2.1).1
  have hagree := h.agree
  rw [OrdersAgree, List.filter_cons_of_pos (by simp), List.filter_append,
    List.filter_cons_of_pos (by simp)] at hagree
  -- none of the names to come is before this one
  have hskipped : mid.filter (· ∈ name :: rest) = [] := by
    cases hfilter : mid.filter (· ∈ name :: rest) with
    | nil => rfl
    | cons first others =>
      rw [hfilter, List.cons_append] at hagree
      have hfirst : first ∈ mid := (List.mem_filter.mp (hfilter ▸ List.mem_cons_self)).1
      exact absurd ((List.cons.inj hagree).1 ▸ hfirst) hmid
  rw [hskipped, List.nil_append] at hagree
  have hrestMid : ∀ other ∈ rest, other ∉ mid := fun other hother hmem => by
    have := List.filter_eq_nil_iff.mp hskipped other hmem
    simp [hother] at this
  refine ⟨pre ++ mid ++ [name], post', ?_, ?_, ?_, fun other hother => ?_, ?_⟩
  · rw [h.allNames]
    simp
  · have hplace : offset = (pre ++ mid).length := by
      refine ((List.getElem?_inj (by simp) hall).mp ?_).symm
      rw [hoffset, ← List.append_assoc, List.getElem?_append_right le_rfl, Nat.sub_self]
      rfl
    rw [List.length_append, List.length_singleton, hplace]
    dsimp only
    omega
  · exact (h.merged.trans (List.sublist_append_left _ _)).append (List.Sublist.refl _)
  · rw [List.mem_append, List.mem_append, List.mem_singleton]
    rintro ((hpre | hmem) | rfl)
    · exact h.notMem other (List.mem_cons_of_mem _ hother) hpre
    · exact hrestMid other hother hmem
    · exact hrest hother
  · calc rest.filter (· ∈ post') = rest.filter (· ∈ mid ++ name :: post') :=
          List.filter_congr fun x hx => by
            have hne : x ≠ name := fun heq => hrest (heq ▸ hx)
            simp [hrestMid x hx, hne]
      _ = post'.filter (· ∈ name :: rest) := (List.cons.inj hagree).2
      _ = post'.filter (· ∈ rest) := List.filter_congr fun x hx => by
            have hne : x ≠ name := fun heq => hpost' (heq ▸ hx)
            simp [hne]

/-- The names of a run are in its order if they agree with those that were there. -/
theorem InOrder.sublist {merged rest pre post : List α} (h : InOrder s i merged rest pre post)
    (hall : s.allNames.Nodup) (hrest : rest.Nodup) :
    (merged ++ rest).Sublist (mergeFrom i rest s).allNames := by
  induction rest generalizing s i merged pre post with
  | nil =>
    rw [List.append_nil, mergeFrom, h.allNames]
    exact h.merged.trans (List.sublist_append_left _ _)
  | cons name rest ih =>
    obtain ⟨hname, hrest⟩ := List.nodup_cons.mp hrest
    have hall' := (extends_mergeName s i name).nodup.mpr hall
    rw [mergeFrom, ← List.singleton_append, ← List.append_assoc]
    obtain ⟨offset, hoffset, heq⟩ | ⟨hnew, heq⟩ := mergeName_cases s i name
    · obtain ⟨pre', post', h'⟩ := h.found hall hoffset hname
      rw [heq] at hall' ⊢
      exact ih h' hall' hrest
    · rw [heq] at hall' ⊢
      exact ih (h.new hnew hname) hall' hrest

theorem sublist_of_ordersAgree (hnames : names.Nodup) (hall : allNames.Nodup)
    (h : OrdersAgree names allNames) : names.Sublist (mergeNamesInto names allNames) := by
  rw [mergeNamesInto]
  split_ifs
  · exact List.Sublist.refl _
  · have hstart : InOrder { allNames } 0 [] names [] allNames :=
      ⟨rfl, rfl, List.nil_sublist _, fun _ _ => List.not_mem_nil, h⟩
    exact hstart.sublist hall hnames

/-! ### All runs -/

theorem mergeAll_snoc (lists : List (List α)) (names : List α) :
    mergeAll (lists ++ [names]) = mergeNamesInto names (mergeAll lists) := by
  rw [mergeAll, List.foldl_append]
  rfl

theorem mem_mergeAll {lists : List (List α)} :
    name ∈ mergeAll lists ↔ ∃ names ∈ lists, name ∈ names := by
  induction lists using List.reverseRecOn with
  | nil => simp [mergeAll]
  | append_singleton lists names ih =>
    rw [mergeAll_snoc, mem_mergeNamesInto, ih]
    simp [or_and_right, exists_or]

/-- The names of earlier runs stay in their order. -/
theorem sublist_mergeAll_append (lists more : List (List α)) :
    (mergeAll lists).Sublist (mergeAll (lists ++ more)) := by
  induction more using List.reverseRecOn with
  | nil => rw [List.append_nil]
  | append_singleton more names ih =>
    rw [← List.append_assoc, mergeAll_snoc]
    exact ih.trans (sublist_mergeNamesInto _ _)

/-- No name has two rows exactly when the first run with subtests has no two of one name. -/
theorem nodup_mergeAll_iff {lists : List (List α)} :
    (mergeAll lists).Nodup ↔ ((lists.find? (· ≠ [])).getD []).Nodup := by
  induction lists using List.reverseRecOn with
  | nil => rfl
  | append_singleton lists names ih =>
    rw [mergeAll_snoc, List.find?_append]
    by_cases hempty : mergeAll lists = []
    · have hfind : lists.find? (· ≠ []) = none := by
        refine List.find?_eq_none.mpr fun list hlist => ?_
        have hnil : list = [] := List.eq_nil_iff_forall_not_mem.mpr fun name hname =>
          List.not_mem_nil (hempty ▸ mem_mergeAll.mpr ⟨list, hlist, hname⟩)
        simp [hnil]
      rw [hempty, mergeNamesInto, if_pos rfl, hfind, Option.none_or]
      by_cases hnames : names = []
      · simp [hnames]
      · simp [hnames]
    · rw [(extends_mergeNamesInto hempty).nodup, ih]
      obtain ⟨name, hname⟩ := List.exists_mem_of_ne_nil _ hempty
      obtain ⟨list, hlist, hin⟩ := mem_mergeAll.mp hname
      have hsome : (lists.find? (· ≠ [])).isSome :=
        List.find?_isSome.mpr ⟨list, hlist, by simpa using List.ne_nil_of_mem hin⟩
      rw [Option.or_of_isSome hsome]

/-- **A run's names keep their order** among those of all runs exactly when they agree with the
names of the runs before it. -/
theorem sublist_mergeAll_iff {before after : List (List α)} (hnames : names.Nodup)
    (hall : (mergeAll (before ++ names :: after)).Nodup) :
    names.Sublist (mergeAll (before ++ names :: after)) ↔ OrdersAgree names (mergeAll before) := by
  rw [← List.singleton_append, ← List.append_assoc] at hall ⊢
  have hgrows := sublist_mergeAll_append (before ++ [names]) after
  have hbefore : (mergeAll before).Sublist (mergeAll (before ++ [names] ++ after)) :=
    (sublist_mergeAll_append before [names]).trans hgrows
  refine ⟨fun hsub => ordersAgree_of_sublist hall hsub hbefore, fun hagree => ?_⟩
  refine List.Sublist.trans ?_ hgrows
  rw [mergeAll_snoc]
  exact sublist_of_ordersAgree hnames (hall.sublist hbefore) hagree

end Merge

/-! ## The page

Which of the merged names the page shows with its search and its diff, and the number in the
banner. -/

section Page

variable {path : String} {files : List (Option ResultFile)} {table : List ResultRow}

/-- The rows of the subtests are after those of the harness and the duration. -/
theorem map_name_drop_fetchTestFile (h : fetchTestFile path files = some table) :
    (table.drop 2).map ResultRow.name = mergeAll (subtestNames files) := by
  rw [fetchTestFile] at h
  split_ifs at h
  cases h
  change ((mergeAll (subtestNames files)).map (subtestRow files)).map ResultRow.name = _
  rw [List.map_map]
  exact List.map_id _

/-- **The subtests of a run stand in its order** exactly when they agree with the rows that the
runs before it have. -/
theorem sublist_rows_iff {before after : List (Option ResultFile)} {file : ResultFile}
    {subtests : List Subtest} {earlier : List ResultRow}
    (h : fetchTestFile path (before ++ some file :: after) = some table)
    (hearlier : fetchTestFile path before = some earlier)
    (hsubtests : file.subtests = some subtests) (hnames : (subtests.map Subtest.name).Nodup)
    (hrows : ((table.drop 2).map ResultRow.name).Nodup) :
    (subtests.map Subtest.name).Sublist ((table.drop 2).map ResultRow.name) ↔
      OrdersAgree (subtests.map Subtest.name) ((earlier.drop 2).map ResultRow.name) := by
  have hlists : subtestNames (before ++ some file :: after) =
      subtestNames before ++ subtests.map Subtest.name :: subtestNames after := by
    rw [subtestNames, List.filterMap_append, List.filterMap_cons, Option.bind_some, hsubtests]
    rfl
  rw [map_name_drop_fetchTestFile h, hlists] at hrows ⊢
  rw [map_name_drop_fetchTestFile hearlier]
  exact sublist_mergeAll_iff hnames hrows

/-- The results of a test in a run whose subtests all passed. -/
def passing (names : List String) : ResultFile where
  status := "OK"
  message := none
  duration := some 1200
  subtests := some (names.map fun name => ⟨name, "PASS", none⟩)
  screenshots := none

def tableOf (files : List (Option ResultFile)) : List ResultRow :=
  (fetchTestFile "/a.html" files).getD []

/-- A third run may leave a subtest out, but not have two in another order. -/
theorem sublist_rows_reordered :
    ["a", "c"].Sublist (((tableOf [some (passing ["a", "b"]), some (passing ["b", "c"]),
        some (passing ["a", "c"])]).drop 2).map ResultRow.name) ∧
      ¬ ["c", "b"].Sublist (((tableOf [some (passing ["a", "b"]), some (passing ["b", "c"]),
        some (passing ["c", "b"])]).drop 2).map ResultRow.name) := by
  constructor
  · refine (@sublist_rows_iff "/a.html" _ [some (passing ["a", "b"]), some (passing ["b", "c"])] []
      (passing ["a", "c"]) _ _ rfl rfl rfl (by decide) (by decide +kernel)).mpr ?_
    show ["a", "c"] = _
    decide +kernel
  · refine fun h => absurd ((@sublist_rows_iff "/a.html" _
      [some (passing ["a", "b"]), some (passing ["b", "c"])] [] (passing ["c", "b"]) _ _ rfl rfl rfl
      (by decide) (by decide +kernel)).mp h) ?_
    show ¬ ["c", "b"] = _
    decide +kernel

/-- The page is for this subtest: some run has it, the search found it, and the two runs differ in
it if only differences are shown. -/
structure Shown (path : String) (files : List (Option ResultFile))
    (searchResults : Option (List FoundTest)) (onlyShowDifferences : Bool) (name : String) :
    Prop where
  hasResult : ∃ file ∈ files, ∃ data, file = some data ∧
    ∃ subtests, data.subtests = some subtests ∧ name ∈ subtests.map Subtest.name
  found : ∀ test, (searchResults.getD []).find? (fun r => r.test = path) = some test →
    name ∈ test.subtests
  differs : onlyShowDifferences = true → (subtestRow files name).differs = true

/-- The row of the duration is shown. -/
def durationShown (path : String) (files : List (Option ResultFile)) (onlyShowDifferences : Bool) :
    Bool :=
  !onlyShowDifferences || (resultsTableHeaders path files).2.differs

/-- The names of the table are those of the files that were loaded. -/
theorem mem_mergeAll_subtestNames {name : String} : name ∈ mergeAll (subtestNames files) ↔
    ∃ file ∈ files, ∃ data, file = some data ∧
      ∃ subtests, data.subtests = some subtests ∧ name ∈ subtests.map Subtest.name := by
  rw [mem_mergeAll]
  constructor
  · rintro ⟨names, hnames, hname⟩
    obtain ⟨file, hfile, hsome⟩ := List.mem_filterMap.mp hnames
    obtain ⟨subtests, hsubtests, rfl⟩ := Option.map_eq_some_iff.mp hsome
    obtain ⟨data, rfl, hdata⟩ := Option.bind_eq_some_iff.mp hsubtests
    exact ⟨_, hfile, data, rfl, subtests, hdata, hname⟩
  · rintro ⟨file, hfile, data, rfl, subtests, hdata, hname⟩
    refine ⟨_, List.mem_filterMap.mpr ⟨_, hfile, ?_⟩, hname⟩
    rw [Option.bind_some, hdata]
    rfl

/-- The names of the subtests that are shown. -/
def shownNames (path : String) (files : List (Option ResultFile))
    (searchResults : Option (List FoundTest)) (onlyShowDifferences : Bool) : List String :=
  (mergeAll (subtestNames files)).filter fun name =>
    ((searchResults.getD []).find? (fun r => r.test = path)).all (·.subtests.contains name) &&
      (!onlyShowDifferences || (subtestRow files name).differs)

/-- The names that are shown are those that the page is for. -/
theorem mem_shownNames_iff {searchResults : Option (List FoundTest)} {onlyShowDifferences : Bool}
    {name : String} : name ∈ shownNames path files searchResults onlyShowDifferences ↔
      Shown path files searchResults onlyShowDifferences name := by
  rw [shownNames, List.mem_filter, mem_mergeAll_subtestNames, Bool.and_eq_true]
  have hfound : (((searchResults.getD []).find? (fun r => r.test = path)).all
      (·.subtests.contains name)) = true ↔
        ∀ test, (searchResults.getD []).find? (fun r => r.test = path) = some test →
          name ∈ test.subtests := by
    cases (searchResults.getD []).find? fun r => r.test = path <;> simp
  have hdiffers : (!onlyShowDifferences || (subtestRow files name).differs) = true ↔
      (onlyShowDifferences = true → (subtestRow files name).differs = true) := by
    cases onlyShowDifferences <;> simp
  rw [hfound, hdiffers]
  exact ⟨fun ⟨h, h', h''⟩ => ⟨h, h', h''⟩, fun h => ⟨h.hasResult, h.found, h.differs⟩⟩

instance {searchResults : Option (List FoundTest)} {onlyShowDifferences : Bool} {name : String} :
    Decidable (Shown path files searchResults onlyShowDifferences name) :=
  decidable_of_iff _ mem_shownNames_iff

theorem shownNames_eq_filter {searchResults : Option (List FoundTest)}
    {onlyShowDifferences : Bool} :
    shownNames path files searchResults onlyShowDifferences =
      (mergeAll (subtestNames files)).filter
        (Shown path files searchResults onlyShowDifferences ·) := by
  refine List.filter_congr fun name hname => ?_
  rw [Bool.eq_iff_iff, decide_eq_true_iff, ← mem_shownNames_iff, shownNames, List.mem_filter]
  exact (and_iff_right hname).symm

/-- The row of the harness. -/
def harnessRow (path : String) (files : List (Option ResultFile)) : ResultRow :=
  { (resultsTableHeaders path files).1 with
    name := statusName (mergeAll (subtestNames files)).length }

/-- The rows that a search leaves: the two headers, and the subtests that it has found. -/
theorem filterResultsTableBySearch_eq (h : fetchTestFile path files = some table)
    (searchResults : Option (List FoundTest)) :
    filterResultsTableBySearch path searchResults table =
      harnessRow path files :: (resultsTableHeaders path files).2 ::
        ((mergeAll (subtestNames files)).filter fun name =>
          ((searchResults.getD []).find? (fun r => r.test = path)).all
            (·.subtests.contains name)).map (subtestRow files) := by
  rw [fetchTestFile] at h
  split_ifs at h
  cases h
  have hlength : ((mergeAll (subtestNames files)).map (subtestRow files)).length =
      (mergeAll (subtestNames files)).length := List.length_map _
  rw [filterResultsTableBySearch, harnessRow, hlength]
  cases (searchResults.getD []).find? fun r => r.test = path with
  | none => simp
  | some test =>
    simp only [Option.all_some]
    rw [List.filter_map]
    rfl

/-- The rows that are shown, before those of the subtests. -/
def headerRows (path : String) (files : List (Option ResultFile)) (onlyShowDifferences : Bool) :
    List ResultRow :=
  harnessRow path files ::
    if durationShown path files onlyShowDifferences then [(resultsTableHeaders path files).2]
    else []

/-- **The rows of the page**: headers and subtests, each in the order of the table. -/
theorem computeRows_eq {searchResults : Option (List FoundTest)} {onlyShowDifferences : Bool}
    (h : fetchTestFile path files = some table)
    (hruns : onlyShowDifferences = true → 2 ≤ files.length) :
    computeRows (filterResultsTableBySearch path searchResults table) onlyShowDifferences =
      some (headerRows path files onlyShowDifferences ++
        (shownNames path files searchResults onlyShowDifferences).map (subtestRow files)) := by
  rw [filterResultsTableBySearch_eq h, headerRows, shownNames]
  cases onlyShowDifferences with
  | false =>
    change some _ = some _
    simp [durationShown]
  | true =>
    rw [computeRows, if_pos, List.filter_cons, List.filter_map, List.filter_filter, durationShown]
    · congr 2
      simp only [Bool.not_true, Bool.false_or, Function.comp_def, Bool.and_comm]
      split_ifs <;> rfl
    · simp [resultsTableHeaders, subtestRow, hruns rfl]

/-- The banner is right when there are no subtests, or the row of the duration is shown. -/
theorem subtestRowCount_eq_iff (onlyShowDifferences : Bool) (names : List String) :
    subtestRowCount (headerRows path files onlyShowDifferences ++ names.map (subtestRow files)) =
        names.length ↔
      names = [] ∨ durationShown path files onlyShowDifferences = true := by
  rw [subtestRowCount, headerRows]
  cases durationShown path files onlyShowDifferences with
  | true =>
    rw [if_pos rfl]
    cases names with
    | nil => simp
    | cons name names => simp [resultsTableHeaders]
  | false =>
    rw [if_neg Bool.false_ne_true]
    cases names with
    | nil => simp
    | cons name names =>
      -- at most one less than there are
      split_ifs <;> simp

/-- **What the page shows**: the rows are those of the harness, of the duration unless it is the
same, and of the subtests that the page is for, as the runs ordered them. They are distinct if the
first run with subtests has each of them once. The number of subtests that the page tells is right
exactly when there are none or the row of the duration is shown. -/
theorem shows_computeRows {searchResults : Option (List FoundTest)} {onlyShowDifferences : Bool}
    (h : fetchTestFile path files = some table)
    (hruns : onlyShowDifferences = true → 2 ≤ files.length) :
    ∃ names rows,
      computeRows (filterResultsTableBySearch path searchResults table) onlyShowDifferences =
          some rows ∧
        rows = headerRows path files onlyShowDifferences ++ names.map (subtestRow files) ∧
        (∀ name, name ∈ names ↔ Shown path files searchResults onlyShowDifferences name) ∧
        names = ((table.drop 2).map ResultRow.name).filter
          (Shown path files searchResults onlyShowDifferences ·) ∧
        ((((subtestNames files).find? (· ≠ [])).getD []).Nodup → names.Nodup) ∧
        (subtestRowCount rows = names.length ↔
          names = [] ∨ durationShown path files onlyShowDifferences = true) := by
  refine ⟨shownNames path files searchResults onlyShowDifferences, _, computeRows_eq h hruns, rfl,
    fun name => mem_shownNames_iff, ?_, fun hfirst => ?_,
    subtestRowCount_eq_iff onlyShowDifferences _⟩
  · rw [map_name_drop_fetchTestFile h, shownNames_eq_filter]
  · exact (nodup_mergeAll_iff.mpr hfirst).filter _

/-- Two runs agree on one subtest and the duration: the number that the page tells is too small. -/
theorem shows_computeRows_passing :
    ∃ names rows,
      computeRows (filterResultsTableBySearch "/a.html" none
          (tableOf [some (passing ["a", "b"]), some (passing ["b", "c"])])) true = some rows ∧
        rows = headerRows "/a.html" [some (passing ["a", "b"]), some (passing ["b", "c"])] true ++
          names.map (subtestRow [some (passing ["a", "b"]), some (passing ["b", "c"])]) ∧
        names = ["a", "c"] ∧ names.Nodup ∧ subtestRowCount rows ≠ names.length := by
  obtain ⟨names, rows, hrows, heq, -, hnames, hnodup, hcount⟩ := @shows_computeRows "/a.html"
    [some (passing ["a", "b"]), some (passing ["b", "c"])] _ none true rfl fun _ => le_rfl
  have hshown : names = ["a", "c"] := hnames.trans (by decide +kernel)
  refine ⟨names, rows, hrows, heq, hshown, hnodup (by decide), fun h => ?_⟩
  rcases hcount.mp h with hnil | hduration
  · rw [hshown] at hnil
    cases hnil
  · exact absurd hduration (by decide +kernel)

end Page

end WptFyi.Webapp.TestPage
