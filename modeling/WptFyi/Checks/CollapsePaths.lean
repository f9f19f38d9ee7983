import WptFyi.Lib.FilePath
import WptFyi.Shared.ResultsDiff

/-!
# Collapsing a summary into folders (`api/checks/update.go`)

A check shows a diff with at most `limit` rows or so. `collapsePaths` replaces
the deepest paths of a set by their folders, time after time, until the set is
small enough; `collapseSummary` then counts each test under the first of the
paths that it begins with.

Nearly everything here is done in the order of a map: the paths are collected from two maps, sorted
by an unstable sort on a depth that two paths of different shape can share, and tried for a test in
the order of a set. The orders of one run are gathered in the structure `Orders`, so a theorem for
all of them is one for every run of the program. The turns are bounded by ten in the source, and the
loop here has that number as its fuel.

The invariant of the turns is `Coverage`: every test has a path above it in the set, and every path
has a test below it. A turn replaces paths by folders of theirs, so what was covered stays so. With
it no test falls through the loop of `collapseSummary`, and as each is counted under exactly one
path, the sums over the paths are those over the tests.

- `collapseKeys`, `collapseFrom`, `collapsePaths`: one turn and the loop;
- `collapseSummary`, `BeforeAndAfter.add`: the counts of each path;
- `Above`: a path is a test's own name or a folder above it;
- `coverage_collapseFrom`: the paths after any number of turns;
- `collapseSummary_counts`: every test is counted once, below a path above it.
-/

namespace WptFyi.Checks

open Lib Lib.GoStrings Shared

/-! ## Counts before and after -/

/-- Pass rates before and after. -/
@[ext] structure TestBeforeAndAfter where
  passingBefore : Int := 0
  passingAfter : Int := 0
  totalBefore : Int := 0
  totalAfter : Int := 0
deriving DecidableEq

namespace TestBeforeAndAfter

instance : Zero TestBeforeAndAfter := ⟨{}⟩

instance : Add TestBeforeAndAfter where
  add a b := ⟨a.passingBefore + b.passingBefore, a.passingAfter + b.passingAfter,
    a.totalBefore + b.totalBefore, a.totalAfter + b.totalAfter⟩

@[simp] theorem passingBefore_add (a b : TestBeforeAndAfter) :
    (a + b).passingBefore = a.passingBefore + b.passingBefore := rfl

@[simp] theorem passingAfter_add (a b : TestBeforeAndAfter) :
    (a + b).passingAfter = a.passingAfter + b.passingAfter := rfl

@[simp] theorem totalBefore_add (a b : TestBeforeAndAfter) :
    (a + b).totalBefore = a.totalBefore + b.totalBefore := rfl

@[simp] theorem totalAfter_add (a b : TestBeforeAndAfter) :
    (a + b).totalAfter = a.totalAfter + b.totalAfter := rfl

@[simp] theorem passingBefore_zero : (0 : TestBeforeAndAfter).passingBefore = 0 := rfl

@[simp] theorem passingAfter_zero : (0 : TestBeforeAndAfter).passingAfter = 0 := rfl

@[simp] theorem totalBefore_zero : (0 : TestBeforeAndAfter).totalBefore = 0 := rfl

@[simp] theorem totalAfter_zero : (0 : TestBeforeAndAfter).totalAfter = 0 := rfl

instance : AddCommMonoid TestBeforeAndAfter where
  add_assoc a b c := by ext <;> simp [Int.add_assoc]
  zero_add a := by ext <;> simp
  add_zero a := by ext <;> simp
  add_comm a b := by ext <;> simp [Int.add_comm]
  nsmul := nsmulRec

end TestBeforeAndAfter

/-- `BeforeAndAfter`: the counts of a test or of a folder. -/
abbrev BeforeAndAfter := GoMap String TestBeforeAndAfter

/-- `Add`; a summary that is not there is nil. -/
def BeforeAndAfter.add (bna : BeforeAndAfter) (p : String) (before after : Option (Int × Int)) :
    BeforeAndAfter :=
  let sum := (Finmap.lookup p bna).getD {}
  let sum := match before with
    | none => sum
    | some (passes, total) => { sum with
        passingBefore := sum.passingBefore + passes, totalBefore := sum.totalBefore + total }
  let sum := match after with
    | none => sum
    | some (passes, total) => { sum with
        passingAfter := sum.passingAfter + passes, totalAfter := sum.totalAfter + total }
  Finmap.insert p sum bna

/-- What a test adds. -/
def countsOf (before after : Option (Int × Int)) : TestBeforeAndAfter where
  passingBefore := (before.map Prod.fst).getD 0
  passingAfter := (after.map Prod.fst).getD 0
  totalBefore := (before.map Prod.snd).getD 0
  totalAfter := (after.map Prod.snd).getD 0

theorem BeforeAndAfter.add_eq (bna : BeforeAndAfter) (p : String)
    (before after : Option (Int × Int)) :
    bna.add p before after =
      Finmap.insert p ((Finmap.lookup p bna).getD 0 + countsOf before after) bna := by
  unfold BeforeAndAfter.add
  refine congrArg (fun sum => Finmap.insert p sum bna) ?_
  cases before <;> cases after <;> ext <;> simp [countsOf] <;> rfl

/-! ## Collapsing paths -/

/-- How deep a path is, for the sort. -/
def splitDepth (k : String) : Nat := (split k '/').length

/-- The parts of a path; a slash at the end starts none. -/
def partsOf (k : String) : List String :=
  let parts := split k '/'
  if parts.getLast? = some "" then parts.dropLast else parts

/-- The orders of one run that nothing fixes. -/
structure Orders where
  /-- The keys of a turn, after the sort. -/
  sorted : Nat → Finset String → List String
  /-- The tests, as `collapseSummary` goes through them. -/
  keys : Finset String → List String
  /-- The paths, as they are tried for each test. -/
  paths : Finset String → List String
  sorted_listing : ∀ i s, (sorted i s : Multiset String) = s.val
  sorted_depth : ∀ i s, (sorted i s).Pairwise fun k k' => splitDepth k' ≤ splitDepth k
  keys_listing : ∀ s, (keys s : Multiset String) = s.val
  paths_listing : ∀ s, (paths s : Multiset String) = s.val

/-- The folder of a path. -/
def folderOf (k : String) : String := join (partsOf k).dropLast '/' ++ "/"

/-- What the loop over the keys keeps. -/
structure Collapse where
  collapsed : Finset String
  depth : Int
deriving DecidableEq

/-- One key. Every path begins with a slash, so that it has a part to drop. -/
def collapseKey (s : Collapse) (k : String) : Collapse :=
  -- something might have already collapsed down 1 dir into this one
  if k ∈ s.collapsed then s
  else if ((partsOf k).length : Int) < s.depth then { s with collapsed := insert k s.collapsed }
  else { collapsed := insert (folderOf k) s.collapsed, depth := (partsOf k).length }

/-- The loop over the keys of a turn. -/
def collapseKeys (keys : List String) : Collapse := keys.foldl collapseKey ⟨∅, -1⟩

/-- The turns from `i` on, at most so many. -/
def collapseFrom (orders : Orders) (limit : Int) : Nat → Nat → Finset String → Finset String
  | 0, _, result => result
  | turns + 1, i, result =>
    if (result.card : Int) > limit then
      let turn := collapseKeys (orders.sorted i result)
      if i > 0 ∧ turn.depth < 3 then result
      else collapseFrom orders limit turns (i + 1) turn.collapsed
    else result

/-- `collapsePaths`: 10 iterations to avoid edge-case infinite looping. -/
def collapsePaths (orders : Orders) (keys : Finset String) (limit : Int) : Finset String :=
  collapseFrom orders limit 10 0 keys

/-! ## Collapsing a summary -/

/-- The summaries of a diff. -/
structure RunDiff where
  beforeSummary : ResultsSummary
  afterSummary : ResultsSummary

/-- The tests of either summary. -/
def RunDiff.tests (diff : RunDiff) : Finset String :=
  diff.beforeSummary.keys ∪ diff.afterSummary.keys

/-- `collapseSummary`. -/
def collapseSummary (orders : Orders) (diff : RunDiff) (limit : Int) : BeforeAndAfter :=
  let paths := orders.paths (collapsePaths orders diff.tests limit)
  (orders.keys diff.tests).foldl (fun result k =>
    match paths.find? fun p => hasPrefix k p with
    | none => result
    | some p => result.add p (diff.beforeSummary.lookup k) (diff.afterSummary.lookup k)) ∅

/-! ## Paths above tests -/

/-- A path is a test's name, or a folder above it. -/
def Above (p k : String) : Prop := p = k ∨ (hasSuffix p "/" = true ∧ hasPrefix k p = true)

theorem Above.refl (k : String) : Above k k := .inl rfl

theorem Above.beginsWith {p k : String} (h : Above p k) : hasPrefix k p = true := by
  rcases h with rfl | ⟨-, h⟩
  · exact hasPrefix_iff.mpr List.prefix_rfl
  · exact h

theorem Above.trans {p p' k : String} (h : Above p p') (h' : Above p' k) : Above p k := by
  rcases h with rfl | ⟨hfolder, hprefix⟩
  · exact h'
  · exact .inr ⟨hfolder, hasPrefix_iff.mpr
      ((hasPrefix_iff.mp hprefix).trans (hasPrefix_iff.mp h'.beginsWith))⟩

theorem hasSuffix_folderOf (k : String) : hasSuffix (folderOf k) "/" = true := by
  rw [hasSuffix_iff, folderOf, String.toList_append]
  exact List.suffix_append _ _

/-! ## Parts

A path as the list of its parts, with the empty one in front. A folder is a path cut to some of
them. -/

section Parts

variable {k : String}

/-- A path as its parts, with a slash at the end or without. -/
theorem split_cases (k : String) :
    split k '/' = partsOf k ∨ split k '/' = partsOf k ++ [""] := by
  unfold partsOf
  dsimp only
  split
  next hlast =>
    obtain ⟨init, hinit⟩ := List.getLast?_eq_some_iff.mp hlast
    rw [hinit, List.dropLast_concat]
    exact .inr rfl
  next => exact .inl rfl

theorem notMem_of_mem_partsOf {part : String} (h : part ∈ partsOf k) : '/' ∉ part.toList := by
  refine notMem_of_mem_split (s := k) ?_
  rcases split_cases k with heq | heq
  · rwa [heq]
  · rw [heq]
    exact List.mem_append_left _ h

/-- The parts of a path from the root begin with an empty one. -/
theorem partsOf_rooted (h : hasPrefix k "/" = true) : ∃ parts, partsOf k = "" :: parts := by
  obtain ⟨rest, hrest⟩ := hasPrefix_iff.mp h
  have hk : k = "/" ++ String.ofList rest := by rw [← String.toList_inj, ← hrest]; simp
  have hsplit := FilePath.split_slash_append (String.ofList rest)
  rw [← hk] at hsplit
  have hlong : (split (String.ofList rest) '/').length ≠ 0 := by rw [length_split]; omega
  rcases split_cases k with heq | heq
  · exact ⟨_, heq ▸ hsplit⟩
  · rw [hsplit] at heq
    cases hparts : partsOf k with
    | nil =>
      rw [hparts] at heq
      rw [(List.cons.inj heq).2] at hlong
      exact absurd rfl hlong
    | cons part parts =>
      rw [hparts] at heq
      exact ⟨parts, by rw [(List.cons.inj heq).1]⟩

theorem partsOf_ne_nil (h : hasPrefix k "/" = true) : partsOf k ≠ [] := by
  obtain ⟨parts, heq⟩ := partsOf_rooted h
  rw [heq]
  exact List.cons_ne_nil _ _

/-- A folder, from its parts. -/
def folderFrom (parts : List String) : String := join parts '/' ++ "/"

theorem folderOf_eq (k : String) : folderOf k = folderFrom (partsOf k).dropLast := rfl

theorem split_folderFrom {parts : List String} (hne : parts ≠ [])
    (h : ∀ part ∈ parts, '/' ∉ part.toList) : split (folderFrom parts) '/' = parts ++ [""] := by
  rw [folderFrom, FilePath.split_append_slash, split_join hne h]

theorem partsOf_folderFrom {parts : List String} (hne : parts ≠ [])
    (h : ∀ part ∈ parts, '/' ∉ part.toList) : partsOf (folderFrom parts) = parts := by
  unfold partsOf
  dsimp only
  rw [split_folderFrom hne h, List.getLast?_concat, if_pos rfl, List.dropLast_concat]

/-- A path is its parts joined, or the folder from them. -/
theorem eq_join_or_folderFrom (h : hasPrefix k "/" = true) :
    k = join (partsOf k) '/' ∨ k = folderFrom (partsOf k) := by
  have hjoin := join_split k '/'
  rcases split_cases k with heq | heq
  · exact .inl (by rw [heq] at hjoin; exact hjoin.symm)
  · refine .inr ?_
    rw [heq, join_snoc (partsOf_ne_nil h), String.append_empty] at hjoin
    exact hjoin.symm

/-- The folder from the first parts begins what all parts join to. -/
theorem folderFrom_of_take {parts : List String} {n : Nat} (hpos : 0 < n)
    (hn : n < parts.length) : (folderFrom (parts.take n)).toList <+: (join parts '/').toList := by
  have hne : parts.take n ≠ [] :=
    List.ne_nil_of_length_pos (by rw [List.length_take]; omega)
  have hdrop : parts.drop n ≠ [] :=
    List.ne_nil_of_length_pos (by rw [List.length_drop]; omega)
  obtain ⟨part, rest, hrest⟩ := List.exists_cons_of_ne_nil hdrop
  have hjoin : join parts '/' = folderFrom (parts.take n) ++ join (part :: rest) '/' := by
    nth_rewrite 1 [← List.take_append_drop n parts]
    rw [hrest, join_append hne]
    rfl
  rw [hjoin, String.toList_append]
  exact List.prefix_append _ _

/-- A folder from the first parts of a path is above it. -/
theorem hasPrefix_folderFrom_take (h : hasPrefix k "/" = true) {n : Nat}
    (hn : n < (partsOf k).length) : hasPrefix k (folderFrom ((partsOf k).take n)) = true := by
  rcases Nat.eq_zero_or_pos n with rfl | hpos
  · exact h
  rw [hasPrefix_iff]
  refine (folderFrom_of_take hpos hn).trans ?_
  rcases eq_join_or_folderFrom h with heq | heq
  · have hlist : k.toList = (join (partsOf k) '/').toList := congrArg String.toList heq
    rw [hlist]
  · have hlist : k.toList = (join (partsOf k) '/').toList ++ ['/'] := by
      rw [congrArg String.toList heq, folderFrom, String.toList_append]
      rfl
    rw [hlist]
    exact List.prefix_append _ _

/-- The folder of a path is above it. -/
theorem above_folderOf (h : hasPrefix k "/" = true) : Above (folderOf k) k := by
  have hpos : 0 < (partsOf k).length := List.length_pos_of_ne_nil (partsOf_ne_nil h)
  refine .inr ⟨hasSuffix_folderOf k, ?_⟩
  rw [folderOf_eq, List.dropLast_eq_take]
  exact hasPrefix_folderFrom_take h (by omega)

end Parts

/-! ## Every test stays below a path

A turn replaces a path by its folder, which is above whatever the path was above. So each test that
was below a path is below one after any number of turns, whatever the order was. -/

/-- What is above a path from the root is one, too. -/
theorem Above.rooted {p k : String} (h : Above p k) (hk : hasPrefix k "/" = true) :
    hasPrefix p "/" = true := by
  rcases h with rfl | ⟨hfolder, hprefix⟩
  · exact hk
  · rw [hasPrefix_iff] at hk hprefix ⊢
    have hlong : "/".toList.length ≤ p.toList.length := (hasSuffix_iff.mp hfolder).length_le
    exact List.prefix_of_prefix_length_le hk hprefix hlong

/-- **Coverage**: every test has a path above it, and every path a test below. -/
structure Coverage (tests paths : Finset String) : Prop where
  covered : ∀ k ∈ tests, ∃ p ∈ paths, Above p k
  above : ∀ p ∈ paths, ∃ k ∈ tests, Above p k

theorem Coverage.refl (tests : Finset String) : Coverage tests tests :=
  ⟨fun k hk => ⟨k, hk, .refl k⟩, fun k hk => ⟨k, hk, .refl k⟩⟩

theorem Coverage.trans {tests paths paths' : Finset String} (h : Coverage tests paths)
    (h' : Coverage paths paths') : Coverage tests paths' := by
  constructor
  · intro k hk
    obtain ⟨p, hp, habove⟩ := h.covered k hk
    obtain ⟨p', hp', habove'⟩ := h'.covered p hp
    exact ⟨p', hp', habove'.trans habove⟩
  · intro p' hp'
    obtain ⟨p, hp, habove'⟩ := h'.above p' hp'
    obtain ⟨k, hk, habove⟩ := h.above p hp
    exact ⟨k, hk, habove'.trans habove⟩

/-- What one key changes. -/
theorem collapseKey_cases (s : Collapse) (k : String) :
    (k ∈ s.collapsed ∧ collapseKey s k = s) ∨
    (k ∉ s.collapsed ∧ ((partsOf k).length : Int) < s.depth ∧
      collapseKey s k = { s with collapsed := insert k s.collapsed }) ∨
    (k ∉ s.collapsed ∧ s.depth ≤ ((partsOf k).length : Int) ∧
      collapseKey s k =
        { collapsed := insert (folderOf k) s.collapsed, depth := (partsOf k).length }) := by
  unfold collapseKey
  split_ifs with hmem hdepth
  · exact .inl ⟨hmem, rfl⟩
  · exact .inr (.inl ⟨hmem, hdepth, rfl⟩)
  · exact .inr (.inr ⟨hmem, not_lt.mp hdepth, rfl⟩)

/-- A key that is collapsed is covered by what it is collapsed to, and this is above the key. -/
theorem collapseKey_covers (s : Collapse) {k : String} (hk : hasPrefix k "/" = true) :
    (∃ p ∈ (collapseKey s k).collapsed, Above p k) ∧ s.collapsed ⊆ (collapseKey s k).collapsed ∧
      ∀ p ∈ (collapseKey s k).collapsed, p ∈ s.collapsed ∨ Above p k := by
  obtain ⟨hmem, heq⟩ | ⟨-, -, heq⟩ | ⟨-, -, heq⟩ := collapseKey_cases s k <;> rw [heq]
  · exact ⟨⟨k, hmem, .refl k⟩, subset_rfl, fun p hp => .inl hp⟩
  · refine ⟨⟨k, Finset.mem_insert_self _ _, .refl k⟩, Finset.subset_insert _ _, fun p hp => ?_⟩
    rcases Finset.mem_insert.mp hp with rfl | hp
    · exact .inr (.refl p)
    · exact .inl hp
  · refine ⟨⟨_, Finset.mem_insert_self _ _, above_folderOf hk⟩, Finset.subset_insert _ _,
      fun p hp => ?_⟩
    rcases Finset.mem_insert.mp hp with rfl | hp
    · exact .inr (above_folderOf hk)
    · exact .inl hp

/-- One turn. -/
theorem coverage_foldl {keys : List String} (hkeys : ∀ k ∈ keys, hasPrefix k "/" = true)
    (s : Collapse) :
    (∀ k ∈ keys, ∃ p ∈ (keys.foldl collapseKey s).collapsed, Above p k) ∧
      s.collapsed ⊆ (keys.foldl collapseKey s).collapsed ∧
      ∀ p ∈ (keys.foldl collapseKey s).collapsed, p ∈ s.collapsed ∨ ∃ k ∈ keys, Above p k := by
  induction keys generalizing s with
  | nil => exact ⟨fun k hk => absurd hk List.not_mem_nil, subset_rfl, fun p hp => .inl hp⟩
  | cons k keys ih =>
    obtain ⟨hk, hrest⟩ := List.forall_mem_cons.mp hkeys
    obtain ⟨⟨p, hp, habove⟩, hsub, hnew⟩ := collapseKey_covers s hk
    obtain ⟨hcovered, hsub', hnew'⟩ := ih hrest (collapseKey s k)
    rw [List.foldl_cons]
    refine ⟨List.forall_mem_cons.mpr ⟨⟨p, hsub' hp, habove⟩, hcovered⟩, hsub.trans hsub',
      fun p hp => ?_⟩
    rcases hnew' p hp with hp | ⟨k', hk', habove'⟩
    · rcases hnew p hp with hp | habove
      · exact .inl hp
      · exact .inr ⟨k, List.mem_cons_self, habove⟩
    · exact .inr ⟨k', List.mem_cons_of_mem _ hk', habove'⟩

theorem mem_sorted (orders : Orders) {i : Nat} {s : Finset String} {k : String} :
    k ∈ orders.sorted i s ↔ k ∈ s := by
  rw [← Finset.mem_val, ← orders.sorted_listing i s, Multiset.mem_coe]

/-- **One turn** keeps every path covered. -/
theorem coverage_collapseKeys (orders : Orders) (i : Nat) {s : Finset String}
    (hs : ∀ k ∈ s, hasPrefix k "/" = true) :
    Coverage s (collapseKeys (orders.sorted i s)).collapsed := by
  have hsorted : ∀ k ∈ orders.sorted i s, hasPrefix k "/" = true :=
    fun k hk => hs k ((mem_sorted orders).mp hk)
  obtain ⟨hcovered, -, hnew⟩ := coverage_foldl hsorted ⟨∅, -1⟩
  constructor
  · exact fun k hk => hcovered k ((mem_sorted orders).mpr hk)
  · intro p hp
    rcases hnew p hp with hnone | ⟨k, hk, habove⟩
    · exact absurd hnone (Finset.notMem_empty p)
    · exact ⟨k, (mem_sorted orders).mp hk, habove⟩

/-- **The run**: after any number of turns. -/
theorem coverage_collapseFrom (orders : Orders) (limit : Int) (turns i : Nat) {s : Finset String}
    (hs : ∀ k ∈ s, hasPrefix k "/" = true) :
    Coverage s (collapseFrom orders limit turns i s) := by
  induction turns generalizing i s with
  | zero => exact .refl s
  | succ turns ih =>
    rw [collapseFrom]
    dsimp only
    split_ifs
    · exact .refl s
    · have hturn := coverage_collapseKeys orders i hs
      refine hturn.trans (ih (i + 1) fun p hp => ?_)
      obtain ⟨k, hk, habove⟩ := hturn.above p hp
      exact habove.rooted (hs k hk)
    · exact .refl s

/-! ## Every test is counted once

Each test adds its counts to one entry, and the entries are only those of paths, so the counts of
the summary add up to those of the diff. -/

section Counts

variable (diff : RunDiff)

/-- The counts of a test. -/
def RunDiff.counts (k : String) : TestBeforeAndAfter :=
  countsOf (diff.beforeSummary.lookup k) (diff.afterSummary.lookup k)

/-- The path a test is counted under. -/
def entryOf (paths : List String) (k : String) : String :=
  (paths.find? fun p => hasPrefix k p).getD ""

variable {diff}

theorem mem_paths (orders : Orders) {s : Finset String} {p : String} :
    p ∈ orders.paths s ↔ p ∈ s := by
  rw [← Finset.mem_val, ← orders.paths_listing s, Multiset.mem_coe]

theorem mem_keys (orders : Orders) {s : Finset String} {k : String} :
    k ∈ orders.keys s ↔ k ∈ s := by
  rw [← Finset.mem_val, ← orders.keys_listing s, Multiset.mem_coe]

/-- A test that has a path above it is counted under one that it begins with. -/
theorem find?_eq_some_entryOf {paths : List String} {k : String}
    (h : ∃ p ∈ paths, hasPrefix k p = true) :
    (paths.find? fun p => hasPrefix k p) = some (entryOf paths k) := by
  obtain ⟨p, hp⟩ := Option.isSome_iff_exists.mp (List.find?_isSome.mpr h)
  rw [entryOf, hp, Option.getD_some]

theorem entryOf_spec {paths : List String} {k : String} (h : ∃ p ∈ paths, hasPrefix k p = true) :
    entryOf paths k ∈ paths ∧ hasPrefix k (entryOf paths k) = true :=
  ⟨List.mem_of_find?_eq_some (find?_eq_some_entryOf h), List.find?_some (find?_eq_some_entryOf h)⟩

/-- The loop over the tests gathers their counts by path. -/
theorem collapseSummary_eq (orders : Orders) (limit : Int)
    (hcovered : ∀ k ∈ diff.tests, ∃ p ∈ orders.paths (collapsePaths orders diff.tests limit),
      hasPrefix k p = true) :
    collapseSummary orders diff limit = (orders.keys diff.tests).foldl
      (GoMap.upsert (entryOf (orders.paths (collapsePaths orders diff.tests limit)))
        (fun _ => 0) fun sum k => sum + diff.counts k) ∅ := by
  unfold collapseSummary
  refine List.foldl_ext _ _ _ fun result k hk => ?_
  rw [find?_eq_some_entryOf (hcovered k ((mem_keys orders).mp hk))]
  dsimp only
  rw [BeforeAndAfter.add_eq]
  rfl

/-- The sum of what a key has gathered. -/
theorem gather_add (counts : String → TestBeforeAndAfter) (ks : List String) :
    GoMap.gather (fun _ => 0) (fun sum k => sum + counts k) ks =
      if ks = [] then none else some (ks.map counts).sum := by
  cases ks with
  | nil => rfl
  | cons k ks =>
    rw [GoMap.gather, if_neg (List.cons_ne_nil _ _), ← List.foldl_map, List.sum_eq_foldl]

/-- The entry of a path in the summary: the sum of the tests that it is the first to cover, if
there are any. -/
theorem lookup_collapseSummary (orders : Orders) (limit : Int)
    (hcovered : ∀ k ∈ diff.tests, ∃ p ∈ orders.paths (collapsePaths orders diff.tests limit),
      hasPrefix k p = true) (p : String) :
    let entry := entryOf (orders.paths (collapsePaths orders diff.tests limit))
    Finmap.lookup p (collapseSummary orders diff limit) =
      if p ∈ diff.tests.image entry then
        some (∑ k ∈ diff.tests.filter (fun k => entry k = p), diff.counts k)
      else none := by
  intro entry
  rw [collapseSummary_eq orders limit hcovered, GoMap.lookup_foldl_upsert, gather_add]
  have hfilter : (orders.keys diff.tests).filter (fun k => entry k = p) = [] ↔
      p ∉ diff.tests.image entry := by
    simp only [List.filter_eq_nil_iff, mem_keys, decide_eq_true_eq, Finset.mem_image, not_exists,
      not_and]
  by_cases hp : p ∈ diff.tests.image entry
  · have hsum : (((orders.keys diff.tests).filter fun k => entry k = p).map diff.counts).sum =
        ∑ k ∈ diff.tests.filter (fun k => entry k = p), diff.counts k := by
      rw [Finset.sum, Finset.filter_val, ← orders.keys_listing diff.tests, Multiset.filter_coe,
        Multiset.map_coe, Multiset.sum_coe]
    rw [if_neg (fun hnil => hfilter.mp hnil hp), if_pos hp, hsum]
  · rw [if_pos (hfilter.mpr hp), if_neg hp]

/-- The counts of all entries together. -/
theorem sum_values_collapseSummary (orders : Orders) (limit : Int)
    (hcovered : ∀ k ∈ diff.tests, ∃ p ∈ orders.paths (collapsePaths orders diff.tests limit),
      hasPrefix k p = true) :
    (GoMap.values (collapseSummary orders diff limit)).sum = ∑ k ∈ diff.tests, diff.counts k := by
  have hlookup := lookup_collapseSummary orders limit hcovered
  dsimp only at hlookup
  generalize entryOf (orders.paths (collapsePaths orders diff.tests limit)) = entry at hlookup
  have hkeys : (collapseSummary orders diff limit).keys = diff.tests.image entry := by
    ext p
    rw [Finmap.mem_keys, ← Finmap.lookup_isSome, hlookup]
    split_ifs with hp <;> simp [hp]
  have hvalues := GoMap.values_eq_map_keys (collapseSummary orders diff limit)
    (f := fun p => ∑ k ∈ diff.tests.filter (fun k => entry k = p), diff.counts k)
    (fun p v hv => by
      rw [hlookup] at hv
      split_ifs at hv
      exact Option.some.inj hv)
  rw [hvalues, hkeys]
  exact Finset.sum_fiberwise_of_maps_to (fun k hk => Finset.mem_image_of_mem entry hk) diff.counts

end Counts

/-- **`collapseSummary`** on tests from the root, in any orders: after any
number of turns every test is below a path, the paths are tests or folders
above them, and each test is counted under one path that it begins with. -/
theorem collapseSummary_counts {diff : RunDiff}
    (htests : ∀ k ∈ diff.tests, hasPrefix k "/" = true) (limit : Int) (orders : Orders) :
    (∀ turns, ∀ k ∈ diff.tests,
      ∃ p ∈ collapseFrom orders limit turns 0 diff.tests, Above p k) ∧
    (∀ p ∈ collapsePaths orders diff.tests limit, ∃ k ∈ diff.tests, Above p k) ∧
    (∃ entry : String → String,
      (∀ k ∈ diff.tests, entry k ∈ collapsePaths orders diff.tests limit ∧
        hasPrefix k (entry k) = true) ∧
      ∀ p, Finmap.lookup p (collapseSummary orders diff limit) =
        if p ∈ diff.tests.image entry then
          some (∑ k ∈ diff.tests.filter (fun k => entry k = p), diff.counts k)
        else none) ∧
    (GoMap.values (collapseSummary orders diff limit)).sum = ∑ k ∈ diff.tests, diff.counts k := by
  have hcoverage : Coverage diff.tests (collapsePaths orders diff.tests limit) :=
    coverage_collapseFrom orders limit 10 0 htests
  have hcovered : ∀ k ∈ diff.tests,
      ∃ p ∈ orders.paths (collapsePaths orders diff.tests limit), hasPrefix k p = true := by
    intro k hk
    obtain ⟨p, hp, habove⟩ := hcoverage.covered k hk
    exact ⟨p, (mem_paths orders).mpr hp, habove.beginsWith⟩
  refine ⟨fun turns => (coverage_collapseFrom orders limit turns 0 htests).covered,
    hcoverage.above, ⟨_, fun k hk => ?_, lookup_collapseSummary orders limit hcovered⟩,
    sum_values_collapseSummary orders limit hcovered⟩
  obtain ⟨hmem, hprefix⟩ := entryOf_spec (hcovered k hk)
  exact ⟨(mem_paths orders).mp hmem, hprefix⟩

/-! ## Orders there are -/

/-- A set, lower ranks first. -/
noncomputable def byRank (rank : String → Nat) (s : Finset String) : List String :=
  s.toList.insertionSort fun a b => rank a ≤ rank b

theorem byRank_listing (rank : String → Nat) (s : Finset String) :
    (byRank rank s : Multiset String) = s.val := by
  rw [byRank, Multiset.coe_eq_coe.mpr (List.perm_insertionSort _ _), Finset.coe_toList]

theorem mem_byRank {rank : String → Nat} {s : Finset String} {k : String} :
    k ∈ byRank rank s ↔ k ∈ s := by
  rw [← Finset.mem_val, ← byRank_listing rank s, Multiset.mem_coe]

theorem byRank_pairwise (rank : String → Nat) (s : Finset String) :
    (byRank rank s).Pairwise fun a b => rank a ≤ rank b := by
  have : Std.Total fun a b : String => rank a ≤ rank b := ⟨fun a b => Nat.le_total _ _⟩
  have : IsTrans String fun a b => rank a ≤ rank b := ⟨fun a b c => Nat.le_trans⟩
  exact List.pairwise_insertionSort _ _

/-- The deepest paths first, and among those of one depth by `tie`. -/
def depthRank (tie : String → Fin 3) (s : Finset String) (k : String) : Nat :=
  3 * (s.sup splitDepth - splitDepth k) + tie k

theorem splitDepth_le_of_depthRank_le {tie : String → Fin 3} {s : Finset String} {k k' : String}
    (hk' : k' ∈ s) (h : depthRank tie s k ≤ depthRank tie s k') :
    splitDepth k' ≤ splitDepth k := by
  have hsup : splitDepth k' ≤ s.sup splitDepth := Finset.le_sup hk'
  unfold depthRank at h
  omega

/-- The orders in which `tie` decides among paths of one depth, and paths are
tried by rank. -/
noncomputable def Orders.of (tie : String → Fin 3) (rank : Finset String → String → Nat) :
    Orders where
  sorted _ s := byRank (depthRank tie s) s
  keys s := byRank (fun _ => 0) s
  paths s := byRank (rank s) s
  sorted_listing _ s := byRank_listing _ s
  sorted_depth _ s := (byRank_pairwise (depthRank tie s) s).imp_of_mem fun _ hk' h =>
    splitDepth_le_of_depthRank_le (mem_byRank.mp hk') h
  keys_listing s := byRank_listing _ s
  paths_listing s := byRank_listing _ s

/-- Nested folders with a test each. -/
def nestedDiff : RunDiff where
  beforeSummary := GoMap.insertAll ∅
    [("/foo/test.html", (1, 1)), ("/foo/bar/test.html", (1, 1)), ("/foo/bar/baz/test.html", (1, 1))]
  afterSummary := GoMap.insertAll ∅
    [("/foo/test.html", (2, 2)), ("/foo/bar/test.html", (2, 2)), ("/foo/bar/baz/new.html", (2, 2))]

theorem collapseSummary_counts_nested :
    (GoMap.values (collapseSummary (Orders.of (fun _ => 0) fun _ _ => 0) nestedDiff 2)).sum =
      ⟨3, 6, 3, 6⟩ := by
  have htests : ∀ k ∈ nestedDiff.tests, hasPrefix k "/" = true := by decide +kernel
  rw [(collapseSummary_counts htests 2 (Orders.of (fun _ => 0) fun _ _ => 0)).2.2.2]
  decide +kernel

end WptFyi.Checks
