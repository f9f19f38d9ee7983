import WptFyi.Lib.CommonPrefix
import WptFyi.Lib.FilePath

/-!
# The path shared between tests (`shared/util.go`)

`GetSharedPath` splits the first path and narrows its components down with every
further path. The turn indexes the other path by the components that are left, so
it fails where the other path runs out first (`narrow_cases`).

As long as no path leads out of the first one, its components are left as they are, with its file
name if it has one; once a path does, they end in an empty part for the slash. The answer therefore
depends on more than the greatest common prefix, and `SharedParts` keeps the two cases apart. It is
stated of the paths that were read, so that the index out of range is a condition on a path and
those before it.

- `IsSharedPath`: what the function is for, a statement about the set of paths;
- `SharedParts`: what the loop holds after some paths, the first path untouched or
  the greatest common prefix with an empty last part, `foldlM_sharedPathTurn`;
- `NoneAboveAllBefore`: exactly when no index is out of range;
- `getSharedPath_isSharedPath_iff`: where it gives the shared path;
- `getSharedPath_eq_of_mem_iff`: where no path is a folder above another, the order
  and repetitions do not matter.
-/

namespace WptFyi.Shared

open Lib GoStrings

/-- The loop over `parts`, from index `i` on, with the components not yet looked at. -/
def narrowFrom (parts otherParts : List String) : Nat → List String → Option (List String)
  | _, [] => some parts
  | i, part :: rest =>
    match otherParts[i]? with
    -- `otherParts[i]` panics
    | none => none
    | some other =>
      if part = other then narrowFrom parts otherParts (i + 1) rest
      -- crop to the matching parts, with an empty last part
      else some (parts.take i ++ [""])

def narrow (parts otherParts : List String) : Option (List String) :=
  narrowFrom parts otherParts 0 parts

/-- One path: `parts` is nil until the first. -/
def sharedPathTurn (parts : List String) (path : String) : Option (List String) :=
  if parts = [] then some (split path '/') else narrow parts (split path '/')

/-- `GetSharedPath`; `none` is a panic. -/
def getSharedPath (paths : List String) : Option String :=
  (paths.foldlM sharedPathTurn []).map fun parts => join parts '/'

example : getSharedPath ["/a/z.html", "/a/b/x.html", "/a/b/y.html"] = some "/a/" := by decide

/-! ## What it is for -/

/-- A folder that all paths are in. -/
structure IsCommonFolder (paths : List String) (folder : String) : Prop where
  slash : hasSuffix folder "/" = true
  above : ∀ path ∈ paths, hasPrefix path folder = true

def AllEqual (paths : List String) : Prop := ∃ p, ∀ path ∈ paths, path = p

/-- The path itself where all are equal, else the longest folder that all are in. -/
def IsSharedPath (paths : List String) (p : String) : Prop :=
  (∀ path ∈ paths, path = p) ∨
    ¬ AllEqual paths ∧ IsCommonFolder paths p ∧
      ∀ folder, IsCommonFolder paths folder → folder.length ≤ p.length

/-- `q` is the path `p`, or a folder above it (written without the slash at its end). -/
def AtOrAbove (q p : String) : Prop := p = q ∨ hasPrefix p (q ++ "/") = true

instance (q p : String) : Decidable (AtOrAbove q p) := inferInstanceAs (Decidable (_ ∨ _))

/-- No path, other than the first once more, is equal to or above all the paths before it. -/
def NoneAboveAllBefore (paths : List String) : Prop :=
  ∀ seen path later, paths = seen ++ path :: later → paths.head? ≠ some path →
    ∃ earlier ∈ seen, ¬ AtOrAbove path earlier

/-- All paths are equal, or the first one is written as a folder, or one is not below it. -/
def FirstIsCropped (paths : List String) : Prop :=
  ∀ first ∈ paths.head?, AllEqual paths ∨ hasSuffix first "/" = true ∨
    ∃ path ∈ paths, ¬ AtOrAbove first path

/-! ## One turn

A turn compares the shared path with the next one, part by part, and keeps what they have in
common. -/

section Narrow

variable {parts otherParts : List String} {i : Nat} {part other : String} {rest : List String}

theorem narrowFrom_outOfRange (h : otherParts[i]? = none) :
    narrowFrom parts otherParts i (part :: rest) = none := by
  rw [narrowFrom, h]

theorem narrowFrom_equal (h : otherParts[i]? = some part) :
    narrowFrom parts otherParts i (part :: rest) = narrowFrom parts otherParts (i + 1) rest := by
  rw [narrowFrom, h]
  exact if_pos rfl

theorem narrowFrom_different (h : otherParts[i]? = some other) (hne : part ≠ other) :
    narrowFrom parts otherParts i (part :: rest) = some (parts.take i ++ [""]) := by
  rw [narrowFrom, h]
  exact if_neg hne

/-- Components that both paths have are passed over. -/
theorem narrowFrom_append (f otherRest : List String) (done : List String)
    (hother : otherParts = done ++ f ++ otherRest) :
    narrowFrom parts otherParts done.length (f ++ rest) =
      narrowFrom parts otherParts (done ++ f).length rest := by
  induction f generalizing done with
  | nil => rw [List.nil_append, List.append_nil]
  | cons part f ih =>
    have hget : otherParts[done.length]? = some part := by simp [hother]
    have hlen : done.length + 1 = (done ++ [part]).length := by simp
    rw [List.cons_append, narrowFrom_equal hget, hlen, ih (done ++ [part]) (by simp [hother]),
      List.append_assoc, List.singleton_append]

theorem narrow_append (f rest otherRest : List String) :
    narrow (f ++ rest) (f ++ otherRest) = narrowFrom (f ++ rest) (f ++ otherRest) f.length rest :=
  narrowFrom_append f otherRest [] rfl

end Narrow

/-- The parts stay, or the index runs out of range, or the parts are cropped. -/
theorem narrow_cases (parts otherParts : List String) :
    (parts <+: otherParts ∧ narrow parts otherParts = some parts) ∨
    ((otherParts <+: parts ∧ otherParts ≠ parts) ∧ narrow parts otherParts = none) ∨
    ∃ f x y r s, parts = f ++ x :: r ∧ otherParts = f ++ y :: s ∧ x ≠ y ∧
      narrow parts otherParts = some (f ++ [""]) := by
  rcases prefix_or_part parts otherParts with ⟨t, rfl⟩ | ⟨⟨t, rfl⟩, hne⟩ |
    ⟨f, x, y, r, s, rfl, rfl, hxy⟩
  · refine Or.inl ⟨List.prefix_append _ _, ?_⟩
    have hskip := narrow_append parts [] t
    rw [List.append_nil] at hskip
    exact hskip
  · refine Or.inr (Or.inl ⟨⟨List.prefix_append _ _, hne⟩, ?_⟩)
    cases t with
    | nil => exact absurd (List.append_nil _).symm hne
    | cons part t =>
      have hskip := narrow_append otherParts (part :: t) []
      rw [List.append_nil] at hskip
      rw [hskip]
      exact narrowFrom_outOfRange (by simp)
  · refine Or.inr (Or.inr ⟨f, x, y, r, s, rfl, rfl, hxy, ?_⟩)
    have hget : (f ++ y :: s)[f.length]? = some y := by simp
    rw [narrow_append, narrowFrom_different hget hxy, List.take_left]

/-! ## Components of a path -/

theorem split_ne_nil (path : String) : split path '/' ≠ [] := by
  simp [split]

theorem split_inj {p q : String} (h : split p '/' = split q '/') : p = q := by
  rw [← join_split p '/', h, join_split]

/-- A folder above a path has its components, and the path more. -/
theorem hasPrefix_slash_iff {p q : String} :
    hasPrefix p (q ++ "/") = true ↔ split q '/' <+: split p '/' ∧ split q '/' ≠ split p '/' := by
  constructor
  · intro h
    obtain ⟨t, ht⟩ := hasPrefix_iff.mp h
    have hp : p = q ++ "/" ++ String.ofList t := by
      rw [← String.toList_inj, String.toList_append, String.toList_ofList, ht]
    -- what follows the slash makes further pieces
    have hsplit : split p '/' = split q '/' ++ split (String.ofList t) '/' := by
      have hlist : p.toList = q.toList ++ '/' :: t := by simp [hp]
      rw [split, hlist, List.splitOn_append_cons_self, List.map_append, split, split,
        String.toList_ofList]
    refine ⟨⟨_, hsplit.symm⟩, fun heq => split_ne_nil (String.ofList t) ?_⟩
    rw [← heq] at hsplit
    exact List.self_eq_append_right.mp hsplit
  · rintro ⟨⟨rest, hrest⟩, hne⟩
    cases rest with
    | nil => exact absurd (by simpa using hrest) hne
    | cons piece rest =>
      rw [hasPrefix_iff]
      have hp : p = q ++ "/" ++ join (piece :: rest) '/' := by
        calc p = join (split q '/' ++ piece :: rest) '/' := by rw [hrest, join_split]
          _ = join (split q '/') '/' ++ "/" ++ join (piece :: rest) '/' :=
            join_append (split_ne_nil q) piece rest '/'
          _ = q ++ "/" ++ join (piece :: rest) '/' := by rw [join_split]
      rw [hp, String.toList_append (s := q ++ "/")]
      exact List.prefix_append _ _

theorem atOrAbove_iff {q p : String} : AtOrAbove q p ↔ split q '/' <+: split p '/' := by
  rw [AtOrAbove, hasPrefix_slash_iff]
  constructor
  · rintro (rfl | h)
    · exact List.prefix_rfl
    · exact h.1
  · intro h
    by_cases heq : split q '/' = split p '/'
    · exact Or.inl (split_inj heq.symm)
    · exact Or.inr ⟨h, heq⟩

/-! ## The loop

As long as no path leads out of the first one its parts are untouched, after that they are the
greatest common prefix. The loop fails exactly at a path that is above all before it. -/

section Loop

variable {first path p q : String} {paths : List String} {parts : List String}

/-- The components of the paths. -/
def components (paths : List String) : Set (List String) :=
  {cs | ∃ path ∈ paths, split path '/' = cs}

theorem components_snoc (paths : List String) (path : String) :
    components (paths ++ [path]) = insert (split path '/') (components paths) := by
  ext cs
  simp only [components, List.mem_append, List.mem_singleton, Set.mem_ofPred_eq, Set.mem_insert_iff,
    or_and_right, exists_or, exists_eq_left]
  rw [or_comm, eq_comm]

theorem commonPrefix_components {cs : List String} :
    CommonPrefix (components paths) cs ↔ ∀ path ∈ paths, cs <+: split path '/' := by
  constructor
  · intro h path hmem
    exact h _ ⟨path, hmem, rfl⟩
  · rintro h cs ⟨path, hmem, rfl⟩
    exact h path hmem

theorem forall_atOrAbove_iff :
    (∀ path ∈ paths, AtOrAbove q path) ↔ CommonPrefix (components paths) (split q '/') := by
  simp only [atOrAbove_iff, commonPrefix_components]

/-- What `parts` holds after some paths: the components of the first while all are at
or below it, then the greatest prefix common to all, with an empty last part. -/
def SharedParts (first : String) (paths parts : List String) : Prop :=
  ((∀ path ∈ paths, AtOrAbove first path) ∧ parts = split first '/') ∨
    (∃ path ∈ paths, ¬ AtOrAbove first path) ∧
      ∃ f, IsGreatestPrefix (components paths) f ∧ parts = f ++ [""]

theorem SharedParts.ne_nil (h : SharedParts first paths parts) : parts ≠ [] := by
  rcases h with ⟨-, rfl⟩ | ⟨-, f, -, rfl⟩
  · exact split_ne_nil first
  · exact List.append_ne_nil_of_right_ne_nil _ (List.cons_ne_nil _ _)

theorem SharedParts.of_first (first : String) : SharedParts first [first] (split first '/') := by
  refine Or.inl ⟨fun path hmem => ?_, rfl⟩
  rw [List.mem_singleton.mp hmem]
  exact Or.inl rfl

/-- The turn fails exactly on a path other than the first that is above all before it. -/
theorem SharedParts.narrow_eq_none (h : SharedParts first paths parts) (hfirst : first ∈ paths)
    (hne : path ≠ first) (habove : ∀ earlier ∈ paths, AtOrAbove path earlier) :
    narrow parts (split path '/') = none := by
  have hbelow : split path '/' <+: parts ∧ split path '/' ≠ parts := by
    rcases h with ⟨-, rfl⟩ | ⟨⟨p, hp, hnot⟩, f, hf, rfl⟩
    · exact ⟨atOrAbove_iff.mp (habove first hfirst), fun heq => hne (split_inj heq)⟩
    · have hle := hf.greatest _ (forall_atOrAbove_iff.mp habove)
      refine ⟨hle.trans (List.prefix_append f [""]), fun heq => ?_⟩
      have hlen := hle.length_le
      rw [heq, List.length_append, List.length_singleton] at hlen
      omega
  obtain ⟨hpre, hneParts⟩ := hbelow
  rcases narrow_cases parts (split path '/') with ⟨hcont, -⟩ | ⟨-, hrun⟩ |
    ⟨f, x, y, r, s, hl, hr, hxy, -⟩
  · exact absurd (hpre.eq_of_length_le hcont.length_le) hneParts
  · exact hrun
  · rw [hl, hr] at hpre
    exact absurd hpre (not_prefix_of_part hxy.symm)

/-- **One turn**: a path that is not above all before it narrows the parts down. -/
theorem SharedParts.narrow (h : SharedParts first paths parts) (hfirst : first ∈ paths)
    (hok : path = first ∨ ∃ earlier ∈ paths, ¬ AtOrAbove path earlier) :
    ∃ parts', narrow parts (split path '/') = some parts' ∧
      SharedParts first (paths ++ [path]) parts' := by
  rcases narrow_cases parts (split path '/') with
    ⟨hcont, hrun⟩ | ⟨⟨hpre, hne⟩, -⟩ | ⟨f, x, y, r, s, hl, hr, hxy, hrun⟩
  · refine ⟨parts, hrun, ?_⟩
    rcases h with ⟨hall, rfl⟩ | ⟨⟨p, hp, hnot⟩, f, hf, rfl⟩
    · refine Or.inl ⟨fun p hp => ?_, rfl⟩
      rcases List.mem_append.mp hp with hp | hp
      · exact hall p hp
      · rw [List.mem_singleton.mp hp]
        exact atOrAbove_iff.mpr hcont
    · refine Or.inr ⟨⟨p, List.mem_append_left _ hp, hnot⟩, f, ?_, rfl⟩
      rw [components_snoc]
      exact hf.insert_of_prefix ((List.prefix_append f [""]).trans hcont)
  · -- the other path runs out: it would be above all the paths before
    exfalso
    have hall : path ≠ first ∧ ∀ earlier ∈ paths, AtOrAbove path earlier := by
      rcases h with ⟨hall, rfl⟩ | ⟨⟨p, hp, hnot⟩, f, hf, rfl⟩
      · refine ⟨fun heq => hne (by rw [heq]), fun earlier hmem => ?_⟩
        exact atOrAbove_iff.mpr (hpre.trans (atOrAbove_iff.mp (hall earlier hmem)))
      · have hle : split path '/' <+: f := by
          rcases List.prefix_concat_iff.mp hpre with heq | hle
          · exact absurd heq hne
          · exact hle
        have habove : ∀ earlier ∈ paths, AtOrAbove path earlier := forall_atOrAbove_iff.mpr
          fun cs hcs => hle.trans (hf.common cs hcs)
        exact ⟨fun heq => hnot (heq ▸ habove p hp), habove⟩
    rcases hok with heq | ⟨earlier, hmem, hnot⟩
    · exact hall.1 heq
    · exact hnot (hall.2 earlier hmem)
  · refine ⟨f ++ [""], hrun, Or.inr ?_⟩
    have hgreatest : IsGreatestPrefix (components (paths ++ [path])) f := by
      rw [components_snoc, hr]
      rcases h with ⟨hall, rfl⟩ | ⟨-, g, hg, rfl⟩
      · have hcommon := forall_atOrAbove_iff.mp hall
        rw [hl] at hcommon
        have hmem : f ++ x :: r ∈ components paths := ⟨first, hfirst, hl⟩
        exact (IsGreatestPrefix.of_mem hmem hcommon).insert_of_part hxy
      · rcases List.eq_nil_or_concat' r with rfl | ⟨r', z, rfl⟩
        · -- only the empty last part differs
          obtain ⟨rfl, -⟩ := List.append_inj' hl rfl
          exact hg.insert_of_prefix (List.prefix_append g (y :: s))
        · rw [← List.cons_append, ← List.append_assoc] at hl
          obtain ⟨rfl, -⟩ := List.append_inj' hl rfl
          exact hg.insert_of_part hxy
    refine ⟨?_, f, hgreatest, rfl⟩
    rcases h with ⟨hall, rfl⟩ | ⟨⟨p, hp, hnot⟩, -⟩
    · refine ⟨path, List.mem_append_right _ (List.mem_singleton_self path), fun habove => ?_⟩
      have hcont := atOrAbove_iff.mp habove
      rw [hl, hr] at hcont
      exact not_prefix_of_part hxy hcont
    · exact ⟨p, List.mem_append_left _ hp, hnot⟩

theorem sharedPathTurn_of_ne_nil (h : parts ≠ []) (path : String) :
    sharedPathTurn parts path = narrow parts (split path '/') :=
  if_neg h

/-- One more path. -/
theorem noneAboveAllBefore_snoc (hfirst : paths.head? = some first) :
    NoneAboveAllBefore (paths ++ [path]) ↔
      NoneAboveAllBefore paths ∧ (path = first ∨ ∃ earlier ∈ paths, ¬ AtOrAbove path earlier) := by
  have hhead : (paths ++ [path]).head? = some first := by rw [List.head?_append, hfirst]; rfl
  constructor
  · intro h
    refine ⟨fun seen p later hsplit hne => ?_, ?_⟩
    · refine h seen p (later ++ [path]) (by rw [hsplit, List.append_assoc, List.cons_append]) ?_
      rw [hhead, ← hfirst]
      exact hne
    · by_cases heq : path = first
      · exact Or.inl heq
      · refine Or.inr (h paths path [] rfl ?_)
        rw [hhead]
        exact fun h => heq (Option.some.inj h).symm
  · rintro ⟨hpaths, hlast⟩ seen p later hsplit hne
    rw [hhead, ← hfirst] at hne
    rcases List.eq_nil_or_concat' later with rfl | ⟨later, q, rfl⟩
    · obtain ⟨rfl, heq⟩ := List.append_inj' hsplit rfl
      obtain rfl := (List.cons.inj heq).1
      rcases hlast with rfl | hlast
      · exact absurd hfirst hne
      · exact hlast
    · rw [← List.cons_append, ← List.append_assoc] at hsplit
      exact hpaths seen p later (List.append_inj' hsplit rfl).1 hne

/-- The loop over all paths: it fails, or what it holds is known. -/
theorem foldlM_sharedPathTurn (first : String) (rest : List String) :
    (NoneAboveAllBefore (first :: rest) →
      ∃ parts, (first :: rest).foldlM sharedPathTurn [] = some parts ∧
        SharedParts first (first :: rest) parts) ∧
    (¬ NoneAboveAllBefore (first :: rest) →
      (first :: rest).foldlM sharedPathTurn [] = none) := by
  -- one more path at the end is one more turn
  induction rest using List.reverseRecOn with
  | nil =>
    refine ⟨fun _ => ⟨split first '/', rfl, SharedParts.of_first first⟩, fun hnot => absurd ?_ hnot⟩
    intro seen path later hsplit hne
    cases seen with
    | nil => exact absurd (by rw [hsplit]; rfl) hne
    | cons p seen => simp at hsplit
  | append_singleton rest path ih =>
    obtain ⟨hok, hfail⟩ := ih
    have hfold : (first :: (rest ++ [path])).foldlM sharedPathTurn [] =
        ((first :: rest).foldlM sharedPathTurn []).bind (sharedPathTurn · path) := by
      rw [← List.cons_append, List.foldlM_append]
      simp
    rw [hfold, ← List.cons_append, noneAboveAllBefore_snoc rfl]
    by_cases hbefore : NoneAboveAllBefore (first :: rest)
    · obtain ⟨parts, hrun, hparts⟩ := hok hbefore
      rw [hrun, Option.bind_some, sharedPathTurn_of_ne_nil hparts.ne_nil]
      refine ⟨fun h => hparts.narrow List.mem_cons_self h.2, fun h => ?_⟩
      have hlast : ¬ (path = first ∨ ∃ earlier ∈ first :: rest, ¬ AtOrAbove path earlier) :=
        fun hlast => h ⟨hbefore, hlast⟩
      push Not at hlast
      exact hparts.narrow_eq_none List.mem_cons_self hlast.1 hlast.2
    · rw [hfail hbefore, Option.bind_none]
      exact ⟨fun h => absurd h.1 hbefore, fun _ => rfl⟩

end Loop

/-! ## The answer

Which answers are right, by whether there is a greatest shared prefix, and when the loop gives
one. -/

section Answer

variable {first p : String} {paths : List String}

theorem length_le_of_hasPrefix {s t : String} (h : hasPrefix s t = true) : t.length ≤ s.length := by
  have hlen := (hasPrefix_iff.mp h).length_le
  rwa [String.length_toList, String.length_toList] at hlen

theorem AtOrAbove.hasPrefix (h : AtOrAbove first p) : hasPrefix p first = true := by
  rw [hasPrefix_iff]
  rcases h with rfl | h
  · exact List.prefix_rfl
  · have hpre := hasPrefix_iff.mp h
    rw [String.toList_append] at hpre
    exact (List.prefix_append _ _).trans hpre

/-- A folder is a path with a slash at its end. -/
theorem exists_eq_append_slash {folder : String} (h : hasSuffix folder "/" = true) :
    ∃ q, folder = q ++ "/" := by
  obtain ⟨cs, hcs⟩ := hasSuffix_iff.mp h
  refine ⟨String.ofList cs, ?_⟩
  rw [← String.toList_inj, String.toList_append, String.toList_ofList, hcs]

/-- Where all paths are at or below the first, it is the answer if all are equal to it
or it is a folder. -/
theorem isSharedPath_first_iff (hfirst : first ∈ paths)
    (hall : ∀ path ∈ paths, AtOrAbove first path) :
    IsSharedPath paths first ↔ AllEqual paths ∨ hasSuffix first "/" = true := by
  constructor
  · rintro (heq | ⟨-, hfolder, -⟩)
    · exact Or.inl ⟨first, heq⟩
    · exact Or.inr hfolder.slash
  · intro h
    by_cases heq : AllEqual paths
    · obtain ⟨q, hq⟩ := heq
      exact Or.inl fun path hmem => (hq path hmem).trans (hq first hfirst).symm
    · have hslash := h.resolve_left heq
      refine Or.inr ⟨heq, ⟨hslash, fun path hmem => (hall path hmem).hasPrefix⟩, ?_⟩
      exact fun folder hfolder => length_le_of_hasPrefix (hfolder.above first hfirst)

/-- The greatest common prefix of the components is the answer, as a folder, if no path
consists of it alone. -/
theorem isSharedPath_of_isGreatestPrefix {f : List String}
    (hf : IsGreatestPrefix (components paths) f)
    (hne : f ≠ []) (hpaths : paths ≠ []) (hproper : ∀ path ∈ paths, split path '/' ≠ f)
    (hdiff : ¬ AllEqual paths) : IsSharedPath paths (join (f ++ [""]) '/') := by
  have hjoin : join (f ++ [""]) '/' = join f '/' ++ "/" := by
    rw [join_snoc hne, String.append_empty]
    rfl
  have hsplit : split (join f '/') '/' = f := by
    obtain ⟨path, hmem⟩ := List.exists_mem_of_ne_nil paths hpaths
    have hle := commonPrefix_components.mp hf.common path hmem
    exact split_join hne fun piece hpiece => notMem_of_mem_split (hle.subset hpiece)
  rw [hjoin]
  refine Or.inr ⟨hdiff, ⟨hasSuffix_iff.mpr ?_, fun path hmem => ?_⟩, fun folder hfolder => ?_⟩
  · rw [String.toList_append]
    exact List.suffix_append _ _
  · rw [hasPrefix_slash_iff, hsplit]
    exact ⟨commonPrefix_components.mp hf.common path hmem, (hproper path hmem).symm⟩
  · obtain ⟨q, rfl⟩ := exists_eq_append_slash hfolder.slash
    -- a common folder has components common to all, so no more than the greatest
    have hq : split q '/' <+: f := hf.greatest _ (commonPrefix_components.mpr fun path hmem =>
      (hasPrefix_slash_iff.mp (hfolder.above path hmem)).1)
    have habove : AtOrAbove q (join f '/') := atOrAbove_iff.mpr (by rwa [hsplit])
    have hlen := length_le_of_hasPrefix habove.hasPrefix
    rw [String.length_append, String.length_append]
    omega

theorem singleton_prefix_split (h : hasPrefix p "/" = true) : [""] <+: split p '/' := by
  obtain ⟨t, ht⟩ := hasPrefix_iff.mp h
  have hp : p = "/" ++ String.ofList t := by
    refine String.toList_inj.mp ?_
    simp [← ht]
  rw [hp, FilePath.split_slash_append]
  exact List.prefix_append [""] _

/-- The cropped parts are the answer where no path is above all that come before it. -/
theorem isSharedPath_of_cropped {f : List String}
    (hroot : ∀ path ∈ paths, hasPrefix path "/" = true)
    (hhead : paths.head? = some first) (hbelow : ∃ path ∈ paths, ¬ AtOrAbove first path)
    (hnone : NoneAboveAllBefore paths) (hf : IsGreatestPrefix (components paths) f) :
    IsSharedPath paths (join (f ++ [""]) '/') := by
  obtain ⟨p, hp, hnot⟩ := hbelow
  have hfirst : first ∈ paths := List.mem_of_head? hhead
  have hrooted : [""] <+: f := hf.greatest _ (commonPrefix_components.mpr fun path hmem =>
    singleton_prefix_split (hroot path hmem))
  have hne : f ≠ [] := fun h => List.cons_ne_nil _ _ (List.prefix_nil.mp (h ▸ hrooted))
  have hproper : ∀ path ∈ paths, split path '/' ≠ f := by
    rintro path hmem rfl
    have habove : ∀ earlier ∈ paths, AtOrAbove path earlier := forall_atOrAbove_iff.mpr hf.common
    have hother : paths.head? ≠ some path := by
      rw [hhead]
      rintro ⟨rfl⟩
      exact hnot (habove p hp)
    obtain ⟨seen, later, rfl⟩ := List.append_of_mem hmem
    obtain ⟨earlier, hearlier, hnotAbove⟩ := hnone seen path later rfl hother
    exact hnotAbove (habove earlier (List.mem_append_left _ hearlier))
  refine isSharedPath_of_isGreatestPrefix hf hne (List.ne_nil_of_mem hfirst) hproper ?_
  rintro ⟨q, hq⟩
  exact hnot (Or.inl ((hq p hp).trans (hq first hfirst).symm))

/-- A shared path is returned exactly if no path is above all before it and the first one is not
left whole by mistake. -/
theorem exists_isSharedPath_iff (hroot : ∀ path ∈ paths, hasPrefix path "/" = true) :
    (∃ p, getSharedPath paths = some p ∧ IsSharedPath paths p) ↔
      NoneAboveAllBefore paths ∧ FirstIsCropped paths := by
  cases paths with
  | nil =>
    refine ⟨fun _ => ⟨fun seen path later hsplit => ?_, ?_⟩, fun _ => ⟨"", rfl, Or.inl ?_⟩⟩
    · simp at hsplit
    · simp [FirstIsCropped]
    · simp
  | cons first rest =>
    obtain ⟨hok, hfail⟩ := foldlM_sharedPathTurn first rest
    have hcropped : FirstIsCropped (first :: rest) ↔ AllEqual (first :: rest) ∨
        hasSuffix first "/" = true ∨ ∃ path ∈ first :: rest, ¬ AtOrAbove first path := by
      simp [FirstIsCropped]
    by_cases hnone : NoneAboveAllBefore (first :: rest)
    · obtain ⟨parts, hrun, hparts⟩ := hok hnone
      have hget : getSharedPath (first :: rest) = some (join parts '/') := by
        rw [getSharedPath, hrun, Option.map_some]
      rw [hcropped, hget]
      rcases hparts with ⟨hall, rfl⟩ | ⟨hbelow, f, hf, rfl⟩
      · have hiff := isSharedPath_first_iff List.mem_cons_self hall
        have hnotBelow : ¬ ∃ path ∈ first :: rest, ¬ AtOrAbove first path :=
          fun ⟨path, hmem, hnot⟩ => hnot (hall path hmem)
        simp only [Option.some.injEq, exists_eq_left', join_split, hiff, hnone, true_and, hnotBelow,
          or_false]
      · have hshared := isSharedPath_of_cropped hroot rfl hbelow hnone hf
        exact ⟨fun _ => ⟨hnone, Or.inr (Or.inr hbelow)⟩, fun _ => ⟨_, rfl, hshared⟩⟩
    · have hget : getSharedPath (first :: rest) = none := by
        rw [getSharedPath, hfail hnone, Option.map_none]
      rw [hget]
      exact ⟨fun ⟨_, h, _⟩ => absurd h (by simp), fun h => absurd h.1 hnone⟩

/-- The loop ends without a panic and with the shared path exactly where no path is
above all that come before it, and the first path is not left whole by mistake. -/
theorem getSharedPath_isSharedPath_iff (paths : List String)
    (hroot : ∀ path ∈ paths, hasPrefix path "/" = true) :
    (∃ p, getSharedPath paths = some p ∧ IsSharedPath paths p) ↔
      NoneAboveAllBefore paths ∧ FirstIsCropped paths :=
  exists_isSharedPath_iff hroot

/-- Two tests of one folder. -/
theorem getSharedPath_isSharedPath_iff_siblings :
    ∃ p, getSharedPath ["/a/b/c.html", "/a/b/d.html"] = some p ∧
      IsSharedPath ["/a/b/c.html", "/a/b/d.html"] p := by
  refine (getSharedPath_isSharedPath_iff _ (by decide)).mpr ⟨?_, ?_⟩
  · intro seen path later hsplit hfirst
    match seen with
    | [] =>
      rw [List.nil_append] at hsplit
      exact absurd (congrArg List.head? hsplit) hfirst
    | [earlier] =>
      cases hsplit
      exact ⟨_, List.mem_cons_self, by decide⟩
    | earlier :: earlier' :: seen =>
      have hlength := congrArg List.length hsplit
      simp at hlength
  · rintro first ⟨⟩
    exact .inr (.inr ⟨"/a/b/d.html", by decide, by decide⟩)

/-- Two variants of one test, one of them with a slash: the later path runs out. -/
theorem getSharedPath_panics :
    (∀ path ∈ ["/a/b.html?c/d", "/a/b.html?c"], hasPrefix path "/" = true) ∧
      ¬ ∃ p, getSharedPath ["/a/b.html?c/d", "/a/b.html?c"] = some p ∧
        IsSharedPath ["/a/b.html?c/d", "/a/b.html?c"] p := by
  refine ⟨by decide, ?_⟩
  rintro ⟨p, h, -⟩
  have hnone : getSharedPath ["/a/b.html?c/d", "/a/b.html?c"] = none := by decide
  rw [hnone] at h
  exact absurd h (by simp)

/-! ## Any order

The right answer does not depend on the order of the paths. If no path is above another, neither
does what is returned. -/

/-- There is one shared path. -/
theorem IsSharedPath.unique {p' : String} (hne : paths ≠ []) (h : IsSharedPath paths p)
    (h' : IsSharedPath paths p') : p = p' := by
  obtain ⟨first, hfirst⟩ := List.exists_mem_of_ne_nil paths hne
  rcases h with h | ⟨hdiff, hfolder, hlongest⟩
  · rcases h' with h' | ⟨hdiff', -⟩
    · exact (h first hfirst).symm.trans (h' first hfirst)
    · exact absurd ⟨p, h⟩ hdiff'
  · rcases h' with h' | ⟨-, hfolder', hlongest'⟩
    · exact absurd ⟨p', h'⟩ hdiff
    · -- two prefixes of one path that are equally long
      have hpre := hasPrefix_iff.mp (hfolder.above first hfirst)
      have hpre' := hasPrefix_iff.mp (hfolder'.above first hfirst)
      have hlen : p.toList.length = p'.toList.length := by
        rw [String.length_toList, String.length_toList]
        exact Nat.le_antisymm (hlongest' p hfolder) (hlongest p' hfolder')
      exact String.toList_inj.mp <|
        (List.prefix_of_prefix_length_le hpre hpre' hlen.le).eq_of_length hlen

/-- The shared path is a matter of the set of paths. -/
theorem isSharedPath_congr {paths' : List String} (hmem : ∀ path, path ∈ paths ↔ path ∈ paths') :
    IsSharedPath paths p ↔ IsSharedPath paths' p := by
  have hfolder : ∀ folder, IsCommonFolder paths folder ↔ IsCommonFolder paths' folder := by
    intro folder
    constructor
    · exact fun h => ⟨h.slash, fun path hpath => h.above path ((hmem path).mpr hpath)⟩
    · exact fun h => ⟨h.slash, fun path hpath => h.above path ((hmem path).mp hpath)⟩
  simp only [IsSharedPath, AllEqual, hmem, hfolder]

/-- No path is a folder above another one. -/
def NoneAboveAnother (paths : List String) : Prop :=
  ∀ p ∈ paths, ∀ q ∈ paths, AtOrAbove p q → p = q

/-- Where no path is a folder above another one, the shared path is returned. -/
theorem NoneAboveAnother.exists_getSharedPath (h : NoneAboveAnother paths)
    (hroot : ∀ path ∈ paths, hasPrefix path "/" = true) :
    ∃ p, getSharedPath paths = some p ∧ IsSharedPath paths p := by
  rw [exists_isSharedPath_iff hroot]
  constructor
  · rintro seen path later rfl hne
    cases seen with
    | nil => exact absurd rfl hne
    | cons first seen =>
      refine ⟨first, List.mem_cons_self, fun habove => hne ?_⟩
      rw [h path (by simp) first (by simp) habove]
      rfl
  · intro first hfirst
    have hmem := List.mem_of_head? hfirst
    by_cases heq : ∀ path ∈ paths, path = first
    · exact Or.inl ⟨first, heq⟩
    · push Not at heq
      obtain ⟨path, hpath, hne⟩ := heq
      exact Or.inr (Or.inr ⟨path, hpath, fun habove => hne (h first hmem path hpath habove).symm⟩)

/-- Then neither the order of the tests nor repetitions change the answer. -/
theorem getSharedPath_eq_of_mem_iff {paths' : List String} (h : NoneAboveAnother paths)
    (hroot : ∀ path ∈ paths, hasPrefix path "/" = true)
    (hmem : ∀ path, path ∈ paths ↔ path ∈ paths') : getSharedPath paths = getSharedPath paths' := by
  have h' : NoneAboveAnother paths' := fun p hp q hq =>
    h p ((hmem p).mpr hp) q ((hmem q).mpr hq)
  obtain ⟨p, hget, hp⟩ := h.exists_getSharedPath hroot
  obtain ⟨p', hget', hp'⟩ := h'.exists_getSharedPath fun path hpath =>
    hroot path ((hmem path).mpr hpath)
  by_cases hne : paths = []
  · subst hne
    have hnil : paths' = [] := List.eq_nil_iff_forall_not_mem.mpr fun path hpath =>
      List.not_mem_nil ((hmem path).mpr hpath)
    rw [hnil]
  · rw [hget, hget', hp.unique hne ((isSharedPath_congr hmem).mpr hp')]

end Answer

end WptFyi.Shared
