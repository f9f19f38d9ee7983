import WptFyi.Lib.GoStrings

/-!
# Paths as Go's `path/filepath` reads them

`clean` and `dir` on slash-separated paths, and the directories that a loop of
the form `for len(d) > 1 { … ; d = filepath.Dir(d) }` visits.

Lengths are those of Go, in bytes of UTF-8, since such loops compare them. That the loop ends is not
obvious from the definition of `dir`, which cuts the last element off and cleans the rest: cleaning
can rewrite the path, resolving `..` and dropping empty elements, but it never makes it longer
(`byteLen_join_le`), and cutting makes it shorter unless one byte is left. The root is the directory
of itself, so a loop that goes on until nothing changes would not end there; this one stops before.

- `byteLen_dir_le`: `dir` makes a path of two bytes or more shorter, so such a
  loop ends;
- `ancestors_eq`: `ancestors`, which counts the steps down, is that loop;
- `hasPrefix_dir`: the directories of a rooted path are rooted;
- `directoriesAbove`: the directories above a path, the root included.
-/

namespace WptFyi.Lib.FilePath

open GoStrings

/-- `len(s)`: the bytes of a string. -/
def byteLen (s : String) : Nat := (s.toList.map Char.utf8Size).sum

/-- One element of a path, pushed on the elements kept so far (last first). -/
def cleanStep (rooted : Bool) (kept : List String) (elem : String) : List String :=
  if elem = "" ∨ elem = "." then kept
  else if elem = ".." then
    match kept with
    | top :: rest => if top = ".." then elem :: kept else rest
    -- `..` at the root stays at the root
    | [] => if rooted then [] else [elem]
  else elem :: kept

/-- `filepath.Clean`. -/
def clean (path : String) : String :=
  let rooted := hasPrefix path "/"
  let kept := (split path '/').foldl (cleanStep rooted) []
  let out := (if rooted then "/" else "") ++ join kept.reverse '/'
  if out = "" then "." else out

/-- Everything up to the last slash, the slash included. -/
def upToLastSlash (path : String) : String :=
  String.ofList (path.toList.reverse.dropWhile (· ≠ '/')).reverse

/-- `filepath.Dir`. -/
def dir (path : String) : String := clean (upToLastSlash path)

/-- The directories from `d` upwards, at most so many of them. -/
def ancestorsUpTo : Nat → String → List String
  | 0, _ => []
  | n + 1, d => if 1 < byteLen d then d :: ancestorsUpTo n (dir d) else []

/-- The directories from `d` upwards that have a name of two bytes or more. -/
def ancestors (d : String) : List String := ancestorsUpTo (byteLen d) d

/-! ## The loop ends

Cleaning never makes a path longer, and cutting the last element off makes it shorter. So the
length in bytes counts the steps of the loop down. -/

@[simp] theorem byteLen_append (s t : String) : byteLen (s ++ t) = byteLen s + byteLen t := by
  simp [byteLen]

@[simp] theorem byteLen_slash : byteLen "/" = 1 := by decide

/-- The bytes of the elements kept, with a separator for each. -/
def keptLen (kept : List String) : Nat := (kept.map fun e => byteLen e + 1).sum

/-- What an element can add to them: an empty one adds nothing. -/
def elemLen (e : String) : Nat := if e = "" then 0 else byteLen e + 1

theorem keptLen_cons (e : String) (kept : List String) :
    keptLen (e :: kept) = byteLen e + 1 + keptLen kept := by
  simp [keptLen]

/-- An element adds no more than itself to what is kept. -/
theorem keptLen_cleanStep_le (rooted : Bool) (kept : List String) (e : String) :
    keptLen (cleanStep rooted kept e) ≤ keptLen kept + elemLen e := by
  unfold cleanStep
  by_cases hskip : e = "" ∨ e = "."
  · rw [if_pos hskip]
    exact Nat.le_add_right _ _
  rw [if_neg hskip]
  have helem : elemLen e = byteLen e + 1 := if_neg fun he => hskip (Or.inl he)
  have hpush : keptLen (e :: kept) ≤ keptLen kept + elemLen e := by
    rw [keptLen_cons, helem]
    omega
  by_cases hup : e = ".."
  · rw [if_pos hup]
    cases kept with
    | nil =>
      cases rooted with
      | true => exact Nat.zero_le _
      | false => exact hpush
    | cons top rest =>
      by_cases htop : top = ".."
      · simpa only [if_pos htop] using hpush
      · simp only [if_neg htop, keptLen_cons]
        omega
  · rw [if_neg hup]
    exact hpush

theorem keptLen_foldl_le (rooted : Bool) (elems kept : List String) :
    keptLen (elems.foldl (cleanStep rooted) kept) ≤ keptLen kept + (elems.map elemLen).sum := by
  induction elems generalizing kept with
  | nil => exact Nat.le_refl _
  | cons e elems ih =>
    have hstep := keptLen_cleanStep_le rooted kept e
    have hrest := ih (cleanStep rooted kept e)
    rw [List.map_cons, List.sum_cons, List.foldl_cons]
    omega

/-- The length of a path of elements: a separator before each but the first. -/
theorem byteLen_join {elems : List String} (h : elems ≠ []) :
    byteLen (join elems '/') + 1 = keptLen elems := by
  induction elems with
  | nil => exact absurd rfl h
  | cons e elems ih =>
    cases elems with
    | nil => simp [join, keptLen, byteLen]
    | cons e' elems =>
      have hjoin : join (e :: e' :: elems) '/' = e ++ "/" ++ join (e' :: elems) '/' := by
        simp [join, List.intercalate, ← String.toList_inj]
      rw [hjoin, keptLen_cons, ← ih (List.cons_ne_nil _ _)]
      simp only [byteLen_append, byteLen_slash]
      omega

/-- Joining loses the separator of the last element. -/
theorem byteLen_join_le (kept : List String) :
    byteLen (join kept.reverse '/') ≤ keptLen kept - 1 := by
  have hrev : keptLen kept.reverse = keptLen kept := by
    simp [keptLen, List.sum_reverse]
  by_cases h : kept = []
  · subst h
    exact Nat.le_refl _
  · have hne : kept.reverse ≠ [] := by simpa using h
    have hlen := byteLen_join hne
    omega

theorem sum_elemLen_split_le (s : String) :
    ((split s '/').map elemLen).sum ≤ byteLen s + 1 := by
  have hsum : ((split s '/').map elemLen).sum ≤ keptLen (split s '/') := by
    refine List.sum_le_sum fun e _ => ?_
    unfold elemLen
    split <;> omega
  have hne : split s '/' ≠ [] := by simp [split, List.splitOn_ne_nil]
  have hlen := byteLen_join hne
  rw [join_split] at hlen
  omega

theorem split_append_slash (s : String) : split (s ++ "/") '/' = split s '/' ++ [""] := by
  have hlist : (s ++ "/").toList = s.toList ++ '/' :: [] := by simp
  rw [split, hlist, List.splitOn_append_cons_self, split, List.map_append]
  rfl

theorem split_slash_append (s : String) : split ("/" ++ s) '/' = "" :: split s '/' := by
  have hlist : ("/" ++ s).toList = [] ++ '/' :: s.toList := by simp
  rw [split, hlist, List.splitOn_append_cons_self, split]
  rfl

/-- Cleaning a path that ends in a slash takes that slash away, or leaves one
byte. -/
theorem byteLen_clean_append_slash_le (s : String) :
    byteLen (clean (s ++ "/")) ≤ max 1 (byteLen s) := by
  unfold clean
  have hdot : byteLen "." = 1 := by decide
  by_cases hrooted : hasPrefix (s ++ "/") "/" = true
  · -- rooted: an element is lost at each end, for the one slash in front
    simp only [hrooted, if_true]
    have hkept := keptLen_foldl_le true (split (s ++ "/") '/') []
    have hjoin := byteLen_join_le ((split (s ++ "/") '/').foldl (cleanStep true) [])
    have hsum : ((split (s ++ "/") '/').map elemLen).sum ≤ byteLen s := by
      rw [split_append_slash]
      obtain ⟨rest, hrest⟩ := hasPrefix_iff.mp hrooted
      cases hs : s.toList with
      | nil =>
        have hempty : s = "" := by rw [← String.toList_inj, hs]; rfl
        subst hempty
        decide
      | cons c cs =>
        have hc : c = '/' := by
          have := congrArg List.head? hrest
          simpa [hs] using this.symm
        have hcons : s = "/" ++ String.ofList cs := by
          rw [← String.toList_inj, hs, hc]
          simp
        rw [hcons, split_slash_append]
        have := sum_elemLen_split_le (String.ofList cs)
        have hnil : elemLen "" = 0 := rfl
        simp only [List.cons_append, List.map_cons, List.map_append, List.map_nil, List.sum_cons,
          List.sum_append, List.sum_nil, hnil, byteLen_append, byteLen_slash]
        omega
    have hnil : keptLen [] = 0 := rfl
    split_ifs
    · omega
    · rw [byteLen_append, byteLen_slash]
      omega
  · rw [Bool.not_eq_true] at hrooted
    simp only [hrooted, Bool.false_eq_true, if_false]
    have hkept := keptLen_foldl_le false (split (s ++ "/") '/') []
    have hjoin := byteLen_join_le ((split (s ++ "/") '/').foldl (cleanStep false) [])
    have hsum : ((split (s ++ "/") '/').map elemLen).sum ≤ byteLen s + 1 := by
      have := sum_elemLen_split_le s
      have hnil : elemLen "" = 0 := rfl
      rw [split_append_slash]
      simp only [List.map_append, List.map_cons, List.map_nil, List.sum_append, List.sum_cons,
        List.sum_nil, hnil]
      omega
    have hnil : keptLen [] = 0 := rfl
    have hempty : byteLen "" = 0 := rfl
    split_ifs
    · omega
    · rw [byteLen_append]
      omega

theorem upToLastSlash_eq {path : String} {pre post : List Char} (hpost : '/' ∉ post)
    (hpath : path.toList = pre ++ '/' :: post) :
    upToLastSlash path = String.ofList (pre ++ ['/']) := by
  have hdrop : path.toList.reverse.dropWhile (· ≠ '/') = '/' :: pre.reverse := by
    rw [hpath, List.reverse_append, List.reverse_cons, List.append_assoc,
      List.dropWhile_append_of_pos]
    · simp
    · intro c hc
      simpa using fun heq : c = '/' => hpost (heq ▸ List.mem_reverse.mp hc)
  rw [upToLastSlash, hdrop, List.reverse_cons, List.reverse_reverse]

/-- What is cut off ends with a slash, or there is none. -/
theorem upToLastSlash_cases (path : String) :
    upToLastSlash path = "" ∨
      ∃ s, upToLastSlash path = s ++ "/" ∧ byteLen s + 1 ≤ byteLen path := by
  by_cases hslash : '/' ∈ path.toList
  · obtain ⟨pre, post, hpost, hpath⟩ := exists_eq_append_cons_of_mem hslash
    refine Or.inr ⟨String.ofList pre, ?_, ?_⟩
    · rw [upToLastSlash_eq hpost hpath, ← String.toList_inj]
      simp
    · rw [byteLen, byteLen, hpath, String.toList_ofList, List.map_append, List.sum_append,
        List.map_cons, List.sum_cons]
      have hone : Char.utf8Size '/' = 1 := rfl
      omega
  · refine Or.inl ?_
    rw [upToLastSlash, List.dropWhile_eq_nil_iff.mpr]
    · rfl
    · intro c hc
      simpa using fun heq : c = '/' => hslash (heq ▸ List.mem_reverse.mp hc)

/-- **`dir` shortens** every path of two bytes or more. -/
theorem byteLen_dir_le (path : String) : byteLen (dir path) ≤ max 1 (byteLen path - 1) := by
  rw [dir]
  rcases upToLastSlash_cases path with hempty | ⟨s, hs, hlen⟩
  · rw [hempty]
    exact le_max_of_le_left (by decide)
  · rw [hs]
    have := byteLen_clean_append_slash_le s
    omega

/-- More steps than the path has bytes make no difference. -/
theorem ancestorsUpTo_of_le {n m : Nat} {d : String} (hn : byteLen d ≤ n) (hm : byteLen d ≤ m) :
    ancestorsUpTo n d = ancestorsUpTo m d := by
  induction n generalizing m d with
  | zero =>
    cases m with
    | zero => rfl
    | succ m => rw [ancestorsUpTo, ancestorsUpTo, if_neg (by omega)]
  | succ n ih =>
    cases m with
    | zero => rw [ancestorsUpTo, ancestorsUpTo, if_neg (by omega)]
    | succ m =>
      rw [ancestorsUpTo, ancestorsUpTo]
      have hdir := byteLen_dir_le d
      split_ifs with hlong
      · rw [ih (m := m) (by omega) (by omega)]
      · rfl

/-- **The loop**: the directories are `d` itself and those from the directory
of `d`, until one byte is left. -/
theorem ancestors_eq (d : String) :
    ancestors d = if 1 < byteLen d then d :: ancestors (dir d) else [] := by
  have hdir := byteLen_dir_le d
  have hfuel : ancestors d = ancestorsUpTo (byteLen d + 1) d :=
    ancestorsUpTo_of_le (Nat.le_refl _) (Nat.le_succ _)
  rw [hfuel, ancestorsUpTo]
  split_ifs with hlong
  · rw [ancestors, ancestorsUpTo_of_le (by omega) (Nat.le_refl _)]
  · rfl

example : ancestors (dir "/a/b/../c.html") = ["/a"] := by decide

/-! ## Rooted paths -/

theorem hasPrefix_slash_append (s : String) : hasPrefix ("/" ++ s) "/" = true := by
  simp [hasPrefix_iff]

theorem hasPrefix_clean {path : String} (h : hasPrefix path "/" = true) :
    hasPrefix (clean path) "/" = true := by
  unfold clean
  dsimp only
  rw [h, if_pos rfl, if_neg (by simp [← String.toList_inj])]
  exact hasPrefix_slash_append _

/-- A rooted path stays rooted. -/
theorem hasPrefix_upToLastSlash {path : String} (h : hasPrefix path "/" = true) :
    hasPrefix (upToLastSlash path) "/" = true := by
  obtain ⟨rest, hrest⟩ := hasPrefix_iff.mp h
  have hslash : '/' ∈ path.toList := by
    rw [← hrest]
    exact List.mem_cons_self
  obtain ⟨pre, post, hpost, hpath⟩ := exists_eq_append_cons_of_mem hslash
  have hup : upToLastSlash path = String.ofList (pre ++ ['/']) := upToLastSlash_eq hpost hpath
  have hlist : (upToLastSlash path).toList = pre ++ ['/'] := by rw [hup, String.toList_ofList]
  rw [hasPrefix_iff, hlist]
  cases pre with
  | nil => exact List.prefix_rfl
  | cons c pre =>
    rw [← hrest] at hpath
    rw [← (List.cons.inj hpath).1]
    exact List.prefix_append _ _

/-- The directory of a rooted path is rooted. -/
theorem hasPrefix_dir {path : String} (h : hasPrefix path "/" = true) :
    hasPrefix (dir path) "/" = true :=
  hasPrefix_clean (hasPrefix_upToLastSlash h)

/-- The directories above a path, from its own directory up to the root. -/
def directoriesAbove (path : String) : List String := ancestors (dir path) ++ ["/"]

/-- The directories above a rooted path are rooted and have a name. -/
theorem mem_ancestors {d e : String} (he : e ∈ ancestors d) (hd : hasPrefix d "/" = true) :
    hasPrefix e "/" = true ∧ 1 < byteLen e := by
  induction hn : byteLen d using Nat.strong_induction_on generalizing d with
  | _ n ih =>
    rw [ancestors_eq] at he
    split at he
    next hlong =>
      rcases List.mem_cons.mp he with rfl | hmem
      · exact ⟨hd, hlong⟩
      · have hdir := byteLen_dir_le d
        exact ih (byteLen (dir d)) (by omega) hmem (hasPrefix_dir hd) rfl
    next => cases he

end WptFyi.Lib.FilePath
