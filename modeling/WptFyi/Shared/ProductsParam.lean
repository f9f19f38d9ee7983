import WptFyi.Shared.ProductSpecs

/-!
# The products of a request (`shared/params.go`)

Products come as repeated `product` parameters or as one `products` parameter that is
split at its commas. The commas between the labels of a spec are hidden first: the
expression `(\[[^\]]*),` is replaced until it does not match any more, and the
placeholder is turned back after the split.

Whether the expression matches is one call and the replacement of all its matches another, so a
turn that matches and replaces nothing would repeat forever. It does not happen: a match has a
comma, which its replacement has not, and so the number of commas goes down with every turn. The
loop is written with that number as its measure.

- `protectNested`: that loop; `count_replaceNested_lt` is why it ends;
- `replaceNested_induction`: replacing, by the matches;
- `parseProductsParam`: the whole function.
-/

namespace WptFyi.Shared

open Lib Lib.GoStrings

/-! ## Matching and replacing

One turn of the regular expression as a function on the characters: where it matches, which comma
it takes, and that one comma less is left. -/

/-- `comma`. -/
def commaPlaceholder : List Char := "%COMMA%".toList

/-- Everything before the last comma. -/
def upToLastComma (run : List Char) : List Char := (run.reverse.dropWhile (· ≠ ',')).tail.reverse

/-- The group of a match of `(\[[^\]]*),` that begins here: greedy, so up to the last
comma before the next closing bracket. -/
def nestedGroup : List Char → Option (List Char)
  | [] => none
  | c :: cs =>
    let run := cs.takeWhile (· ≠ ']')
    if c = '[' ∧ ',' ∈ run then some (c :: upToLastComma run) else none

/-- `nestedCommas.MatchString`. -/
def matchesNested : List Char → Bool
  | [] => false
  | c :: cs => (nestedGroup (c :: cs)).isSome || matchesNested cs

/-- `nestedCommas.ReplaceAllString`: the matches from the left, none in another, where
the first so many characters are in a match already. -/
def replaceNested : Nat → List Char → List Char
  | _, [] => []
  | skip + 1, _ :: cs => replaceNested skip cs
  | 0, c :: cs =>
    match nestedGroup (c :: cs) with
    | some group => group ++ commaPlaceholder ++ replaceNested group.length cs
    | none => c :: replaceNested 0 cs

theorem upToLastComma_spec {run : List Char} (h : ',' ∈ run) :
    ∃ post, run = upToLastComma run ++ ',' :: post := by
  obtain ⟨pre, post, hpost, rfl⟩ := exists_eq_append_cons_of_mem h
  refine ⟨post, ?_⟩
  have hdrop : (post.reverse ++ ',' :: pre.reverse).dropWhile (· ≠ ',') = ',' :: pre.reverse := by
    rw [List.dropWhile_append_of_pos]
    · simp
    · intro c hc
      simpa using fun heq : c = ',' => hpost (heq ▸ List.mem_reverse.mp hc)
  have hrev : (pre ++ ',' :: post).reverse = post.reverse ++ ',' :: pre.reverse := by simp
  rw [upToLastComma, hrev, hdrop, List.tail_cons, List.reverse_reverse]

/-- **A match**: an opening bracket, no closing one, and a comma. -/
theorem nestedGroup_eq_some {cs group : List Char} (h : nestedGroup cs = some group) :
    ∃ inner rest, group = '[' :: inner ∧ cs = '[' :: inner ++ ',' :: rest ∧ ']' ∉ inner := by
  cases cs with
  | nil => cases h
  | cons c cs =>
    rw [nestedGroup] at h
    split at h
    · next hmatch =>
      obtain ⟨rfl, hcomma⟩ := hmatch
      cases h
      obtain ⟨post, hrun⟩ := upToLastComma_spec hcomma
      refine ⟨_, post ++ cs.dropWhile (· ≠ ']'), rfl, ?_, ?_⟩
      · have hcs := List.takeWhile_append_dropWhile (p := (· ≠ ']')) (l := cs)
        rw [hrun] at hcs
        rw [List.cons_append]
        refine congrArg ('[' :: ·) (hcs.symm.trans ?_)
        simp
      · intro hclose
        have hmem : ']' ∈ cs.takeWhile (· ≠ ']') := hrun ▸ List.mem_append_left _ hclose
        simpa using List.mem_takeWhile_imp hmem
    · cases h

theorem replaceNested_skip (skip : Nat) (cs : List Char) :
    replaceNested skip cs = replaceNested 0 (cs.drop skip) := by
  induction skip generalizing cs with
  | zero => rfl
  | succ skip ih =>
    cases cs with
    | nil => rfl
    | cons c cs => exact ih cs

/-- After a match the replacement goes on behind its comma. -/
theorem replaceNested_of_match {inner rest : List Char}
    (h : nestedGroup ('[' :: inner ++ ',' :: rest) = some ('[' :: inner)) :
    replaceNested 0 ('[' :: inner ++ ',' :: rest) =
      '[' :: inner ++ commaPlaceholder ++ replaceNested 0 rest := by
  rw [List.cons_append] at h ⊢
  rw [replaceNested, h]
  show '[' :: inner ++ commaPlaceholder ++
    replaceNested (inner.length + 1) (inner ++ ',' :: rest) = _
  rw [replaceNested_skip]
  congr 2
  simp

/-- **Replacing, by matches**: what holds of the empty text, is kept by a character
where no match begins, and by a whole match, holds of every replacement. -/
theorem replaceNested_induction {P : List Char → List Char → Prop} (nil : P [] [])
    (cons : ∀ c cs out, nestedGroup (c :: cs) = none → P cs out → P (c :: cs) (c :: out))
    (group : ∀ inner rest out, ']' ∉ inner → P rest out →
      P ('[' :: inner ++ ',' :: rest) ('[' :: inner ++ commaPlaceholder ++ out))
    (cs : List Char) : P cs (replaceNested 0 cs) := by
  induction hn : cs.length using Nat.strong_induction_on generalizing cs with
  | _ n ih =>
    cases cs with
    | nil => exact nil
    | cons c cs =>
      cases hgroup : nestedGroup (c :: cs) with
      | none =>
        rw [replaceNested, hgroup]
        exact cons c cs _ hgroup (ih cs.length (by simp at hn; omega) cs rfl)
      | some matched =>
        obtain ⟨inner, rest, rfl, hcs, hinner⟩ := nestedGroup_eq_some hgroup
        rw [hcs] at hgroup hn ⊢
        rw [replaceNested_of_match hgroup]
        exact group inner rest _ hinner (ih rest.length (by simp at hn; omega) rest rfl)

/-- Every replacement is one comma less for each match. -/
theorem count_replaceNested_le (cs : List Char) :
    (replaceNested 0 cs).count ',' ≤ cs.count ',' := by
  refine replaceNested_induction (P := fun cs out => out.count ',' ≤ cs.count ',') (Nat.le_refl _)
    ?_ ?_ cs
  · intro c cs out _ h
    rw [List.count_cons, List.count_cons]
    omega
  · intro inner rest out _ h
    have hplaceholder : commaPlaceholder.count ',' = 0 := by decide
    rw [List.count_append, List.count_append, List.count_append, List.count_cons_self,
      hplaceholder]
    omega

/-- **The measure of the loop**: where the expression matches, commas get fewer. -/
theorem count_replaceNested_lt {cs : List Char} (h : matchesNested cs = true) :
    (replaceNested 0 cs).count ',' < cs.count ',' := by
  induction cs with
  | nil => cases h
  | cons c cs ih =>
    cases hgroup : nestedGroup (c :: cs) with
    | none =>
      rw [matchesNested, hgroup] at h
      have hrest := ih (by simpa using h)
      rw [replaceNested, hgroup]
      show (c :: replaceNested 0 cs).count ',' < _
      rw [List.count_cons, List.count_cons]
      omega
    | some matched =>
      obtain ⟨inner, rest, rfl, hcs, -⟩ := nestedGroup_eq_some hgroup
      have hplaceholder : commaPlaceholder.count ',' = 0 := by decide
      have hrest := count_replaceNested_le rest
      rw [hcs] at hgroup ⊢
      rw [replaceNested_of_match hgroup, List.count_append, List.count_append, List.count_append,
        List.count_cons_self, hplaceholder]
      omega

/-- The loop that hides nested commas. -/
def protectNested (cs : List Char) : List Char :=
  if matchesNested cs then protectNested (replaceNested 0 cs) else cs
termination_by cs.count ','
decreasing_by exact count_replaceNested_lt ‹_›

/-- **The loop ends**, whatever the parameter: after some turns nothing matches. -/
theorem exists_not_matchesNested (cs : List Char) :
    ∃ turns, matchesNested ((replaceNested 0)^[turns] cs) = false ∧
      protectNested cs = (replaceNested 0)^[turns] cs := by
  fun_induction protectNested cs with
  | case1 cs hmatch ih =>
    obtain ⟨turns, hend, hprotect⟩ := ih
    exact ⟨turns + 1, hend, hprotect⟩
  | case2 cs hmatch => exact ⟨0, by simpa using hmatch, rfl⟩

/-! ## The function -/

/-- `strings.Replace(s, comma, ",", -1)`, where the first so many characters are in an
occurrence already. -/
def revertCommas : Nat → List Char → List Char
  | _, [] => []
  | skip + 1, _ :: cs => revertCommas skip cs
  | 0, c :: cs =>
    if commaPlaceholder.isPrefixOf (c :: cs) then
      ',' :: revertCommas (commaPlaceholder.length - 1) cs
    else c :: revertCommas 0 cs

/-- The loop of `parseRepeatedParamValues` over all values. -/
def distinctValues (params : List String) : List String → List String
  | [] => params
  | value :: values =>
    if value = "" ∨ value ∈ params then distinctValues params values
    else distinctValues (params ++ [value]) values

/-- `parseRepeatedParamValues`; nil is the empty list. -/
def parseRepeatedParamValues (repeatedParam : List String) (pluralParam : String) : List String :=
  if repeatedParam = [] ∧ pluralParam = "" then []
  else distinctValues []
    (if pluralParam ≠ "" then repeatedParam ++ split pluralParam ',' else repeatedParam)

section Parsing

variable (m : LowerCase)

/-- `ParseProductSpecs`. -/
def parseProductSpecs : List String → Except String (List ProductSpec)
  | [] => .ok []
  | p :: specs =>
    match parseProductSpec m p with
    | (_, some err) => .error err
    | (product, none) => (parseProductSpecs specs).map (product :: ·)

/-- `ParseProductsParam`, for the values of `product` and the value of `products`, which
is empty when it is not given. -/
def parseProductsParam (repeatedParam : List String) (pluralParam : String) :
    Except String (Option (List ProductSpec)) :=
  let pluralParam := String.ofList (protectNested pluralParam.toList)
  match parseRepeatedParamValues repeatedParam pluralParam with
  | [] => .ok none
  | productParams =>
    (parseProductSpecs m
      (productParams.map fun param => String.ofList (revertCommas 0 param.toList))).map some

end Parsing

end WptFyi.Shared
