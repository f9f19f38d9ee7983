import WptFyi.Lib.GoMap
import WptFyi.Shared.ProductSpecs

/-!
# Test URLs and their files (`shared/manifest.go`)

A file such as `a.any.js` is run as several tests that have no file of their own:
`ExplodePossibleFilenames` lists their names, and `ParseTestURL` finds the file from a
name. One table is a map, whose order cannot matter since no two of its suffixes end the
same path (`explosions_eq_of_hasSuffix`); the other is searched in order, `.any.` first.

The names are lists of characters in these proofs, and suffixes of one text are compared by their
lengths. A name may end with a suffix of the second table and still come from a file whose name
ends with one of the first: `x.any.worker.js` is a worker by its last part, and its test is named
like one of the tests of `x.any.js`.

- `parseTestURL_explodePossibleFilenames`: the tests of a file lead back to it, but
  for `.any.worker.js`, whose test has the name of one of the tests of an `.any.js` file;
- `explodePossibleRenames_files`: the renamed tests are tests of the renamed files.
-/

namespace WptFyi.Shared

open Lib GoStrings

/-- `explosions`. -/
def explosions : List (String × List String) :=
  [(".window.js", [".window.html"]),
    (".worker.js", [".worker.html"]),
    (".any.js",
      [".any.html", ".any.worker.html", ".any.serviceworker.html", ".any.sharedworker.html"])]

/-- `implosions`: the `.any.*` suffixes must be matched first. -/
def implosions : List (String × String) :=
  [(".any.html", ".any.js"),
    (".any.worker.html", ".any.js"),
    (".any.serviceworker.html", ".any.js"),
    (".any.sharedworker.html", ".any.js"),
    (".window.html", ".window.js"),
    (".worker.html", ".worker.js")]

/-- An order in which the `range` over the explosions goes. -/
abbrev ExplosionRange := {order : List (String × List String) // order.Perm explosions}

/-- `ExplodePossibleFilenames`; nil is the empty list. -/
def explodePossibleFilenames (range : ExplosionRange) (filePath : String) : List String :=
  match range.1.find? fun entry => hasSuffix filePath entry.1 with
  | none => []
  | some (suffix, exploded) => exploded.map (trimSuffix filePath suffix ++ ·)

/-- `ExplodePossibleRenames`; each of the two explosions ranges in its own order. -/
def explodePossibleRenames (range range' : ExplosionRange) (before after : String) :
    GoMap String String :=
  let result : GoMap String String := Finmap.singleton before after
  let eBefore := explodePossibleFilenames range before
  let eAfter := explodePossibleFilenames range' after
  if eBefore.length = eAfter.length then result.insertAll (eBefore.zip eAfter) else result

/-- The loop over the implosions, which stops at the first that matches. -/
def implode : List (String × String) → String → String
  | [], filePath => filePath
  | (testSuffix, fileSuffix) :: rest, filePath =>
    if hasSuffix filePath testSuffix then trimSuffix filePath testSuffix ++ fileSuffix
    else implode rest filePath

/-- `ParseTestURL`: the file path and the query. -/
def parseTestURL (testURL : String) : String × String :=
  let filePath := String.ofList (testURL.toList.takeWhile (· ≠ '?'))
  let query := String.ofList (testURL.toList.dropWhile (· ≠ '?'))
  (implode implosions filePath, query)

example : parseTestURL "test/file.any.worker.html?variant" = ("test/file.any.js", "?variant") := by
  decide

/-! ## Suffixes -/

section Suffixes

variable {p a s : String}

theorem hasSuffix_append_self (p a : String) : hasSuffix (p ++ a) a = true := by
  rw [hasSuffix_iff, String.toList_append]
  exact List.suffix_append _ _

/-- A suffix of `p ++ a` is one of `a` or goes beyond it. -/
theorem hasSuffix_append_cases (h : hasSuffix (p ++ a) s = true) :
    hasSuffix a s = true ∨ hasSuffix s a = true := by
  rw [hasSuffix_iff, hasSuffix_iff]
  exact List.suffix_or_suffix_of_suffix (hasSuffix_iff.mp h)
    (hasSuffix_iff.mp (hasSuffix_append_self p a))

theorem hasSuffix_append_of_unrelated (h : hasSuffix a s = false) (h' : hasSuffix s a = false) :
    hasSuffix (p ++ a) s = false := by
  by_contra hmatch
  rcases hasSuffix_append_cases (Bool.not_eq_false _ ▸ hmatch) with hsuffix | hsuffix
  · exact absurd hsuffix (by simp [h])
  · exact absurd hsuffix (by simp [h'])

theorem eq_append_of_hasSuffix (h : hasSuffix p s = true) : ∃ t, p = t ++ s := by
  obtain ⟨cs, hcs⟩ := hasSuffix_iff.mp h
  refine ⟨String.ofList cs, String.toList_inj.mp ?_⟩
  rw [String.toList_append, ← hcs, String.toList_ofList]

end Suffixes

/-! ## The tests of a file -/

section Explode

variable {p f t : String} {range range' : ExplosionRange}

/-- No path ends in two of the suffixes. -/
theorem explosions_eq_of_hasSuffix {e e' : String × List String} (he : e ∈ explosions)
    (he' : e' ∈ explosions) (h : hasSuffix f e.1 = true) (h' : hasSuffix f e'.1 = true) :
      e = e' := by
  have hpairs : ∀ e ∈ explosions, ∀ e' ∈ explosions,
      hasSuffix e.1 e'.1 = true ∨ hasSuffix e'.1 e.1 = true → e = e' := by decide
  obtain ⟨q, rfl⟩ := eq_append_of_hasSuffix h
  exact hpairs e he e' he' (hasSuffix_append_cases h')

/-- So the order of the range does not matter. -/
theorem find?_explosions {e : String × List String} (he : e ∈ explosions)
    (h : hasSuffix f e.1 = true) : range.1.find? (fun entry => hasSuffix f entry.1) = some e := by
  have hmem : e ∈ range.1 := range.2.mem_iff.mpr he
  cases hfind : range.1.find? (fun entry => hasSuffix f entry.1) with
  | none => exact absurd h (List.find?_eq_none.mp hfind e hmem)
  | some e' =>
    have he' : e' ∈ explosions := range.2.mem_iff.mp (List.mem_of_find?_eq_some hfind)
    have hmatch : hasSuffix f e'.1 = true := by simpa using List.find?_some hfind
    rw [explosions_eq_of_hasSuffix he he' h hmatch]

theorem explodePossibleFilenames_append {suffix : String} {exploded : List String}
    (he : (suffix, exploded) ∈ explosions) :
    explodePossibleFilenames range (p ++ suffix) = exploded.map (p ++ ·) := by
  rw [explodePossibleFilenames, find?_explosions he (hasSuffix_append_self p suffix)]
  show exploded.map (trimSuffix (p ++ suffix) suffix ++ ·) = _
  rw [trimSuffix_append]

/-- The names of a file are those of the one explosion whose suffix it has. -/
theorem mem_explodePossibleFilenames : t ∈ explodePossibleFilenames range f ↔
    ∃ p, ∃ e ∈ explosions, f = p ++ e.1 ∧ ∃ testSuffix ∈ e.2, t = p ++ testSuffix := by
  constructor
  · intro h
    cases hfind : range.1.find? (fun entry => hasSuffix f entry.1) with
    | none =>
      rw [explodePossibleFilenames, hfind] at h
      exact absurd h List.not_mem_nil
    | some e =>
      obtain ⟨suffix, exploded⟩ := e
      have he : (suffix, exploded) ∈ explosions :=
        range.2.mem_iff.mp (List.mem_of_find?_eq_some hfind)
      have hmatch : hasSuffix f suffix = true := by
        simpa using List.find?_some hfind
      obtain ⟨p, rfl⟩ := eq_append_of_hasSuffix hmatch
      rw [explodePossibleFilenames_append he, List.mem_map] at h
      obtain ⟨testSuffix, htest, rfl⟩ := h
      exact ⟨p, _, he, rfl, testSuffix, htest, rfl⟩
  · rintro ⟨p, ⟨suffix, exploded⟩, he, rfl, testSuffix, htest, rfl⟩
    rw [explodePossibleFilenames_append he]
    exact List.mem_map_of_mem htest

end Explode

/-! ## And back

The table is searched in order, so the suffix of a test is found if none before it matches the
name. Only `.worker.html` has one before it that it is a part of. -/

section Implode

variable {p testSuffix fileSuffix : String}

theorem implode_append {seen rest : List (String × String)}
    (hseen : ∀ e ∈ seen, hasSuffix (p ++ testSuffix) e.1 = false) :
    implode (seen ++ (testSuffix, fileSuffix) :: rest) (p ++ testSuffix) = p ++ fileSuffix := by
  induction seen with
  | nil =>
    rw [List.nil_append, implode, if_pos (hasSuffix_append_self p testSuffix), trimSuffix_append]
  | cons e seen ih =>
    rw [List.cons_append, implode, if_neg (by simp [hseen e List.mem_cons_self])]
    exact ih fun e he => hseen e (List.mem_cons_of_mem _ he)

/-- The file behind a test, where no earlier suffix of the table goes together with its own. -/
theorem implode_of_unrelated (seen rest : List (String × String))
    (htable : implosions = seen ++ (testSuffix, fileSuffix) :: rest)
    (hseen : ∀ e ∈ seen, hasSuffix testSuffix e.1 = false ∧ hasSuffix e.1 testSuffix = false) :
    implode implosions (p ++ testSuffix) = p ++ fileSuffix := by
  rw [htable]
  exact implode_append fun e he => hasSuffix_append_of_unrelated (hseen e he).1 (hseen e he).2

/-- Only `.worker.html` may be part of an earlier suffix. -/
theorem implode_worker (h : hasSuffix (p ++ ".worker.html") ".any.worker.html" = false) :
    implode implosions (p ++ ".worker.html") = p ++ ".worker.js" := by
  have hothers : ∀ e ∈ implosions.take 5, e.1 = ".any.worker.html" ∨
      hasSuffix ".worker.html" e.1 = false ∧ hasSuffix e.1 ".worker.html" = false := by decide
  show implode (implosions.take 5 ++ [(".worker.html", ".worker.js")]) (p ++ ".worker.html") = _
  refine implode_append fun e he => ?_
  rcases hothers e he with heq | ⟨hsuffix, hsuffix'⟩
  · rw [heq]
    exact h
  · exact hasSuffix_append_of_unrelated hsuffix hsuffix'

/-- The suffix that a file has in the place of a test's. -/
theorem implode_explosion {e : String × List String} (he : e ∈ explosions)
    (htest : testSuffix ∈ e.2)
    (h : hasSuffix (p ++ e.1) ".any.worker.js" = false) :
    implode implosions (p ++ testSuffix) = p ++ e.1 := by
  simp only [explosions, List.mem_cons, List.not_mem_nil, or_false] at he
  rcases he with rfl | rfl | rfl
  · obtain rfl := List.mem_singleton.mp htest
    exact implode_of_unrelated (implosions.take 4) (implosions.drop 5) rfl (by decide)
  · obtain rfl := List.mem_singleton.mp htest
    refine implode_worker ?_
    by_contra hmatch
    obtain ⟨q, hq⟩ := eq_append_of_hasSuffix (Bool.not_eq_false _ ▸ hmatch)
    -- then the file is of the excluded kind
    have hp : p = q ++ ".any" := by
      have hsplit : p ++ ".worker.html" = (q ++ ".any") ++ ".worker.html" := by
        rw [hq, String.append_assoc]
        rfl
      rw [← trimSuffix_append p ".worker.html", hsplit, trimSuffix_append]
    have hfile : p ++ ".worker.js" = q ++ ".any.worker.js" := by
      rw [hp, String.append_assoc]
      rfl
    rw [hfile, hasSuffix_append_self] at h
    exact absurd h (by decide)
  · simp only [List.mem_cons, List.not_mem_nil, or_false] at htest
    rcases htest with rfl | rfl | rfl | rfl
    · exact implode_of_unrelated [] (implosions.drop 1) rfl (by decide)
    · exact implode_of_unrelated (implosions.take 1) (implosions.drop 2) rfl (by decide)
    · exact implode_of_unrelated (implosions.take 2) (implosions.drop 3) rfl (by decide)
    · exact implode_of_unrelated (implosions.take 3) (implosions.drop 4) rfl (by decide)

end Implode

/-! ## Test URLs

The URLs of a test file, and the file that is parsed from each of them. -/

section Parse

variable {f t q : String} {range : ExplosionRange}

/-- The query starts at the first question mark. -/
theorem parseTestURL_append (ht : '?' ∉ t.toList) (hq : q = "" ∨ hasPrefix q "?" = true) :
    parseTestURL (t ++ q) = (implode implosions t, q) := by
  have hall : ∀ c ∈ t.toList, decide (c ≠ '?') = true :=
    fun c hc => decide_eq_true fun heq => ht (heq ▸ hc)
  have hstart : q.toList.takeWhile (· ≠ '?') = [] ∧ q.toList.dropWhile (· ≠ '?') = q.toList := by
    rcases hq with rfl | hq
    · exact ⟨rfl, rfl⟩
    · obtain ⟨cs, hcs⟩ := hasPrefix_iff.mp hq
      rw [← hcs]
      exact ⟨rfl, rfl⟩
  rw [parseTestURL, String.toList_append, List.takeWhile_append_of_pos hall,
    List.dropWhile_append_of_pos hall, hstart.1, hstart.2, List.append_nil, String.ofList_toList,
    String.ofList_toList]

theorem notMem_of_mem_explodePossibleFilenames (hf : '?' ∉ f.toList)
    (ht : t ∈ explodePossibleFilenames range f) : '?' ∉ t.toList := by
  have hnone : ∀ e ∈ explosions, ∀ testSuffix ∈ e.2, '?' ∉ testSuffix.toList := by decide
  obtain ⟨p, e, he, rfl, testSuffix, htest, rfl⟩ := mem_explodePossibleFilenames.mp ht
  rw [String.toList_append, List.mem_append, not_or] at hf ⊢
  exact ⟨hf.1, hnone e he testSuffix htest⟩

theorem parseTestURL_of_mem_explode (hf : '?' ∉ f.toList)
    (hworker : hasSuffix f ".any.worker.js" = false)
    (ht : t ∈ explodePossibleFilenames range f) (hq : q = "" ∨ hasPrefix q "?" = true) :
    parseTestURL (t ++ q) = (f, q) := by
  rw [parseTestURL_append (notMem_of_mem_explodePossibleFilenames hf ht) hq]
  obtain ⟨p, e, he, rfl, testSuffix, htest, rfl⟩ := mem_explodePossibleFilenames.mp ht
  rw [implode_explosion he htest hworker]

/-- The test of an `.any.worker.js` file is also one of the tests of an `.any.js` file. -/
theorem parseTestURL_of_mem_explode_worker {p : String} (hf : '?' ∉ (p ++ ".any.worker.js").toList)
    (ht : t ∈ explodePossibleFilenames range (p ++ ".any.worker.js"))
    (hq : q = "" ∨ hasPrefix q "?" = true) : parseTestURL (t ++ q) = (p ++ ".any.js", q) := by
  have heq : p ++ ".any.worker.js" = (p ++ ".any") ++ ".worker.js" := by
    rw [String.append_assoc]
    rfl
  have htest : t = p ++ ".any.worker.html" := by
    have he : (".worker.js", [".worker.html"]) ∈ explosions := by decide
    rw [heq, explodePossibleFilenames_append he] at ht
    calc t = p ++ ".any" ++ ".worker.html" := List.mem_singleton.mp ht
      _ = p ++ ".any.worker.html" := String.append_assoc
  rw [parseTestURL_append (notMem_of_mem_explodePossibleFilenames hf ht) hq, htest,
    implode_of_unrelated (implosions.take 1) (implosions.drop 2) rfl (by decide)]

/-- Each test of a file leads back to the file, with the query of its variant, but for
files that are both a worker and, by their name, a multi-global test. -/
theorem parseTestURL_explodePossibleFilenames (range : ExplosionRange) (f : String)
    (hf : '?' ∉ f.toList) (t : String) (ht : t ∈ explodePossibleFilenames range f) (q : String)
    (hq : q = "" ∨ hasPrefix q "?" = true) :
    (hasSuffix f ".any.worker.js" = false → parseTestURL (t ++ q) = (f, q)) ∧
      ∀ p, f = p ++ ".any.worker.js" → parseTestURL (t ++ q) = (p ++ ".any.js", q) := by
  refine ⟨fun hworker => parseTestURL_of_mem_explode hf hworker ht hq, ?_⟩
  rintro p rfl
  exact parseTestURL_of_mem_explode_worker hf ht hq

/-- A variant of a shared worker test. -/
theorem parseTestURL_explodePossibleFilenames_sharedworker :
    (hasSuffix "a.any.js" ".any.worker.js" = false →
        parseTestURL ("a.any.sharedworker.html" ++ "?b") = ("a.any.js", "?b")) ∧
      ∀ p, "a.any.js" = p ++ ".any.worker.js" →
        parseTestURL ("a.any.sharedworker.html" ++ "?b") = (p ++ ".any.js", "?b") :=
  parseTestURL_explodePossibleFilenames ⟨explosions, List.Perm.refl _⟩ "a.any.js" (by decide)
    "a.any.sharedworker.html" (by decide) "?b" (by decide)

/-- The test of `a.any.worker.js` is taken for one of `a.any.js`. -/
theorem parseTestURL_any_worker :
    '?' ∉ "a.any.worker.js".toList ∧
      "a.any.worker.html" ∈
        explodePossibleFilenames ⟨explosions, List.Perm.refl _⟩ "a.any.worker.js" ∧
      parseTestURL ("a.any.worker.html" ++ "") ≠ ("a.any.worker.js", "") := by
  refine ⟨by decide, by decide, ?_⟩
  decide

end Parse

/-! ## Renames -/

section Renames

variable {before after was is : String} {range range' : ExplosionRange}

/-- A rename of a file to another is one of its tests to tests of the other. -/
theorem explodePossibleRenames_cases
    (h : (explodePossibleRenames range range' before after).lookup was = some is) :
    (was = before ∧ is = after) ∨
      was ∈ explodePossibleFilenames range before ∧ is ∈ explodePossibleFilenames range' after := by
  have hfile : (Finmap.singleton before after : GoMap String String).lookup was = some is →
      was = before ∧ is = after := by
    intro hlookup
    have hmem := Finmap.mem_of_lookup_eq_some hlookup
    obtain rfl := (Finmap.mem_singleton _ _ _).mp hmem
    rw [Finmap.lookup_singleton_eq] at hlookup
    exact ⟨rfl, (Option.some.inj hlookup).symm⟩
  rw [explodePossibleRenames] at h
  split at h
  · rcases GoMap.mem_or_lookup_of_lookup_insertAll h with hmem | hlookup
    · exact Or.inr ⟨(List.of_mem_zip hmem).1, (List.of_mem_zip hmem).2⟩
    · exact Or.inl (hfile hlookup)
  · exact Or.inl (hfile h)

/-- The tests that are renamed lead to the two files. -/
theorem explodePossibleRenames_files (hbefore : '?' ∉ before.toList) (hafter : '?' ∉ after.toList)
    (hworker : hasSuffix before ".any.worker.js" = false)
    (hworker' : hasSuffix after ".any.worker.js" = false)
    (h : (explodePossibleRenames range range' before after).lookup was = some is) :
    (was = before ∧ is = after) ∨ parseTestURL was = (before, "") ∧
      parseTestURL is = (after, "") := by
  rcases explodePossibleRenames_cases h with hfile | ⟨hwas, his⟩
  · exact Or.inl hfile
  · have hparse := parseTestURL_of_mem_explode hbefore hworker hwas (Or.inl rfl)
    have hparse' := parseTestURL_of_mem_explode hafter hworker' his (Or.inl rfl)
    rw [String.append_empty] at hparse hparse'
    exact Or.inr ⟨hparse, hparse'⟩

end Renames

end WptFyi.Shared
