import WptFyi.Lib.RangeOrder
import WptFyi.Shared.ProductsParam
import WptFyi.Shared.RowDiffs

/-!
# The diff of two summaries (`shared/run_diff.go`)

`GetResultsDiff` compares the summaries of two runs test by test. A first loop, over the
tests before, finds those that were deleted, changed or left as they were; a second one,
over the tests after, finds those that were added. Which tests are looked at at all is
decided by a set of path prefixes.

Each loop writes one entry for a test at most, and no test gets one from both, so the diff is known
by what it has for each test, whatever the order of the loops: `lookup_getResultsDiff`. The
parameters of a request can then be compared with what they ask for, which is said by the category
of a test and by the paths.

- `getResultsDiff`, `parseDiffFilterParams`: the diff, and what it gets from a request;
- `lookup_getResultsDiff`: the diff of one test, in closed form;
- `SelectsByCategory`: what the parameters ask for;
- `selectsByCategory_iff`: the requests that get it. The set of paths that is parsed is
  never nil, and the loop over the tests before does not run for unchanged tests alone.
-/

namespace WptFyi.Shared

open Lib Lib.GoStrings

/-- `ResultsSummary`: the counts `[passing, total]` by test. -/
abbrev ResultsSummary := GoMap String (Int × Int)

/-! ## The parameters -/

/-- The loop of `ParseDiffFilterParams` over the characters of the filter. -/
def parseDiffFilter (param : DiffFilterParam) : List Char → Except String DiffFilterParam
  | [] => .ok param
  | char :: chars =>
    if char = 'A' then parseDiffFilter { param with added := true } chars
    else if char = 'D' then parseDiffFilter { param with deleted := true } chars
    else if char = 'C' then parseDiffFilter { param with changed := true } chars
    else if char = 'U' then parseDiffFilter { param with unchanged := true } chars
    else .error ("invalid filter character " ++ char.toString)

/-- `ParsePathsParam`, for the values of `path` and the value of `paths`. -/
def parsePathsParam (path : List String) (paths : String) : List String :=
  parseRepeatedParamValues path paths

/-- `ParseDiffFilterParams`. A nil set of paths would be `none`. -/
def parseDiffFilterParams (filter : String) (path : List String) (paths : String) :
    Except String (DiffFilterParam × Option (Finset String)) :=
  let param :=
    if filter ≠ "" then parseDiffFilter ⟨false, false, false, false⟩ filter.toList
    else .ok ⟨true, true, true, false⟩
  -- `NewSetFromStringSlice` makes an empty set of a nil slice
  param.map fun param => (param, some (parsePathsParam path paths).toFinset)

/-! ## The diff -/

/-- `anyPathMatches`. A path is found at index 0 when it is a prefix. -/
def anyPathMatches (paths : Option (Finset String)) (testPath : String) : Bool :=
  match paths with
  | none => true
  | some paths => decide (∃ path ∈ paths, hasPrefix testPath path)

section Diff

variable (before after : ResultsSummary) (filter : DiffFilterParam)
  (paths : Option (Finset String)) (renames : Option (GoMap String String))

/-- One turn of the loop over the tests before. -/
def diffOfBefore (test : String) : Option (String × TestDiff) := do
  let resultsBefore ← before.lookup test
  let test := (renames.bind fun renames => renames.lookup test).getD test
  guard (anyPathMatches paths test)
  let testDiff ← newTestDiff (some resultsBefore) (after.lookup test) filter
  pure (test, testDiff)

/-- One turn of the loop over the tests after. -/
def diffOfAfter (test : String) : Option (String × TestDiff) := do
  let resultsAfter ← after.lookup test
  -- the new name of a renamed test has been handled above
  guard (¬ ∃ names ∈ renames, test ∈ names.values)
  guard (before.lookup test).isNone
  guard (anyPathMatches paths test)
  let testDiff ← newTestDiff none (some resultsAfter) filter
  pure (test, testDiff)

/-- `GetResultsDiff`; `order` is the order of its two loops. -/
def getResultsDiff (order : RangeOrder String) : GoMap String TestDiff :=
  let diff : GoMap String TestDiff := ∅
  let diff :=
    if filter.deleted || filter.changed then
      diff.insertAll ((order before.keys).1.filterMap
        (diffOfBefore before after filter paths renames))
    else diff
  if filter.added then
    diff.insertAll ((order after.keys).1.filterMap
      (diffOfAfter before after filter paths renames))
  else diff

end Diff

/-! ## What the parameters ask for -/

/-- What became of a test. -/
inductive DiffCategory where
  | added
  | deleted
  | changed
  | unchanged
deriving DecidableEq

def diffCategory (before after : ResultsSummary) (test : String) : Option DiffCategory :=
  match before.lookup test, after.lookup test with
  | none, none => none
  | none, some _ => some .added
  | some _, none => some .deleted
  | some before, some after => some (if before = after then .unchanged else .changed)

/-- The filter asks for tests of a category. -/
def DiffFilterParam.enabled (filter : DiffFilterParam) : DiffCategory → Bool
  | .added => filter.added
  | .deleted => filter.deleted
  | .changed => filter.changed
  | .unchanged => filter.unchanged

/-- Its category is enabled, and it is under one of the paths if there are any. -/
def IsSelected (before after : ResultsSummary) (filter : DiffFilterParam) (given : List String)
    (test : String) : Prop :=
  (∃ category ∈ diffCategory before after test, filter.enabled category) ∧
    (given = [] ∨ ∃ path ∈ given, hasPrefix test path)

/-- A diff has the tests that are selected, each with the diff of its summaries. -/
def SelectsByCategory (before after : ResultsSummary) (filter : DiffFilterParam)
    (given : List String) (diff : GoMap String TestDiff) : Prop :=
  (∀ test, test ∈ diff ↔ IsSelected before after filter given test) ∧
    ∀ test testDiff, diff.lookup test = some testDiff →
      newTestDiff (before.lookup test) (after.lookup test) filter = some testDiff

/-! ## The diff of one test

Which tests get an entry in the diff, by their results before and after and the filter, and what it
is. -/

section Lookup

variable {before after : ResultsSummary} {filter : DiffFilterParam}
  {paths : Option (Finset String)}

/-- There is a diff of two summaries where the category of the test is enabled. -/
theorem isSome_newTestDiff (test : String) :
    (newTestDiff (before.lookup test) (after.lookup test) filter).isSome ↔
      ∃ category ∈ diffCategory before after test, filter.enabled category := by
  unfold newTestDiff diffCategory
  cases before.lookup test with
  | none =>
    cases after.lookup test with
    | none => simp
    | some resultsAfter => cases h : filter.added <;> simp [DiffFilterParam.enabled, h]
  | some resultsBefore =>
    cases after.lookup test with
    | none => cases h : filter.deleted <;> simp [DiffFilterParam.enabled, h]
    | some resultsAfter =>
      -- the counts differ when the passes or the totals do
      have hchanged : (resultsBefore.1 - resultsAfter.1 ≠ 0 ∨ resultsBefore.2 ≠ resultsAfter.2) ↔
          resultsBefore ≠ resultsAfter := by
        rw [Ne, Ne, Ne, Prod.ext_iff, sub_eq_zero, not_and_or]
      simp only [hchanged]
      by_cases heq : resultsBefore = resultsAfter
      · cases h : filter.unchanged <;> simp [DiffFilterParam.enabled, heq, h]
      · cases h : filter.changed <;> simp [DiffFilterParam.enabled, heq, h]

/-- A turn of either loop: the path is looked at, and the diff is kept under the name. -/
theorem entry_eq_some_iff {matching : Bool} {found : Option TestDiff} {test test' : String}
    {testDiff : TestDiff} :
    (do guard (matching = true); let testDiff ← found; pure (test, testDiff)) =
        some (test', testDiff) ↔ test' = test ∧ matching ∧ found = some testDiff := by
  cases matching with
  | false => simp
  | true =>
    cases found with
    | none => simp
    | some testDiff' => simp [eq_comm]

theorem diffOfBefore_eq_some_iff {test test' : String} {testDiff : TestDiff} :
    diffOfBefore before after filter paths none test = some (test', testDiff) ↔
      test ∈ before ∧ test' = test ∧ anyPathMatches paths test ∧
        newTestDiff (before.lookup test) (after.lookup test) filter = some testDiff := by
  rw [← Finmap.lookup_isSome]
  unfold diffOfBefore
  cases before.lookup test with
  | none => simp
  | some resultsBefore =>
    rw [Option.isSome_some, and_iff_right rfl]
    exact entry_eq_some_iff

/-- What the second loop adds: tests that are only after, under the paths. -/
theorem diffOfAfter_eq_some_iff {test test' : String} {testDiff : TestDiff} :
    diffOfAfter before after filter paths none test = some (test', testDiff) ↔
      (test ∈ after ∧ test ∉ before) ∧ test' = test ∧ anyPathMatches paths test ∧
        newTestDiff (before.lookup test) (after.lookup test) filter = some testDiff := by
  rw [← Finmap.lookup_isSome, ← Finmap.lookup_eq_none]
  unfold diffOfAfter
  cases after.lookup test with
  | none => simp
  | some resultsAfter =>
    cases before.lookup test with
    | some resultsBefore => simp
    | none =>
      rw [Option.isSome_some, and_iff_right ⟨rfl, rfl⟩]
      refine Iff.trans (iff_of_eq ?_) entry_eq_some_iff
      simp

/-- What the loop over the tests before leaves. -/
theorem lookup_diffOfBefore (order : RangeOrder String) (diff : GoMap String TestDiff)
    (test : String) :
    (diff.insertAll ((order before.keys).1.filterMap
        (diffOfBefore before after filter paths none))).lookup test =
      if test ∈ before ∧ anyPathMatches paths test then
        (newTestDiff (before.lookup test) (after.lookup test) filter).or (diff.lookup test)
      else diff.lookup test := by
  refine GoMap.lookup_insertAll_of_mem_iff
    (P := fun test => test ∈ before ∧ anyPathMatches paths test)
    (f := fun test => newTestDiff (before.lookup test) (after.lookup test) filter)
    (fun test testDiff => ?_) diff test
  rw [List.mem_filterMap]
  constructor
  · rintro ⟨test', -, hturn⟩
    obtain ⟨hbefore, rfl, hpath, hdiff⟩ := diffOfBefore_eq_some_iff.mp hturn
    exact ⟨⟨hbefore, hpath⟩, hdiff⟩
  · rintro ⟨⟨hbefore, hpath⟩, hdiff⟩
    exact ⟨test, (mem_rangeOrder order _ _).mpr (Finmap.mem_keys.mpr hbefore),
      diffOfBefore_eq_some_iff.mpr ⟨hbefore, rfl, hpath, hdiff⟩⟩

/-- What the loop over the tests after adds. -/
theorem lookup_diffOfAfter (order : RangeOrder String) (diff : GoMap String TestDiff)
    (test : String) :
    (diff.insertAll ((order after.keys).1.filterMap
        (diffOfAfter before after filter paths none))).lookup test =
      if (test ∈ after ∧ test ∉ before) ∧ anyPathMatches paths test then
        (newTestDiff (before.lookup test) (after.lookup test) filter).or (diff.lookup test)
      else diff.lookup test := by
  refine GoMap.lookup_insertAll_of_mem_iff
    (P := fun test => (test ∈ after ∧ test ∉ before) ∧ anyPathMatches paths test)
    (f := fun test => newTestDiff (before.lookup test) (after.lookup test) filter)
    (fun test testDiff => ?_) diff test
  rw [List.mem_filterMap]
  constructor
  · rintro ⟨test', -, hturn⟩
    obtain ⟨hafter, rfl, hpath, hdiff⟩ := diffOfAfter_eq_some_iff.mp hturn
    exact ⟨⟨hafter, hpath⟩, hdiff⟩
  · rintro ⟨⟨hafter, hpath⟩, hdiff⟩
    exact ⟨test, (mem_rangeOrder order _ _).mpr (Finmap.mem_keys.mpr hafter.1),
      diffOfAfter_eq_some_iff.mpr ⟨hafter, rfl, hpath, hdiff⟩⟩

/-- **The diff of one test.** The loop over the tests before runs for deleted or changed
tests only, and then finds the unchanged ones as well. -/
theorem lookup_getResultsDiff (order : RangeOrder String) (test : String) :
    (getResultsDiff before after filter paths none order).lookup test =
      if anyPathMatches paths test ∧ (test ∈ before → filter.deleted || filter.changed) then
        newTestDiff (before.lookup test) (after.lookup test) filter
      else none := by
  let first : GoMap String TestDiff :=
    if filter.deleted || filter.changed then
      GoMap.insertAll ∅ ((order before.keys).1.filterMap
        (diffOfBefore before after filter paths none))
    else ∅
  have hfirst : first.lookup test =
      if (test ∈ before ∧ anyPathMatches paths test) ∧ (filter.deleted || filter.changed) then
        newTestDiff (before.lookup test) (after.lookup test) filter else none := by
    show Finmap.lookup test (if _ then _ else _) = _
    split
    · next hloop => rw [lookup_diffOfBefore]; simp [hloop]
    · next hloop => simp [hloop]
  -- a test that is not among those before needs `added`
  have hadded : filter.added = false → test ∉ before →
      newTestDiff (before.lookup test) (after.lookup test) filter = none := by
    intro hoff hbefore
    rw [Finmap.lookup_eq_none.mpr hbefore]
    cases after.lookup test <;> simp [newTestDiff, hoff]
  have hnone : test ∉ before → test ∉ after →
      newTestDiff (before.lookup test) (after.lookup test) filter = none := by
    intro hbefore hafter
    rw [Finmap.lookup_eq_none.mpr hbefore, Finmap.lookup_eq_none.mpr hafter]
    rfl
  show Finmap.lookup test (if filter.added then first.insertAll _ else first) = _
  by_cases hon : filter.added
  · rw [if_pos hon, lookup_diffOfAfter, hfirst]
    by_cases hbefore : test ∈ before
    · simp [hbefore]
    · by_cases hafter : test ∈ after
      · simp [hbefore, hafter]
      · simp [hbefore, hafter, hnone]
  · rw [if_neg hon, hfirst]
    by_cases hbefore : test ∈ before
    · simp [hbefore]
    · rw [hadded (by simpa using hon) hbefore]
      simp

end Lookup

/-! ## The requests that get what they ask for

The request names categories and paths. An empty set of paths that is there matches no test, where
one that is absent matches all. -/

section Requests

variable {before after : ResultsSummary} {filter : DiffFilterParam}

/-- The set of paths that is parsed has the paths that are given, if there are any. -/
theorem paths_of_parse {filterParam pathsParam : String} {path : List String}
    {paths : Option (Finset String)}
    (hparse : parseDiffFilterParams filterParam path pathsParam = .ok (filter, paths)) :
    paths = some (parsePathsParam path pathsParam).toFinset := by
  unfold parseDiffFilterParams at hparse
  simp only at hparse
  split at hparse
  · cases hparam : parseDiffFilter ⟨false, false, false, false⟩ filterParam.toList with
    | error err => rw [hparam] at hparse; cases hparse
    | ok param => rw [hparam] at hparse; cases hparse; rfl
  · cases hparse
    rfl

theorem anyPathMatches_toFinset {given : List String} {test : String} :
    anyPathMatches (some given.toFinset) test ↔ ∃ path ∈ given, hasPrefix test path := by
  simp [anyPathMatches]

/-- The diff of a request has the selected tests that the loops get to. -/
theorem mem_getResultsDiff_iff (order : RangeOrder String) (given : List String) (test : String) :
    test ∈ getResultsDiff before after filter (some given.toFinset) none order ↔
      (∃ path ∈ given, hasPrefix test path) ∧
        (test ∈ before → filter.deleted || filter.changed) ∧
        ∃ category ∈ diffCategory before after test, filter.enabled category := by
  rw [← Finmap.lookup_isSome, lookup_getResultsDiff, ← isSome_newTestDiff,
    ← anyPathMatches_toFinset, ← and_assoc]
  split
  · next hloops => rw [and_iff_right hloops]
  · next hloops => exact iff_of_false nofun fun h => hloops h.1

/-- An enabled category of a test that was there before, without the first loop. -/
theorem eq_unchanged_of_enabled {test : String} {category : DiffCategory}
    (hcategory : category ∈ diffCategory before after test) (henabled : filter.enabled category)
    (hbefore : test ∈ before) (hloop : (filter.deleted || filter.changed) = false) :
    category = .unchanged := by
  obtain ⟨hdeleted, hchanged⟩ := Bool.or_eq_false_iff.mp hloop
  obtain ⟨resultsBefore, hlookup⟩ := Finmap.mem_iff.mp hbefore
  unfold diffCategory at hcategory
  rw [hlookup] at hcategory
  cases category with
  | unchanged => rfl
  | deleted => exact absurd (hdeleted.symm.trans henabled) nofun
  | changed => exact absurd (hchanged.symm.trans henabled) nofun
  | added =>
    cases hafter : after.lookup test with
    | none => simp [hafter] at hcategory
    | some resultsAfter =>
      simp only [hafter, Option.mem_def, Option.some_inj] at hcategory
      split at hcategory <;> cases hcategory

theorem mem_of_diffCategory_unchanged {test : String}
    (h : diffCategory before after test = some .unchanged) : test ∈ before := by
  unfold diffCategory at h
  rw [← Finmap.lookup_isSome]
  cases hbefore : before.lookup test with
  | some resultsBefore => rfl
  | none => cases hafter : after.lookup test <;> simp [hbefore, hafter] at h

/-- **Selection.** The diff of a request has the tests that it selects iff paths are given
or there is nothing to select, and unchanged tests are not asked for alone. -/
theorem selectsByCategory_iff (order : RangeOrder String) {filterParam pathsParam : String}
    {path : List String} {paths : Option (Finset String)}
    (hparse : parseDiffFilterParams filterParam path pathsParam = .ok (filter, paths)) :
    SelectsByCategory before after filter (parsePathsParam path pathsParam)
        (getResultsDiff before after filter paths none order) ↔
      (parsePathsParam path pathsParam = [] →
          ∀ test, ∀ category ∈ diffCategory before after test, ¬ filter.enabled category) ∧
        (filter.unchanged → (filter.deleted || filter.changed) = false →
          ∀ test, (∃ path' ∈ parsePathsParam path pathsParam, hasPrefix test path') →
            diffCategory before after test ≠ some .unchanged) := by
  rw [paths_of_parse hparse]
  generalize parsePathsParam path pathsParam = given
  constructor
  · rintro ⟨hmem, -⟩
    constructor
    · -- without paths the set is empty, and no test is under a path of it
      rintro rfl test category hcategory henabled
      have hselected : IsSelected before after filter [] test :=
        ⟨⟨category, hcategory, henabled⟩, Or.inl rfl⟩
      obtain ⟨⟨path', hpath', -⟩, -⟩ := (mem_getResultsDiff_iff order [] test).mp
        ((hmem test).mpr hselected)
      exact absurd hpath' List.not_mem_nil
    · intro hunchanged hloop test hpath hcategory
      have hselected : IsSelected before after filter given test :=
        ⟨⟨.unchanged, hcategory, hunchanged⟩, Or.inr hpath⟩
      obtain ⟨-, hreached, -⟩ := (mem_getResultsDiff_iff order given test).mp
        ((hmem test).mpr hselected)
      exact absurd (hloop.symm.trans (hreached (mem_of_diffCategory_unchanged hcategory))) nofun
  · rintro ⟨hpaths, hloops⟩
    constructor
    · intro test
      rw [mem_getResultsDiff_iff]
      constructor
      · rintro ⟨hpath, -, henabled⟩
        exact ⟨henabled, Or.inr hpath⟩
      · rintro ⟨⟨category, hcategory, henabled⟩, rfl | hpath⟩
        · exact absurd henabled (hpaths rfl test category hcategory)
        · refine ⟨hpath, fun hbefore => ?_, category, hcategory, henabled⟩
          -- the first loop is reached, or else the test is unchanged
          by_contra hloop
          have hoff := Bool.eq_false_of_not_eq_true hloop
          obtain rfl := eq_unchanged_of_enabled hcategory henabled hbefore hoff
          exact hloops henabled hoff test hpath hcategory
    · intro test testDiff hdiff
      rw [lookup_getResultsDiff] at hdiff
      split at hdiff
      · exact hdiff
      · cases hdiff

/-- A request for what changed under a folder. -/
theorem selectsByCategory_folder :
    SelectsByCategory (Finmap.singleton "/css/a.html" (1, 2))
      (Finmap.singleton "/css/a.html" (2, 2))
      ⟨false, false, true, false⟩ (parsePathsParam ["/css/"] "")
      (getResultsDiff (Finmap.singleton "/css/a.html" (1, 2))
        (Finmap.singleton "/css/a.html" (2, 2)) ⟨false, false, true, false⟩
        (some (parsePathsParam ["/css/"] "").toFinset) none (sortedOrder id Function.injective_id))
          :=
  (selectsByCategory_iff _ (show parseDiffFilterParams "C" ["/css/"] "" = _ from rfl)).mpr
    ⟨fun h => absurd h (by decide), fun h => absurd h (by decide)⟩

/-- **No path at all** selects every test, but the diff is empty. -/
theorem not_selectsByCategory_noPath :
    ∃ filter paths, parseDiffFilterParams "" [] "" = .ok (filter, paths) ∧
      ¬ SelectsByCategory (Finmap.singleton "/css/a.html" (1, 2))
        (Finmap.singleton "/css/a.html" (2, 2)) filter (parsePathsParam [] "")
        (getResultsDiff (Finmap.singleton "/css/a.html" (1, 2))
          (Finmap.singleton "/css/a.html" (2, 2)) filter paths none
          (sortedOrder id Function.injective_id)) := by
  refine ⟨_, _, rfl, fun h => ?_⟩
  have hmem := (h.1 "/css/a.html").mpr ⟨⟨.changed, by decide, by decide⟩, Or.inl rfl⟩
  exact absurd hmem (by decide +kernel)

end Requests

end WptFyi.Shared
