import WptFyi.Checks.CollapseTurns

/-!
# Collapsing in any order (`api/checks/update.go`)

No two runs of `collapseSummary` need to go through its maps and sets in the
same order. This module says for which diffs they still agree.

There are two places where an order can show. A test is counted under the first path that it begins
with, so two paths of which one begins with the other compete for the tests below both; if no path
begins with another there is at most one candidate for each test. And the first turn may cut some
folders a part further than others (`CollapseTurns`), which changes the set of paths unless another
turn cuts everything down to there in any case. For the converse the proof constructs orders: one
tries shorter paths first and one longer paths (`antichain_of_same`), and one puts the lone folders
first and another one last.

- `Antichain`: no path begins with another one, so that the order in which they
  are tried for a test is of no matter;
- `loneFolders`: folders that are left by some first turns only;
- `OrderFree`: what has to be so, `OrderIndependent`: all runs agree;
- `orderIndependent_iff`: the one exactly when the other.
-/

namespace WptFyi.Checks

open Lib Lib.GoStrings Shared

/-! ## The order in which paths are tried

The test of each diff is counted for the first path that it starts with, in the order of a map.
Only when no path is a prefix of another does the order not matter. -/

/-- No path begins with another one. -/
def Antichain (paths : Finset String) : Prop :=
  ∀ p ∈ paths, ∀ p' ∈ paths, hasPrefix p' p = true → p = p'

/-- Of two paths that a test begins with, one begins with the other. -/
theorem hasPrefix_total {k p p' : String} (h : hasPrefix k p = true) (h' : hasPrefix k p' = true) :
    hasPrefix p' p = true ∨ hasPrefix p p' = true := by
  rw [hasPrefix_iff] at h h'
  rw [hasPrefix_iff, hasPrefix_iff]
  exact List.prefix_or_prefix_of_prefix h h'

theorem Antichain.eq_of_hasPrefix {paths : Finset String} (h : Antichain paths) {k p p' : String}
    (hp : p ∈ paths) (hp' : p' ∈ paths) (hk : hasPrefix k p = true) (hk' : hasPrefix k p' = true) :
    p = p' := by
  rcases hasPrefix_total hk hk' with hle | hle
  · exact h p hp p' hp' hle
  · exact (h p' hp' p hp hle).symm

section Entries

variable {diff : RunDiff} {limit : Int}

theorem hasPrefix_of_coverage {tests paths : Finset String} (h : Coverage tests paths)
    (orders : Orders) : ∀ k ∈ tests, ∃ p ∈ orders.paths paths, hasPrefix k p = true := by
  intro k hk
  obtain ⟨p, hp, habove⟩ := h.covered k hk
  exact ⟨p, (mem_paths orders).mpr hp, habove.beginsWith⟩

theorem coverage_collapsePaths (htests : ∀ k ∈ diff.tests, hasPrefix k "/" = true)
    (orders : Orders) (limit : Int) :
    Coverage diff.tests (collapsePaths orders diff.tests limit) :=
  coverage_collapseFrom orders limit 10 0 htests

/-- Where no path begins with another, every path has its entry. -/
theorem lookup_isSome_iff (htests : ∀ k ∈ diff.tests, hasPrefix k "/" = true) {orders : Orders}
    (hanti : Antichain (collapsePaths orders diff.tests limit)) (p : String) :
    (Finmap.lookup p (collapseSummary orders diff limit)).isSome ↔
      p ∈ collapsePaths orders diff.tests limit := by
  have hcoverage := coverage_collapsePaths htests orders limit
  have hcovered := hasPrefix_of_coverage hcoverage orders
  have hlookup := lookup_collapseSummary orders limit hcovered p
  dsimp only at hlookup
  rw [hlookup]
  constructor
  · intro hsome
    have hmem : p ∈ diff.tests.image
        (entryOf (orders.paths (collapsePaths orders diff.tests limit))) := by
      by_contra hnot
      rw [if_neg hnot] at hsome
      cases hsome
    obtain ⟨k, hk, rfl⟩ := Finset.mem_image.mp hmem
    exact (mem_paths orders).mp (entryOf_spec (hcovered k hk)).1
  · intro hp
    obtain ⟨k, hk, habove⟩ := hcoverage.above p hp
    obtain ⟨hmem, hbegins⟩ := entryOf_spec (hcovered k hk)
    have hentry := hanti.eq_of_hasPrefix ((mem_paths orders).mp hmem) hp hbegins habove.beginsWith
    rw [if_pos (Finset.mem_image.mpr ⟨k, hk, hentry⟩)]
    rfl

/-- Two runs with the same paths, none of which begins with another, agree. -/
theorem collapseSummary_congr (htests : ∀ k ∈ diff.tests, hasPrefix k "/" = true)
    {orders orders' : Orders}
    (hsame : collapsePaths orders diff.tests limit = collapsePaths orders' diff.tests limit)
    (hanti : Antichain (collapsePaths orders diff.tests limit)) :
    collapseSummary orders diff limit = collapseSummary orders' diff limit := by
  have hcovered := hasPrefix_of_coverage (coverage_collapsePaths htests orders limit) orders
  have hcovered' := hasPrefix_of_coverage (coverage_collapsePaths htests orders' limit) orders'
  have hentry : ∀ k ∈ diff.tests,
      entryOf (orders.paths (collapsePaths orders diff.tests limit)) k =
        entryOf (orders'.paths (collapsePaths orders' diff.tests limit)) k := by
    intro k hk
    obtain ⟨hmem, hbegins⟩ := entryOf_spec (hcovered k hk)
    obtain ⟨hmem', hbegins'⟩ := entryOf_spec (hcovered' k hk)
    refine hanti.eq_of_hasPrefix ((mem_paths orders).mp hmem) ?_ hbegins hbegins'
    rw [hsame]
    exact (mem_paths orders').mp hmem'
  refine Finmap.ext_lookup fun p => ?_
  have hlookup := lookup_collapseSummary orders limit hcovered p
  have hlookup' := lookup_collapseSummary orders' limit hcovered' p
  dsimp only at hlookup hlookup'
  rw [hlookup, hlookup', Finset.image_congr fun k hk => hentry k hk,
    Finset.filter_congr fun k hk => by rw [hentry k hk]]

/-- The first path of a list by rank has the least rank of all that match. -/
theorem rank_le_of_find? {rank : String → Nat} {paths : Finset String} {q : String → Bool}
    {p p' : String} (hp : (byRank rank paths).find? q = some p) (hp' : p' ∈ paths)
    (hq : q p' = true) : rank p ≤ rank p' := by
  obtain ⟨-, before, after, heq, hbefore⟩ := List.find?_eq_some_iff_append.mp hp
  have hmem : p' ∈ byRank rank paths := mem_byRank.mpr hp'
  have hpairwise := byRank_pairwise rank paths
  rw [heq] at hmem hpairwise
  rcases List.mem_append.mp hmem with hmem | hmem
  · have hnot := hbefore p' hmem
    rw [hq] at hnot
    cases hnot
  · rcases List.mem_cons.mp hmem with rfl | hmem
    · exact le_refl _
    · exact List.rel_of_pairwise_cons (List.pairwise_append.mp hpairwise).2.1 hmem

/-- Shorter paths first. -/
def shortFirst (_ : Finset String) (p : String) : Nat := p.toList.length

/-- Longer paths first. -/
def longFirst (paths : Finset String) (p : String) : Nat :=
  (paths.sup fun p => p.toList.length) - p.toList.length

theorem length_lt_of_hasPrefix {p p' : String} (h : hasPrefix p' p = true) (hne : p ≠ p') :
    p.toList.length < p'.toList.length := by
  have hbegins := hasPrefix_iff.mp h
  refine lt_of_le_of_ne hbegins.length_le fun hlength => hne ?_
  exact String.toList_inj.mp (hbegins.eq_of_length hlength)

/-- The rank by which the paths are tried comes in after the turns, so the paths do not depend on
it. -/
theorem collapsePaths_of (tie : String → Fin 3) (rank rank' : Finset String → String → Nat)
    (tests : Finset String) (limit : Int) :
    collapsePaths (Orders.of tie rank) tests limit =
      collapsePaths (Orders.of tie rank') tests limit := by
  have hfrom : ∀ turns i s, collapseFrom (Orders.of tie rank) limit turns i s =
      collapseFrom (Orders.of tie rank') limit turns i s := by
    intro turns
    induction turns with
    | zero => exact fun _ _ => rfl
    | succ turns ih =>
      intro i s
      rw [collapseFrom, collapseFrom]
      dsimp only
      rw [ih]
      rfl
  exact hfrom 10 0 tests

/-- With longer paths first, a test is counted under a path that none begins with. -/
theorem entryOf_longFirst {paths : Finset String} {k p : String} (hp : p ∈ paths)
    (hk : hasPrefix k p = true) (hlongest : ∀ q ∈ paths, hasPrefix q p = true → q = p) :
    entryOf (byRank (longFirst paths) paths) k = p := by
  have hmatch : ∃ q ∈ byRank (longFirst paths) paths, hasPrefix k q = true :=
    ⟨p, mem_byRank.mpr hp, hk⟩
  obtain ⟨hmem, hq⟩ := entryOf_spec hmatch
  have hrank := rank_le_of_find? (find?_eq_some_entryOf hmatch) hp hk
  generalize entryOf (byRank (longFirst paths) paths) k = q at hmem hq hrank
  have hqpaths := mem_byRank.mp hmem
  have hqle : q.toList.length ≤ paths.sup fun p => p.toList.length :=
    Finset.le_sup (f := fun p => p.toList.length) hqpaths
  have hple : p.toList.length ≤ paths.sup fun p => p.toList.length :=
    Finset.le_sup (f := fun p => p.toList.length) hp
  unfold longFirst at hrank
  rcases hasPrefix_total hk hq with hle | hle
  · exact hlongest q hqpaths hle
  · by_contra hne
    have hlt := length_lt_of_hasPrefix hle hne
    omega

/-- With shorter paths first, no test is counted under a path that begins with another. -/
theorem entryOf_shortFirst_ne {paths : Finset String} {k p p' : String} (hp : p ∈ paths)
    (hbegins : hasPrefix p' p = true) (hne : p ≠ p')
    (hmatch : ∃ q ∈ byRank (shortFirst paths) paths, hasPrefix k q = true) :
    entryOf (byRank (shortFirst paths) paths) k ≠ p' := by
  intro hentry
  have hk := (entryOf_spec hmatch).2
  rw [hentry] at hk
  have hkp : hasPrefix k p = true :=
    hasPrefix_iff.mpr ((hasPrefix_iff.mp hbegins).trans (hasPrefix_iff.mp hk))
  have hrank := rank_le_of_find? (find?_eq_some_entryOf hmatch) hp hkp
  rw [hentry] at hrank
  have hlt := length_lt_of_hasPrefix hbegins hne
  unfold shortFirst at hrank
  omega

/-- Two runs that agree although one tries shorter paths first, and the other longer
ones, have no path that begins with another. -/
theorem antichain_of_same (htests : ∀ k ∈ diff.tests, hasPrefix k "/" = true)
    (tie : String → Fin 3)
    (hsame : collapseSummary (Orders.of tie shortFirst) diff limit =
      collapseSummary (Orders.of tie longFirst) diff limit) :
    Antichain (collapsePaths (Orders.of tie shortFirst) diff.tests limit) := by
  have hpaths := collapsePaths_of tie longFirst shortFirst diff.tests limit
  have hcoverage := coverage_collapsePaths htests (Orders.of tie shortFirst) limit
  have hshort := lookup_collapseSummary (Orders.of tie shortFirst) limit
    (hasPrefix_of_coverage hcoverage _)
  have hlong := lookup_collapseSummary (Orders.of tie longFirst) limit
    (by rw [hpaths]; exact hasPrefix_of_coverage hcoverage _)
  dsimp only at hshort hlong
  rw [hpaths] at hlong
  generalize collapsePaths (Orders.of tie shortFirst) diff.tests limit = paths at *
  by_contra hnot
  -- a longest of the paths that begin with another one
  let longer := paths.filter fun p' => ∃ p ∈ paths, hasPrefix p' p = true ∧ p ≠ p'
  have hne : longer.Nonempty := by
    unfold Antichain at hnot
    push Not at hnot
    obtain ⟨p, hp, p', hp', hbegins, hpne⟩ := hnot
    exact ⟨p', Finset.mem_filter.mpr ⟨hp', p, hp, hbegins, hpne⟩⟩
  obtain ⟨p', hp', hmax⟩ := Finset.exists_max_image longer (fun p => p.toList.length) hne
  obtain ⟨hp'paths, p, hp, hbegins, hpne⟩ := Finset.mem_filter.mp hp'
  have hlongest : ∀ q ∈ paths, hasPrefix q p' = true → q = p' := by
    intro q hq hqp'
    by_contra hqne
    have hlt := length_lt_of_hasPrefix hqp' (Ne.symm hqne)
    have hle := hmax q (Finset.mem_filter.mpr ⟨hq, p', hp'paths, hqp', Ne.symm hqne⟩)
    omega
  -- only the run that tries longer paths first has an entry for it
  obtain ⟨k, hk, habove⟩ := hcoverage.above p' hp'paths
  have hlongEntry : p' ∈ diff.tests.image
      (entryOf ((Orders.of tie longFirst).paths paths)) :=
    Finset.mem_image.mpr ⟨k, hk, entryOf_longFirst hp'paths habove.beginsWith hlongest⟩
  have hshortEntry : p' ∉ diff.tests.image
      (entryOf ((Orders.of tie shortFirst).paths paths)) := by
    intro hmem
    obtain ⟨k', hk', hentry⟩ := Finset.mem_image.mp hmem
    exact entryOf_shortFirst_ne hp hbegins hpne
      (hasPrefix_of_coverage hcoverage (Orders.of tie shortFirst) k' hk') hentry
  have hlookup := congrArg (Finmap.lookup p') hsame
  rw [hshort, hlong, if_neg hshortEntry, if_pos hlongEntry] at hlookup
  cases hlookup

end Entries

/-! ## When all runs agree

The first turn may cut some folders a part further than the files of their depth, and the order of
the sort decides which. This does not show if there are none, or if another turn cuts everything
down to there. -/

/-- Early folders that are not the folder of one of the other names. -/
def loneFolders (tests : Finset String) : Finset String :=
  (earlyFolders tests).filter fun k =>
    k ∉ (tests \ earlyFolders tests).image (cutTo (deepest tests - 1))

/-- What has to be so for the orders to be of no matter: no path that is left begins
with another; and where the sort may put some folders before the deepest names, there
is another turn in any case. -/
structure OrderFree (limit : Int) (tests : Finset String) : Prop where
  few : (tests.card : Int) ≤ limit → Antichain tests
  many : limit < tests.card → Antichain (tests.image (cutTo (foldersDepth limit tests)))
  early : limit < tests.card → earlyFolders tests = ∅ ∨ deepest tests ≤ 2 ∨
    (4 ≤ deepest tests ∧ limit < (turnSet tests (loneFolders tests)).card)

/-- **All runs agree**, and tests that are few enough keep their entries. -/
structure OrderIndependent (diff : RunDiff) (limit : Int) : Prop where
  same : ∀ orders orders' : Orders,
    collapseSummary orders diff limit = collapseSummary orders' diff limit
  own : (diff.tests.card : Int) ≤ limit → ∀ orders : Orders, ∀ k ∈ diff.tests,
    Finmap.lookup k (collapseSummary orders diff limit) = some (diff.counts k)

section Early

variable {limit : Int} {tests : Finset String}

theorem partDepth_of_early (hdeep : 2 ≤ deepest tests) {k : String} (hk : k ∈ earlyFolders tests) :
    partDepth k = deepest tests - 1 := by
  obtain ⟨b, hb, hbdeep⟩ := exists_deepest hdeep
  have hbsup : splitDepth b ≤ tests.sup splitDepth := Finset.le_sup (f := splitDepth) hb
  have hbcases := splitDepth_cases b
  have hkcases := splitDepth_cases k
  obtain ⟨hsup, hlt⟩ := (Finset.mem_filter.mp hk).2
  omega

theorem mem_tests_of_early {k : String} (hk : k ∈ earlyFolders tests) : k ∈ tests :=
  (Finset.mem_filter.mp hk).1

theorem cutTo_early (hdeep : 2 ≤ deepest tests) {k : String} (hk : k ∈ earlyFolders tests) :
    cutTo (deepest tests - 1) k = k :=
  cutTo_of_le (partDepth_of_early hdeep hk).le

/-- The first turn leaves fewest paths when the lone folders come before the deepest
names: any other early folder is there anyway. -/
theorem card_turnSet_loneFolders_le (htests : ∀ k ∈ tests, hasPrefix k "/" = true)
    (hthree : 3 ≤ deepest tests) {early : Finset String} (hearly : early ⊆ earlyFolders tests) :
    (turnSet tests (loneFolders tests)).card ≤ (turnSet tests early).card := by
  have hdeep : 2 ≤ deepest tests := by omega
  have hlone : loneFolders tests ⊆ earlyFolders tests := Finset.filter_subset _ _
  have hdeepLone : ∀ k ∈ loneFolders tests, partDepth k = deepest tests - 1 := fun k hk =>
    partDepth_of_early hdeep (hlone hk)
  let further : String → String := fun p =>
    if p ∈ loneFolders tests then cutTo (deepest tests - 2) p else p
  have hsub : turnSet tests (loneFolders tests) ⊆ (turnSet tests early).image further := by
    intro p hp
    rcases Finset.mem_union.mp hp with hp | hp
    · obtain ⟨k, hk, rfl⟩ := Finset.mem_image.mp hp
      have hroot := htests k (mem_tests_of_early (hlone hk))
      by_cases hmem : k ∈ early
      · have hnot : cutTo (deepest tests - 2) k ∉ loneFolders tests := fun hcut => by
          have hdepth := hdeepLone _ hcut
          rw [partDepth_cutTo hroot (by omega)] at hdepth
          omega
        exact Finset.mem_image.mpr ⟨_, Finset.mem_union_left _ (Finset.mem_image_of_mem _ hmem),
          if_neg hnot⟩
      · refine Finset.mem_image.mpr ⟨k, Finset.mem_union_right _ ?_, if_pos hk⟩
        exact Finset.mem_image.mpr ⟨k,
          Finset.mem_sdiff.mpr ⟨mem_tests_of_early (hlone hk), hmem⟩, cutTo_early hdeep (hlone hk)⟩
    · obtain ⟨k, hk, rfl⟩ := Finset.mem_image.mp hp
      obtain ⟨hktests, hknot⟩ := Finset.mem_sdiff.mp hk
      -- what a name is cut to is no lone folder
      have hnot : cutTo (deepest tests - 1) k ∉ loneFolders tests := fun hcut => by
        by_cases hkearly : k ∈ earlyFolders tests
        · rw [cutTo_early hdeep hkearly] at hcut
          exact hknot hcut
        · exact (Finset.mem_filter.mp hcut).2 (Finset.mem_image_of_mem _
            (Finset.mem_sdiff.mpr ⟨hktests, hkearly⟩))
      refine Finset.mem_image.mpr ⟨_, Finset.mem_union_right _ ?_, if_neg hnot⟩
      by_cases hmem : k ∈ early
      · have hkearly := hearly hmem
        have hother : k ∈ (tests \ earlyFolders tests).image (cutTo (deepest tests - 1)) := by
          by_contra hlone'
          exact hknot (Finset.mem_filter.mpr ⟨hkearly, hlone'⟩)
        obtain ⟨k', hk', hcut⟩ := Finset.mem_image.mp hother
        obtain ⟨hk'tests, hk'not⟩ := Finset.mem_sdiff.mp hk'
        refine Finset.mem_image.mpr ⟨k', Finset.mem_sdiff.mpr ⟨hk'tests, fun h =>
          hk'not (hearly h)⟩, ?_⟩
        rw [hcut, cutTo_early hdeep hkearly]
      · exact Finset.mem_image_of_mem _ (Finset.mem_sdiff.mpr ⟨hktests, hmem⟩)
  exact (Finset.card_le_card hsub).trans Finset.card_image_le

/-- Then the early folders do not show. -/
theorem OrderFree.pathsAfter_eq (h : OrderFree limit tests)
    (htests : ∀ k ∈ tests, hasPrefix k "/" = true) (hlimit : 1 ≤ limit)
    (hcard : limit < tests.card) {early : Finset String} (hearly : early ⊆ earlyFolders tests) :
    pathsAfter limit tests early = pathsAfter limit tests ∅ := by
  rcases h.early hcard with hnone | htwo | ⟨hfour, hmany⟩
  · rw [hnone, Finset.subset_empty] at hearly
    rw [hearly]
  · have hdeep : deepest tests = 2 := le_antisymm htwo (two_le_deepest htests hlimit hcard)
    rw [pathsAfter, pathsAfter, if_neg (by omega), if_neg (by omega),
      turnSet_of_two htests hdeep hearly, turnSet_of_two htests hdeep (Finset.empty_subset _)]
  · have hfirst := card_turnSet_loneFolders_le htests (by omega) hearly
    have hfirst' := card_turnSet_loneFolders_le htests (by omega)
      (Finset.empty_subset (earlyFolders tests))
    rw [pathsAfter, pathsAfter, if_pos ⟨by omega, hfour⟩, if_pos ⟨by omega, hfour⟩]

/-- Runs whose first turns differ and that still agree leave it to another turn. -/
theorem early_of_same (htests : ∀ k ∈ tests, hasPrefix k "/" = true) (hlimit : 1 ≤ limit)
    (hcard : limit < tests.card)
    (hanti : ∀ early ⊆ earlyFolders tests, Antichain (pathsAfter limit tests early))
    (hsame : ∀ early ⊆ earlyFolders tests,
      pathsAfter limit tests early = pathsAfter limit tests ∅) :
    earlyFolders tests = ∅ ∨ deepest tests ≤ 2 ∨
      (4 ≤ deepest tests ∧ limit < (turnSet tests (loneFolders tests)).card) := by
  have hdeep := two_le_deepest htests hlimit hcard
  by_contra hnot
  obtain ⟨hne, hthree, hlast⟩ : earlyFolders tests ≠ ∅ ∧ 3 ≤ deepest tests ∧
      ¬(4 ≤ deepest tests ∧ limit < (turnSet tests (loneFolders tests)).card) :=
    ⟨fun h => hnot (.inl h), by
      by_contra h
      exact hnot (.inr (.inl (by omega))), fun h => hnot (.inr (.inr h))⟩
  have hlone : loneFolders tests ⊆ earlyFolders tests := Finset.filter_subset _ _
  obtain ⟨b, hb, hbdeep⟩ := exists_deepest hdeep
  have hbmem : b ∈ tests \ earlyFolders tests :=
    Finset.mem_sdiff.mpr ⟨hb, notMem_earlyFolders hbdeep⟩
  -- with the lone folders first there is one turn, which leaves a folder of a deepest name
  have hfirst : pathsAfter limit tests ∅ = turnSet tests (loneFolders tests) := by
    rw [← hsame _ hlone, pathsAfter, if_neg fun h => hlast ⟨h.2, h.1⟩]
  have hbfolder : cutTo (deepest tests - 1) b ∈ pathsAfter limit tests ∅ := by
    rw [hfirst]
    refine Finset.mem_union_right _ (Finset.mem_image_of_mem _
      (Finset.mem_sdiff.mpr ⟨hb, fun h => ?_⟩))
    exact notMem_earlyFolders hbdeep (hlone h)
  -- so there is one turn whatever comes first
  have hone : ∀ early ⊆ earlyFolders tests, pathsAfter limit tests early = turnSet tests early := by
    intro early hearly
    by_cases h : limit < (turnSet tests early).card ∧ 4 ≤ deepest tests
    · exfalso
      have hmem := hbfolder
      rw [← hsame early hearly, pathsAfter, if_pos h] at hmem
      obtain ⟨k, hk, hcut⟩ := Finset.mem_image.mp hmem
      have hsettle : settleDepth limit tests 8 (deepest tests - 2) ≤ deepest tests - 2 := by
        rw [settleDepth_eq]
        have hle := Nat.findGreatest_le
          (P := fun m => ((tests.image (cutTo m)).card : Int) ≤ limit) (deepest tests - 2)
        omega
      have hpos : 1 ≤ settleDepth limit tests 8 (deepest tests - 2) := by
        rw [settleDepth_eq]
        omega
      have hdepth := congrArg partDepth hcut
      rw [partDepth_cutTo (htests k hk) hpos, partDepth_cutTo (htests b hb) (by omega)] at hdepth
      omega
    · rw [pathsAfter, if_neg h]
  rcases (loneFolders tests).eq_empty_or_nonempty with hempty | ⟨f, hf⟩
  · -- an early folder that is there anyway begins with its own folder
    obtain ⟨f, hf⟩ := Finset.nonempty_iff_ne_empty.mpr hne
    have hroot := htests f (mem_tests_of_early hf)
    have hearly : ({f} : Finset String) ⊆ earlyFolders tests := Finset.singleton_subset_iff.mpr hf
    have hother : f ∈ (tests \ earlyFolders tests).image (cutTo (deepest tests - 1)) := by
      by_contra h
      have hmem : f ∈ loneFolders tests := Finset.mem_filter.mpr ⟨hf, h⟩
      rw [hempty] at hmem
      exact Finset.notMem_empty f hmem
    have hfmem : f ∈ turnSet tests {f} := by
      obtain ⟨k, hk, hcut⟩ := Finset.mem_image.mp hother
      obtain ⟨hktests, hknot⟩ := Finset.mem_sdiff.mp hk
      refine Finset.mem_union_right _ (Finset.mem_image.mpr ⟨k, Finset.mem_sdiff.mpr ⟨hktests, ?_⟩,
        hcut⟩)
      rintro hmem
      rw [Finset.mem_singleton.mp hmem] at hknot
      exact hknot hf
    have hparent : cutTo (deepest tests - 2) f ∈ turnSet tests {f} :=
      Finset.mem_union_left _ (Finset.mem_image_of_mem _ (Finset.mem_singleton_self f))
    have hchain := hanti {f} hearly
    rw [hone _ hearly] at hchain
    have heq := hchain _ hparent f hfmem (above_cutTo hroot _).beginsWith
    have hdepth := congrArg partDepth heq
    rw [partDepth_cutTo hroot (by omega), partDepth_of_early hdeep hf] at hdepth
    omega
  · -- a lone folder is left when it does not come first
    have hfearly := hlone hf
    have hfmem : f ∈ turnSet tests ∅ := by
      rw [turnSet_empty]
      exact Finset.mem_image.mpr ⟨f, mem_tests_of_early hfearly, cutTo_early hdeep hfearly⟩
    rw [← hone ∅ (Finset.empty_subset _), hfirst] at hfmem
    rcases Finset.mem_union.mp hfmem with hmem | hmem
    · obtain ⟨k, hk, hcut⟩ := Finset.mem_image.mp hmem
      have hdepth := congrArg partDepth hcut
      rw [partDepth_cutTo (htests k (mem_tests_of_early (hlone hk))) (by omega),
        partDepth_of_early hdeep hfearly] at hdepth
      omega
    · obtain ⟨k, hk, hcut⟩ := Finset.mem_image.mp hmem
      obtain ⟨hktests, hknot⟩ := Finset.mem_sdiff.mp hk
      by_cases hkearly : k ∈ earlyFolders tests
      · rw [cutTo_early hdeep hkearly] at hcut
        exact hknot (hcut ▸ hf)
      · exact (Finset.mem_filter.mp hf).2
          (Finset.mem_image.mpr ⟨k, Finset.mem_sdiff.mpr ⟨hktests, hkearly⟩, hcut⟩)

end Early

section Main

variable {diff : RunDiff} {limit : Int}

theorem collapsePaths_of_le (orders : Orders) {tests : Finset String}
    (hcard : (tests.card : Int) ≤ limit) : collapsePaths orders tests limit = tests := by
  rw [collapsePaths, collapseFrom]
  exact if_neg (not_lt.mpr hcard)

theorem collapsePaths_tieOf (htests : ∀ k ∈ diff.tests, hasPrefix k "/" = true)
    (hlimit : 1 ≤ limit) (hcard : limit < diff.tests.card) {early : Finset String}
    (hearly : early ⊆ earlyFolders diff.tests) (rank : Finset String → String → Nat) :
    collapsePaths (Orders.of (tieOf early) rank) diff.tests limit =
      pathsAfter limit diff.tests early := by
  rw [collapsePaths_eq htests hlimit hcard,
    leading_tieOf (two_le_deepest htests hlimit hcard) hearly]

/-- When the first turn leaves the same in all orders and no path that is left begins with another
one, each test has one path that covers it. -/
theorem OrderFree.orderIndependent (h : OrderFree limit diff.tests)
    (htests : ∀ k ∈ diff.tests, hasPrefix k "/" = true) (hlimit : 1 ≤ limit) :
    OrderIndependent diff limit := by
  constructor
  · intro orders orders'
    rcases le_or_gt (diff.tests.card : Int) limit with hcard | hcard
    · refine collapseSummary_congr htests ?_ ?_
      · rw [collapsePaths_of_le orders hcard, collapsePaths_of_le orders' hcard]
      · rw [collapsePaths_of_le orders hcard]
        exact h.few hcard
    · have hdeep := two_le_deepest htests hlimit hcard
      -- whatever comes early, the paths after the loop are the same
      have hpaths : ∀ orders : Orders, collapsePaths orders diff.tests limit =
          diff.tests.image (cutTo (foldersDepth limit diff.tests)) := by
        intro orders
        rw [collapsePaths_eq htests hlimit hcard, h.pathsAfter_eq htests hlimit hcard ?_,
          pathsAfter_empty]
        intro a ha
        exact (leading_early (sortedKeys orders 0 diff.tests) hdeep (List.mem_toFinset.mp ha)).1
      refine collapseSummary_congr htests ?_ ?_
      · rw [hpaths, hpaths]
      · rw [hpaths]
        exact h.many hcard
  · intro hcard orders k hk
    have hpaths := collapsePaths_of_le orders hcard
    have hcovered := hasPrefix_of_coverage (coverage_collapsePaths htests orders limit) orders
    -- no test is above another, so each is counted under itself
    have hentry : ∀ k ∈ diff.tests,
        entryOf (orders.paths (collapsePaths orders diff.tests limit)) k = k := by
      intro k hk
      obtain ⟨hmem, hbegins⟩ := entryOf_spec (hcovered k hk)
      have hmem' := (Finset.ext_iff.mp hpaths _).mp ((mem_paths orders).mp hmem)
      exact (h.few hcard).eq_of_hasPrefix hmem' hk hbegins (Above.refl k).beginsWith
    have hlookup := lookup_collapseSummary orders limit hcovered k
    dsimp only at hlookup
    have hfilter : diff.tests.filter (fun k' =>
        entryOf (orders.paths (collapsePaths orders diff.tests limit)) k' = k) = {k} := by
      ext k'
      rw [Finset.mem_filter, Finset.mem_singleton]
      constructor
      · rintro ⟨hk', heq⟩
        rw [← heq, hentry k' hk']
      · rintro rfl
        exact ⟨hk, hentry k' hk⟩
    rw [hlookup, if_pos (Finset.mem_image.mpr ⟨k, hk, hentry k hk⟩), hfilter, Finset.sum_singleton]

/-- There are orders that put any of the early folders first, and orders that try any path before
another one, so summaries that agree in all of them leave no choice. -/
theorem OrderIndependent.orderFree (h : OrderIndependent diff limit)
    (htests : ∀ k ∈ diff.tests, hasPrefix k "/" = true) (hlimit : 1 ≤ limit) :
    OrderFree limit diff.tests := by
  have hanti : ∀ tie : String → Fin 3,
      Antichain (collapsePaths (Orders.of tie shortFirst) diff.tests limit) := fun tie =>
    antichain_of_same htests tie (h.same _ _)
  have hmany : limit < diff.tests.card → ∀ early ⊆ earlyFolders diff.tests,
      Antichain (pathsAfter limit diff.tests early) := by
    intro hcard early hearly
    rw [← collapsePaths_tieOf htests hlimit hcard hearly shortFirst]
    exact hanti _
  constructor
  · intro hcard
    have hpaths := hanti (fun _ => 0)
    rwa [collapsePaths_of_le _ hcard] at hpaths
  · intro hcard
    rw [← pathsAfter_empty]
    exact hmany hcard ∅ (Finset.empty_subset _)
  · intro hcard
    refine early_of_same htests hlimit hcard (hmany hcard) fun early hearly => ?_
    -- two runs that agree have entries for the same paths
    have hpaths := collapsePaths_tieOf htests hlimit hcard hearly shortFirst
    have hpaths' := collapsePaths_tieOf htests hlimit hcard (Finset.empty_subset _) shortFirst
    ext p
    rw [← hpaths, ← hpaths', ← lookup_isSome_iff htests (hanti _),
      ← lookup_isSome_iff htests (hanti _), h.same]

/-- **`collapseSummary`** on tests from the root gives the same summary in all orders,
and tests that are few enough keep their entries, exactly when none of the paths that
are left begins with another one and the first turn leaves the same to the next. -/
theorem orderIndependent_iff (htests : ∀ k ∈ diff.tests, hasPrefix k "/" = true)
    (hlimit : 1 ≤ limit) : OrderIndependent diff limit ↔ OrderFree limit diff.tests :=
  ⟨fun h => h.orderFree htests hlimit, fun h => h.orderIndependent htests hlimit⟩

end Main

/-! ## A test and its variant -/

theorem orderIndependent_nested : OrderIndependent nestedDiff 2 := by
  have htests : ∀ k ∈ nestedDiff.tests, hasPrefix k "/" = true := by decide +kernel
  refine (orderIndependent_iff htests (by decide)).mpr ⟨?_, ?_, ?_⟩
  · exact fun hcard => absurd hcard (by decide +kernel)
  · intro _
    unfold Antichain
    decide +kernel
  · exact fun _ => .inl (by decide +kernel)

/-- A test with and without a query. -/
def variantDiff : RunDiff where
  beforeSummary := GoMap.insertAll ∅ [("/dom/historical.html", (1, 1))]
  afterSummary := GoMap.insertAll ∅
    [("/dom/historical.html", (1, 1)), ("/dom/historical.html?query", (0, 1))]

/-- The variant is counted under its own path or under that of the test, whichever is tried first.
-/
theorem not_orderIndependent_variant :
    (∀ k ∈ variantDiff.tests, hasPrefix k "/" = true) ∧ (variantDiff.tests.card : Int) ≤ 10 ∧
      (∃ orders orders' : Orders,
        collapseSummary orders variantDiff 10 ≠ collapseSummary orders' variantDiff 10) ∧
      ¬OrderIndependent variantDiff 10 := by
  have htests : ∀ k ∈ variantDiff.tests, hasPrefix k "/" = true := by decide +kernel
  have hcard : (variantDiff.tests.card : Int) ≤ 10 := by decide +kernel
  have hdiffer : collapseSummary (Orders.of (fun _ => 0) shortFirst) variantDiff 10 ≠
      collapseSummary (Orders.of (fun _ => 0) longFirst) variantDiff 10 := by
    intro hsame
    have hanti := antichain_of_same htests (fun _ => 0) hsame
    rw [collapsePaths_of_le _ hcard] at hanti
    exact absurd (hanti "/dom/historical.html" (by decide +kernel) "/dom/historical.html?query"
      (by decide +kernel) (by decide)) (by decide)
  exact ⟨htests, hcard, ⟨_, _, hdiffer⟩, fun h => hdiffer (h.same _ _)⟩

end WptFyi.Checks
