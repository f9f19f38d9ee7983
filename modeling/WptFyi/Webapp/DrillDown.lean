import WptFyi.Shared.RowDiffs
import WptFyi.Webapp.ResultsTree

/-!
# Rows and pages

The row of a directory stands for the page that it opens, and a page's totals for its rows.

Both are sums over tests. A directory's page is refreshed from the same results with a longer path,
and the tests on it are the tests in the row; what must be compared is what each of them adds on
the two pages, which is the same but for one thing: the totals count a renamed test under its new
name only, while the row of the first run has the counts of the old name added to it. The script
counts the same differences as the server, but when what is unchanged is asked for it also counts a
test that both runs miss.

The rows of a page are in the object that gathers them under the names of the children, so a child
called `totals` breaks the page, and one called `hasOwnProperty` does when another test follows.

- `opens_counts`: a directory has the counts of its own page;
- `rows_add_up`: the rows of a page add up to its totals;
- `opens_diff`: what the diff of a directory is, when the script counts it;
- `refreshDisplayedNodes_isOk_iff`: which names of children break a page.
-/

namespace WptFyi.Webapp.ResultsPage

open Lib Lib.GoStrings Shared

/-! ## Children

A test is shown at the child of a path whose name its own continues. On the page of a directory it
is at the child of the longer path, so it is in a row of both. -/

section Children

variable {v : ResultsView} {test : String} {suffix : List Char}

theorem takeWhile_ne_append_cons {l rest : List Char} {c : Char} (h : c ∉ l) :
    (l ++ c :: rest).takeWhile (· ≠ c) = l := by
  have hfree : ∀ x ∈ l, decide (x ≠ c) = true := fun x hx =>
    decide_eq_true fun hxc => h (hxc ▸ hx)
  rw [List.takeWhile_append_of_pos hfree, List.takeWhile_cons_of_neg (by simp), List.append_nil]

/-- The child of a test, from what is behind the prefix. -/
theorem child_eq (h : test.toList = v.pathPrefix.toList ++ suffix) : v.child test =
    (String.ofList (if (suffix.takeWhile (· ≠ '?')).contains '/' then suffix.takeWhile (· ≠ '/')
      else suffix), (suffix.takeWhile (· ≠ '?')).contains '/') := by
  rw [ResultsView.child, h, List.drop_left]

/-- A child that is a directory has a name without slashes and queries. -/
theorem name_of_isDir (h : (v.child test).2 = true) :
    '/' ∉ (v.child test).1.toList ∧ '?' ∉ (v.child test).1.toList := by
  rw [ResultsView.child] at h ⊢
  simp only at h ⊢
  rw [if_pos h, String.toList_ofList]
  have hslash := List.contains_iff_mem.mp h
  constructor
  · intro hmem
    simpa using List.mem_takeWhile_imp hmem
  · -- the first slash is before the first question mark
    intro hmem
    obtain ⟨before, after, heq, hbefore⟩ := List.eq_append_cons_of_mem hslash
    have hdrop := List.takeWhile_append_dropWhile (p := fun x => decide (x ≠ '?'))
      (l := test.toList.drop v.pathPrefix.toList.length)
    rw [← hdrop, heq, List.append_assoc, List.cons_append, takeWhile_ne_append_cons hbefore] at hmem
    have hin : '?' ∈ (test.toList.drop v.pathPrefix.toList.length).takeWhile (· ≠ '?') := by
      rw [heq]
      exact List.mem_append_left _ hmem
    simpa using List.mem_takeWhile_imp hin

/-- The tests of a child that is a directory are those below it. -/
theorem child_eq_iff {name : String} (hslash : '/' ∉ name.toList) (hquery : '?' ∉ name.toList)
    (hfile : test ≠ v.pathPrefix ++ name) :
    (hasPrefix test v.pathPrefix = true ∧ (v.child test).1 = name) ↔
      hasPrefix test (v.pathPrefix ++ name ++ "/") = true := by
  rw [hasPrefix_iff, hasPrefix_iff, String.toList_append, String.toList_append]
  constructor
  · rintro ⟨⟨suffix, hsuffix⟩, hname⟩
    rw [child_eq hsuffix.symm] at hname
    simp only at hname
    -- a name that is not of a directory is the whole rest of the path
    split_ifs at hname with hdir
    · have hmem : '/' ∈ suffix :=
        List.takeWhile_subset _ (List.contains_iff_mem.mp hdir)
      obtain ⟨before, after, rfl, hbefore⟩ := List.eq_append_cons_of_mem hmem
      rw [takeWhile_ne_append_cons hbefore] at hname
      rw [← hname, String.toList_ofList, ← hsuffix]
      exact ⟨after, by simp⟩
    · refine absurd ?_ hfile
      rw [← String.toList_inj, String.toList_append, ← hname, String.toList_ofList, hsuffix]
  · rintro ⟨rest, hrest⟩
    have htest : test.toList = v.pathPrefix.toList ++ (name.toList ++ '/' :: rest) := by
      rw [← hrest]
      simp
    refine ⟨⟨_, htest.symm⟩, ?_⟩
    have hfree : ∀ x ∈ name.toList, decide (x ≠ '?') = true := fun x hx =>
      decide_eq_true fun hxq => hquery (hxq ▸ hx)
    have hdir : ((name.toList ++ '/' :: rest).takeWhile (· ≠ '?')).contains '/' = true := by
      rw [List.contains_iff_mem, List.takeWhile_append_of_pos hfree]
      exact List.mem_append_right _ List.mem_cons_self
    rw [child_eq htest]
    simp only
    rw [if_pos hdir, takeWhile_ne_append_cons hslash, String.ofList_toList]

end Children

/-! ## The page a row opens

The tests in the row of a directory are the tests on its page. Both the row and the totals of the
page are sums over them, run by run. -/

section Opens

variable {v : ResultsView} {ν : Type*} [Zero ν] [One ν] [Add ν] [Div ν] [NatCast ν]

/-- The view after a click on a row. -/
def ResultsView.goTo (v : ResultsView) (path : String) : ResultsView := { v with path }

theorem pathPrefix_goTo {path : String} (h : path ≠ "/") :
    (v.goTo path).pathPrefix = path ++ "/" := if_neg h

theorem tests_goTo (path : String) : (v.goTo path).tests =
    counted v (v.searchResults.filter fun r => hasPrefix r.test (v.goTo path).pathPrefix) := rfl

/-- The counts of a run in a row. -/
def Row.counts (row : Row ν) (i : Nat) : Counts ν :=
  (row.results[i]?.map Cell.toCounts).getD Counts.none

/-- The totals of a run. -/
def Displayed.total (shown : Displayed ν) (i : Nat) : Counts ν :=
  (shown.displayedTotals.bind fun totals => totals[i]?).getD Counts.none

theorem IsRow.counts_eq {first : SearchResult} {name : String} {tests : List SearchResult}
    {row : Row ν} (h : IsRow v first name tests row) {i : Nat} (hi : i < v.testRuns) :
    row.counts i = (countsOf v ν i tests).plus (previousTallies v i tests) := by
  rw [Row.counts, ← List.getElem?_map, h.counts, getElem?_range_map, if_pos hi, Option.getD_some]

theorem Shows.total_eq {shown : Displayed ν} (h : Shows v shown) {i : Nat} (hi : i < v.testRuns) :
    shown.total i = countsOf v ν i v.tests := by
  rw [Displayed.total, h.totals, totalsOf]
  split_ifs with hempty
  · rw [countsOf, column, List.filterMap_eq_nil_iff.mpr]
    · rfl
    · intro r hr
      rw [hempty r hr, List.getElem?_nil]
  · rw [Option.bind_some, getElem?_range_map, if_pos hi, Option.getD_some]

theorem Shows.exists_rowOf {shown : Displayed ν} (h : Shows v shown) {row : Row ν}
    (hrow : row ∈ shown.displayedNodes) : ∃ name, RowOf v name row := by
  obtain ⟨names, -, hrows, -⟩ := h.rows
  obtain ⟨i, hi, rfl⟩ := List.getElem_of_mem hrow
  have hlen := hrows.length_eq
  exact ⟨names[i], List.forall₂_iff_get.mp hrows |>.2 i (hlen ▸ hi) hi⟩

theorem searchResults_ne_nil {shown old : Displayed ν} {row : Row ν}
    (h : refreshDisplayedNodes v old = .ok shown) (hrow : row ∈ shown.displayedNodes) :
    v.searchResults ≠ [] := by
  intro hnil
  rw [refreshDisplayedNodes, if_pos hnil] at h
  have hshown := Except.ok.inj h
  subst hshown
  cases hrow

/-- The tests below a directory are those of its own page. -/
theorem RowOf.tests_eq {name : String} {row : Row ν} (h : RowOf v name row)
    (hdir : row.isDir = true) (hroot : row.path ≠ "/")
    (hfile : ∀ r ∈ v.searchResults, r.test ≠ row.path) :
    members v name v.tests = (v.goTo row.path).tests := by
  obtain ⟨-, -, first, hfirst, his⟩ := h
  have hname : (v.child first.test).1 = name :=
    (mem_members.mp (List.mem_of_mem_head? hfirst)).2
  rw [his.isDir] at hdir
  obtain ⟨hslash, hquery⟩ := name_of_isDir hdir
  rw [hname] at hslash hquery
  have hprefix : (v.goTo row.path).pathPrefix = v.pathPrefix ++ name ++ "/" := by
    rw [pathPrefix_goTo hroot, his.path]
  rw [ResultsView.tests, members_counted, tests_goTo, hprefix, members, counted, counted,
    List.filter_filter, List.filter_filter, List.filter_filter]
  refine List.filter_congr fun r hr => ?_
  have hiff := child_eq_iff hslash hquery fun heq => hfile r hr (heq.trans his.path.symm)
  rw [Bool.eq_iff_iff, Bool.and_eq_true, Bool.and_eq_true, Bool.and_eq_true, ← hiff,
    decide_eq_true_iff]
  constructor
  · rintro ⟨⟨hchild, hr⟩, hbelow⟩
    exact ⟨hr, hbelow, hchild⟩
  · rintro ⟨hr, hbelow, hchild⟩
    exact ⟨⟨hchild, hr⟩, hbelow⟩

/-- **A directory is its page**: the counts in its row are the totals of the page that it opens,
and what the old names of renamed tests had; its diff is that of the tests on the page. -/
theorem opens_counts {shown shown' old old' : Displayed ν} {row : Row ν}
    (h : refreshDisplayedNodes v old = .ok shown) (hrow : row ∈ shown.displayedNodes)
    (hdir : row.isDir = true) (hroot : row.path ≠ "/")
    (hfile : ∀ r ∈ v.searchResults, r.test ≠ row.path)
    (h' : refreshDisplayedNodes (v.goTo row.path) old' = .ok shown') :
    (∀ i < v.testRuns, row.counts i =
        (shown'.total i).plus (previousTallies v i (v.goTo row.path).tests)) ∧
      row.diff = diffOf v (v.goTo row.path).tests := by
  have hne := searchResults_ne_nil h hrow
  obtain ⟨name, hname⟩ := (refreshDisplayedNodes_spec hne h).exists_rowOf hrow
  have htests := hname.tests_eq hdir hroot hfile
  have hne' : (v.goTo row.path).searchResults ≠ [] := hne
  have hshows' := refreshDisplayedNodes_spec hne' h'
  obtain ⟨-, -, first, -, his⟩ := hname
  rw [htests] at his
  refine ⟨fun i hi => ?_, his.diff⟩
  have hi' : i < (v.goTo row.path).testRuns := hi
  rw [his.counts_eq hi, hshows'.total_eq hi']
  rfl

end Opens

/-- The diff of two runs, a test of which was renamed. -/
def renamedView : ResultsView where
  path := "/"
  testRuns := 2
  searchResults := [
    { test := "/css/old.html", legacyStatus := some [⟨3, 4, "O", true⟩, {}] },
    { test := "/dom/a.html", legacyStatus := some [{}, ⟨4, 4, "O", true⟩] },
    { test := "/dom/nodes/b.html", legacyStatus := some [⟨0, 0, "P", true⟩, ⟨0, 0, "F", true⟩] }]
  diff := true
  diffRun := true
  diffResults := some
    { diff := fun test => if test = "/dom/a.html" then some ⟨1, 0, 0⟩ else none
      renames := [("/css/old.html", "/dom/a.html")] }

/-- The page of a view. -/
def pageOf (v : ResultsView) : Displayed ℚ :=
  (refreshDisplayedNodes v ⟨[], none⟩).toOption.getD ⟨[], none⟩

theorem refresh_pageOf {v : ResultsView}
    (h : (refreshDisplayedNodes v (⟨[], none⟩ : Displayed ℚ)).isOk = true) :
    refreshDisplayedNodes v ⟨[], none⟩ = .ok (pageOf v) := by
  rw [pageOf]
  cases hpage : refreshDisplayedNodes v (⟨[], none⟩ : Displayed ℚ) with
  | error err =>
    rw [hpage] at h
    cases h
  | ok shown => rfl

/-- The first row of a page. -/
def firstRow (v : ResultsView) : Row ℚ := (pageOf v).displayedNodes.headD ⟨"", false, [], none⟩

theorem firstRow_mem {v : ResultsView} (h : 0 < (pageOf v).displayedNodes.length) :
    firstRow v ∈ (pageOf v).displayedNodes := by
  obtain ⟨row, rows, hrows⟩ := List.exists_cons_of_ne_nil (List.ne_nil_of_length_pos h)
  unfold firstRow
  rw [hrows]
  exact List.mem_cons_self

theorem refresh_renamed : refreshDisplayedNodes renamedView ⟨[], none⟩ = .ok (pageOf renamedView) :=
  refresh_pageOf (by decide +kernel)

/-- The view after a click on the first row. -/
def openedView (v : ResultsView) : ResultsView := v.goTo (firstRow v).path

theorem opens_counts_dom :
    (∀ i < 2, (firstRow renamedView).counts i =
        ((pageOf (openedView renamedView)).total i).plus
          (previousTallies renamedView i (openedView renamedView).tests)) ∧
      (firstRow renamedView).diff = diffOf renamedView (openedView renamedView).tests :=
  have hopened : refreshDisplayedNodes (openedView renamedView) ⟨[], none⟩ =
      .ok (pageOf (openedView renamedView)) := refresh_pageOf (by decide +kernel)
  opens_counts refresh_renamed (firstRow_mem (by decide +kernel)) (by decide +kernel)
    (by decide +kernel) (by decide +kernel) hopened

/-! ## The rows of a page

Every test of a page is in one row, so the rows add up to the totals, apart from what a renamed
test adds under its old name. -/

section Sums

variable {v : ResultsView}

/-- Sums over groups add up to the sum over the list, when what is in no group adds nothing. -/
theorem sum_map_sum_filter {α κ M : Type*} [DecidableEq κ] [AddCommMonoid M] (key : α → κ)
    (f : α → M) {keys : List κ} {l : List α} (hnodup : keys.Nodup)
    (hrest : ∀ a ∈ l, key a ∉ keys → f a = 0) :
    (keys.map fun k => ((l.filter fun a => key a = k).map f).sum).sum = (l.map f).sum := by
  induction l with
  | nil => simp
  | cons a l ih =>
    have hsplit : ∀ k, (((a :: l).filter fun a => key a = k).map f).sum =
        (if key a = k then f a else 0) + ((l.filter fun a => key a = k).map f).sum := by
      intro k
      rw [List.filter_cons]
      by_cases hk : key a = k <;> simp [hk]
    have hone : (keys.map fun k => if key a = k then f a else 0).sum = f a := by
      rw [← List.sum_toFinset _ hnodup, Finset.sum_ite_eq]
      split_ifs with hmem
      · rfl
      · exact (hrest a List.mem_cons_self fun h => hmem (List.mem_toFinset.mpr h)).symm
    simp only [hsplit]
    rw [List.sum_map_add, hone, ih fun a ha => hrest a (List.mem_cons_of_mem _ ha), List.map_cons,
      List.sum_cons]

/-- A sum over the rows of a page is one over its tests. -/
theorem Shows.sum_rows {ν M : Type*} [Zero ν] [One ν] [Add ν] [Div ν] [NatCast ν] [AddCommMonoid M]
    {shown : Displayed ν} (h : Shows v shown) (hall : v.onlyShowDifferences = false)
    (hproto : ∀ r ∈ v.tests, (v.child r.test).1 ≠ "__proto__")
    {ofRow : Row ν → M} {ofTest : SearchResult → M}
    (hrow : ∀ name row, RowOf v name row →
      ofRow row = ((members v name v.tests).map ofTest).sum)
    (hempty : ∀ r, legacyStatuses r = [] → ofTest r = 0) :
    (shown.displayedNodes.map ofRow).sum = (v.tests.map ofTest).sum := by
  obtain ⟨names, hnodup, hrows, hthere⟩ := h.rows
  have hsums : shown.displayedNodes.map ofRow =
      names.map fun name => ((members v name v.tests).map ofTest).sum := by
    rw [← List.forall₂_eq_eq_eq, List.forall₂_map_left_iff, List.forall₂_map_right_iff]
    exact hrows.flip.imp fun row name h => hrow name row h
  have hmembers : ∀ name, members v name v.tests =
      v.tests.filter fun r => (v.child r.test).1 = name := by
    intro name
    rw [members, ResultsView.tests, counted_counted]
  rw [hsums]
  simp only [hmembers]
  refine sum_map_sum_filter _ _ hnodup fun r hr hnot => ?_
  by_cases htotals : (v.child r.test).1 = "totals"
  · exact hempty r (h.child r hr htotals)
  · exact absurd (hthere hall r hr (hproto r hr) htotals) hnot

/-- What a test adds to a count of a run. -/
def addedBy {M : Type*} [Zero M] (f : LegacySearchRunResult → M) (i : Nat) (r : SearchResult) : M :=
  ((legacyStatuses r)[i]?.map f).getD 0

/-- What the tests add to a count of a run, summed up. -/
theorem sum_addedBy {M : Type*} [AddCommMonoid M] (f : LegacySearchRunResult → M) (i : Nat)
    (tests : List SearchResult) :
    (tests.map (addedBy f i)).sum = ((column i tests).map f).sum := by
  induction tests with
  | nil => rfl
  | cons r tests ih =>
    have hcolumn : column i (r :: tests) = (legacyStatuses r)[i]?.elim (column i tests)
        (· :: column i tests) := by
      rw [column, List.filterMap_cons]
      cases (legacyStatuses r)[i]? <;> rfl
    rw [List.map_cons, List.sum_cons, ih, hcolumn, addedBy]
    cases (legacyStatuses r)[i]? with
    | none => exact zero_add _
    | some rs => rfl

variable {ν : Type*} [One ν] [Div ν] [NatCast ν] [AddCommMonoid ν]

theorem foldl_countsAdd (diffRun : Bool) (c : Counts ν) (results : List LegacySearchRunResult) :
    results.foldl (Counts.add diffRun) c =
      ⟨c.passes + (results.map fun rs => (aggregateTotalsByTest ν rs).1).sum,
        c.tally + (results.map (tallyOf ν diffRun)).sum⟩ := by
  induction results generalizing c with
  | nil => simp
  | cons rs results ih =>
    rw [List.foldl_cons, ih, Counts.add, List.map_cons, List.map_cons, List.sum_cons, List.sum_cons,
      add_assoc, add_assoc]

/-- The counts of a run are sums over the tests. -/
theorem countsOf_eq (i : Nat) (tests : List SearchResult) : countsOf v ν i tests =
    ⟨(tests.map (addedBy (fun rs => (aggregateTotalsByTest ν rs).1) i)).sum,
      (tests.map (addedBy (tallyOf ν v.diffRun) i)).sum⟩ := by
  rw [countsOf, foldl_countsAdd, sum_addedBy, sum_addedBy, Counts.none, zero_add, zero_add]

theorem previousTallies_eq (i : Nat) (tests : List SearchResult) : previousTallies v i tests =
    (tests.map fun r => if i = 0 ∧ legacyStatuses r ≠ [] then previousTally v r else 0).sum := by
  induction tests using List.reverseRecOn with
  | nil =>
    rw [previousTallies]
    split <;> rfl
  | append_singleton tests r ih =>
    rw [previousTallies_snoc, ih, List.map_append, List.sum_append, List.map_singleton,
      List.sum_singleton]

theorem diffOf_getD (tests : List SearchResult) :
    (diffOf v tests).getD 0 = (tests.map fun r => (testDiff v r).getD 0).sum := by
  induction tests using List.reverseRecOn with
  | nil => rfl
  | append_singleton tests r ih =>
    rw [diffOf_snoc, List.map_append, List.sum_append, List.map_singleton, List.sum_singleton, ← ih]
    cases testDiff v r with
    | none => exact (add_zero _).symm
    | some d => rfl

/-- **The rows of a page add up** to its totals, and to what the old names of renamed tests had in
the first run; their diffs add up to that of the tests. -/
theorem rows_add_up {shown old : Displayed ν} (h : refreshDisplayedNodes v old = .ok shown)
    (hne : v.searchResults ≠ []) (hall : v.onlyShowDifferences = false)
    (hproto : ∀ r ∈ v.tests, (v.child r.test).1 ≠ "__proto__") :
    (∀ i < v.testRuns,
      (shown.displayedNodes.map fun row => (row.counts i).passes).sum = (shown.total i).passes ∧
        (shown.displayedNodes.map fun row => (row.counts i).tally).sum =
          (shown.total i).tally + previousTallies v i v.tests) ∧
      (shown.displayedNodes.map fun row => row.diff.getD 0).sum = (diffOf v v.tests).getD 0 := by
  have hshows := refreshDisplayedNodes_spec hne h
  refine ⟨fun i hi => ⟨?_, ?_⟩, ?_⟩
  · rw [hshows.total_eq hi, countsOf_eq]
    refine hshows.sum_rows hall hproto (fun name row his => ?_) fun r hr => ?_
    · obtain ⟨-, -, first, -, his⟩ := his
      rw [his.counts_eq hi, Counts.plus, countsOf_eq]
    · rw [addedBy, hr]
      rfl
  · rw [hshows.total_eq hi, countsOf_eq, previousTallies_eq, ← List.sum_map_add]
    refine hshows.sum_rows hall hproto (fun name row his => ?_) fun r hr => ?_
    · obtain ⟨-, -, first, -, his⟩ := his
      rw [his.counts_eq hi, Counts.plus, countsOf_eq, previousTallies_eq, List.sum_map_add]
    · rw [addedBy, hr, if_neg fun h => h.2 rfl]
      rfl
  · rw [diffOf_getD]
    refine hshows.sum_rows hall hproto (fun name row his => ?_) fun r hr => ?_
    · obtain ⟨-, -, first, -, his⟩ := his
      rw [his.diff, diffOf_getD]
    · rw [testDiff_of_statuses hr, Option.getD_none]

end Sums

theorem rows_add_up_renamed :
    (∀ i < 2,
      ((pageOf renamedView).displayedNodes.map fun row => (row.counts i).passes).sum =
          ((pageOf renamedView).total i).passes ∧
        ((pageOf renamedView).displayedNodes.map fun row => (row.counts i).tally).sum =
          ((pageOf renamedView).total i).tally +
            previousTallies renamedView i renamedView.tests) ∧
      ((pageOf renamedView).displayedNodes.map fun row => row.diff.getD 0).sum =
        (diffOf renamedView renamedView.tests).getD 0 :=
  rows_add_up refresh_renamed (List.cons_ne_nil _ _) rfl (by decide +kernel)

/-! ## Diffs

What the script counts for a test is what the server finds between its two results, except for a
test that both runs miss when what is unchanged is asked for. -/

section Diffs

variable {v : ResultsView} {filter : DiffFilterParam} {before after : LegacySearchRunResult}

/-- The counts of a run, nil when the test is missing in it. -/
def summaryOf (rs : LegacySearchRunResult) : Summary :=
  if (countStatus rs).2 = 0 then none else some (countStatus rs)

theorem countStatus_spec {rs : LegacySearchRunResult} (h : rs.passes ≤ rs.total) :
    0 ≤ (countStatus rs).1 ∧ (countStatus rs).1 ≤ (countStatus rs).2 := by
  rw [countStatus]
  split_ifs <;> simp only <;> omega

/-- The script counts the differences that the server does, and no difference of a test that is
missing in both runs when what is unchanged is asked for. -/
theorem computeDifferences_eq (hbefore : before.passes ≤ before.total)
    (hafter : after.passes ≤ after.total) : computeDifferences filter before after =
      if summaryOf before = none ∧ summaryOf after = none ∧ filter.unchanged = true then some 0
      else newTestDiff (summaryOf before) (summaryOf after) filter := by
  obtain ⟨hb, hb'⟩ := countStatus_spec hbefore
  obtain ⟨ha, ha'⟩ := countStatus_spec hafter
  rw [computeDifferences, summaryOf, summaryOf]
  generalize countStatus before = b at *
  generalize countStatus after = a at *
  obtain ⟨bp, bt⟩ := b
  obtain ⟨ap, total⟩ := a
  simp only at hb hb' ha ha' ⊢
  by_cases hbt : bt = 0 <;> by_cases htotal : total = 0
  · -- missing in both runs
    have hbp : bp = 0 := by omega
    have hap : ap = 0 := by omega
    subst hbt htotal hbp hap
    have hzero : (⟨max (0 - 0) 0, max (0 - 0 - (0 - 0)) 0, 0 - 0⟩ : TestDiff) = 0 := rfl
    simp only [hzero]
    cases filter.unchanged <;> simp [newTestDiff]
  · -- added
    have hbp : bp = 0 := by omega
    subst hbt hbp
    have hpos : 0 < total := by omega
    cases hadded : filter.added <;> simp [newTestDiff, hadded, htotal, hpos, ha, ha']
  · -- deleted
    have hap : ap = 0 := by omega
    subst htotal hap
    have hpos : 0 < bt := by omega
    cases hdeleted : filter.deleted <;> simp [newTestDiff, hdeleted, hbt, hpos, hb, hb']
  · -- in both runs
    have hchanged : (⟨max (ap - bp) 0, max (total - ap - (bt - bp)) 0, total - bt⟩ : TestDiff) ≠ 0 ↔
        bp - ap ≠ 0 ∨ bt ≠ total := by
      rw [Ne, TestDiff.ext_iff]
      simp only [TestDiff.newlyPassing_zero, TestDiff.newlyFailing_zero, TestDiff.totalDelta_zero]
      omega
    have himproved : (if bp < ap then ap - bp else 0) = max (ap - bp) 0 := by
      split_ifs <;> omega
    have hregressed : (if bt - bp < total - ap then total - ap - (bt - bp) else 0) =
        max (total - ap - (bt - bp)) 0 := by
      split_ifs <;> omega
    simp only [newTestDiff, hbt, htotal, hchanged]
    by_cases h : bp - ap ≠ 0 ∨ bt ≠ total <;> cases filter.changed <;> cases filter.unchanged <;>
      simp [h, himproved, hregressed]

/-- What the server finds between the two results of a test. -/
def serverDiff (filter : DiffFilterParam) (r : SearchResult) : Option TestDiff :=
  newTestDiff ((legacyStatuses r)[0]?.bind summaryOf) ((legacyStatuses r)[1]?.bind summaryOf) filter

/-- The test is missing in both runs. -/
def MissingInBoth (r : SearchResult) : Prop :=
  ∀ rs ∈ legacyStatuses r, summaryOf rs = none

/-- The script has to count the differences itself. -/
structure CountsItself (r : SearchResult) : Prop where
  noDiff : r.diff = none
  length : (legacyStatuses r).length = 2
  passes : ∀ rs ∈ legacyStatuses r, rs.passes ≤ rs.total

/-- The diff of a test, when the script counts it: that of the server, or zero for a test that both
runs miss. -/
theorem testDiff_eq (hdiff : v.diff = true) (hresults : v.diffResults = none) {r : SearchResult}
    (h : CountsItself r) :
    (MissingInBoth r ∧ v.diffFilter.unchanged = true ∧ testDiff v r = some 0) ∨
      (¬ (MissingInBoth r ∧ v.diffFilter.unchanged = true) ∧
        testDiff v r = serverDiff v.diffFilter r) := by
  obtain ⟨before, after, hrs⟩ := List.length_eq_two.mp h.length
  have hpasses := h.passes
  simp only [MissingInBoth, serverDiff, testDiff, hdiff, hresults, h.noDiff, hrs,
    List.forall_mem_cons] at hpasses ⊢
  have hcomputed := @computeDifferences_eq v.diffFilter _ _ hpasses.1 hpasses.2.1
  by_cases hmissing : summaryOf before = none ∧ summaryOf after = none ∧
      v.diffFilter.unchanged = true
  · rw [if_pos hmissing] at hcomputed
    exact .inl ⟨⟨hmissing.1, hmissing.2.1, List.forall_mem_nil _⟩, hmissing.2.2, hcomputed⟩
  · rw [if_neg hmissing] at hcomputed
    exact .inr ⟨fun h => hmissing ⟨h.1.1, h.1.2.1, h.2⟩, hcomputed⟩

theorem serverDiff_of_missing {r : SearchResult} (h : MissingInBoth r) :
    serverDiff filter r = none := by
  have hnone : ∀ i : Nat, (legacyStatuses r)[i]?.bind summaryOf = none := by
    intro i
    cases hrs : (legacyStatuses r)[i]? with
    | none => rfl
    | some rs => exact h rs (List.mem_of_getElem? hrs)
  rw [serverDiff, hnone, hnone, newTestDiff]

/-- There is a diff of some tests when one of them has one. -/
theorem isSome_diffOf (tests : List SearchResult) :
    (diffOf v tests).isSome ↔ ∃ r ∈ tests, (testDiff v r).isSome := by
  rw [diffOf]
  split_ifs with h
  · rw [List.filterMap_eq_nil_iff] at h
    refine iff_of_false Bool.false_ne_true ?_
    rintro ⟨r, hr, hsome⟩
    rw [h r hr] at hsome
    cases hsome
  · refine ⟨fun _ => ?_, fun _ => rfl⟩
    obtain ⟨d, hd⟩ := List.exists_mem_of_ne_nil _ h
    obtain ⟨r, hr, hsome⟩ := List.mem_filterMap.mp hd
    exact ⟨r, hr, by rw [hsome]; rfl⟩

/-- **The diff of a directory**, counted by the script, is the sum of what the server finds in the
tests below it; there is one exactly when the server finds one, or when a test is missing in both
runs and what is unchanged is asked for. -/
theorem opens_diff {ν : Type*} [Zero ν] [One ν] [Add ν] [Div ν] [NatCast ν]
    {shown old : Displayed ν} {row : Row ν}
    (h : refreshDisplayedNodes v old = .ok shown) (hrow : row ∈ shown.displayedNodes)
    (hdir : row.isDir = true) (hroot : row.path ≠ "/")
    (hfile : ∀ r ∈ v.searchResults, r.test ≠ row.path)
    (hdiff : v.diff = true) (hresults : v.diffResults = none)
    (hself : ∀ r ∈ (v.goTo row.path).tests, CountsItself r) :
    row.diff.getD 0 = ((v.goTo row.path).tests.map fun r =>
        (serverDiff v.diffFilter r).getD 0).sum ∧
      (row.diff.isSome ↔ ∃ r ∈ (v.goTo row.path).tests, (serverDiff v.diffFilter r).isSome ∨
        (MissingInBoth r ∧ v.diffFilter.unchanged = true)) := by
  obtain ⟨name, hname⟩ :=
    (refreshDisplayedNodes_spec (searchResults_ne_nil h hrow) h).exists_rowOf hrow
  have htests := hname.tests_eq hdir hroot hfile
  obtain ⟨-, -, first, -, his⟩ := hname
  rw [his.diff, htests, diffOf_getD, isSome_diffOf]
  constructor
  · refine congrArg List.sum (List.map_congr_left fun r hr => ?_)
    obtain ⟨hmissing, -, hzero⟩ | ⟨-, hsame⟩ := testDiff_eq hdiff hresults (hself r hr)
    · rw [hzero, serverDiff_of_missing hmissing]
      rfl
    · rw [hsame]
  · refine exists_congr fun r => and_congr_right fun hr => ?_
    obtain ⟨hmissing, hunchanged, hzero⟩ | ⟨hnot, hsame⟩ :=
      testDiff_eq hdiff hresults (hself r hr)
    · rw [hzero]
      exact ⟨fun _ => .inr ⟨hmissing, hunchanged⟩, fun _ => rfl⟩
    · rw [hsame, or_iff_left hnot]

end Diffs

/-- The diff of two runs that the script counts itself. -/
def plainView : ResultsView where
  path := "/"
  testRuns := 2
  searchResults := [
    { test := "/dom/a.html", legacyStatus := some [{}, ⟨4, 4, "O", true⟩] },
    { test := "/dom/nodes/b.html", legacyStatus := some [⟨0, 0, "P", true⟩, ⟨0, 0, "F", true⟩] }]
  diff := true
  diffRun := true

theorem countsItself_plain : ∀ r ∈ plainView.searchResults, CountsItself r := by
  have hall : ∀ r ∈ plainView.searchResults,
      r.diff = none ∧ (legacyStatuses r).length = 2 ∧
        ∀ rs ∈ legacyStatuses r, rs.passes ≤ rs.total := by
    decide +kernel
  exact fun r hr => ⟨(hall r hr).1, (hall r hr).2.1, (hall r hr).2.2⟩

theorem opens_diff_dom :
    (firstRow plainView).diff.getD 0 = ((openedView plainView).tests.map fun r =>
        (serverDiff plainView.diffFilter r).getD 0).sum ∧
      ((firstRow plainView).diff.isSome ↔ ∃ r ∈ (openedView plainView).tests,
        (serverDiff plainView.diffFilter r).isSome ∨
          (MissingInBoth r ∧ plainView.diffFilter.unchanged = true)) :=
  have hpage : refreshDisplayedNodes plainView ⟨[], none⟩ = .ok (pageOf plainView) :=
    refresh_pageOf (by decide +kernel)
  opens_diff hpage (firstRow_mem (by decide +kernel)) (by decide +kernel) (by decide +kernel)
    (by decide +kernel) rfl rfl
    fun r hr => countsItself_plain r (List.mem_filter.mp (List.mem_filter.mp hr).1).1

/-! ## Names that break a page

The page fails only when a child is called like something that the script looks up in the same
object. -/

section Names

variable {v : ResultsView} {r : SearchResult} {tests : List SearchResult} {ν : Type*}

/-- Adding the counts of the old name of a test does not fail where tests have results. -/
theorem exists_addPrevious (hresults : ∀ r ∈ v.searchResults, legacyStatuses r ≠ []) (test : String)
    {cells : List (Cell ν)} (hcells : cells ≠ []) :
    ∃ cells', addPrevious v test cells = .ok cells' := by
  rw [addPrevious]
  cases hprevious : previousResult v test with
  | none => exact ⟨cells, rfl⟩
  | some previous =>
    have hmem : previous ∈ v.searchResults := by
      rw [previousResult] at hprevious
      split at hprevious
      · split_ifs at hprevious
        exact List.mem_of_find?_eq_some hprevious
      · cases hprevious
    obtain ⟨rs, rest, hrs⟩ := List.exists_cons_of_ne_nil (hresults previous hmem)
    obtain ⟨cell, cells, rfl⟩ := List.exists_cons_of_ne_nil hcells
    simp only [hrs]
    exact ⟨_, rfl⟩

variable [Zero ν] [One ν] [Add ν] [Div ν] [NatCast ν] {nodes nodes' : Nodes ν}

/-- Nor does adding a test to the cells and totals, when there are enough of them. -/
theorem exists_aggregateTestTotals (diffRun : Bool) {rs : List LegacySearchRunResult}
    {cells : List (Cell ν)} {totals : List (Counts ν)} (hcells : rs.length ≤ cells.length)
    (htotals : rs.length ≤ totals.length) : ∃ cells' totals',
      aggregateTestTotals diffRun rs cells totals = .ok (cells', totals') ∧
        cells'.length = cells.length := by
  induction rs generalizing cells totals with
  | nil => exact ⟨cells, totals, rfl, rfl⟩
  | cons s rs ih =>
    obtain ⟨cell, cells, rfl⟩ := List.exists_cons_of_length_pos (Nat.zero_lt_of_lt hcells)
    obtain ⟨count, totals, rfl⟩ := List.exists_cons_of_length_pos (Nat.zero_lt_of_lt htotals)
    obtain ⟨cells', totals', hok, hlen⟩ :=
      ih (Nat.le_of_succ_le_succ hcells) (Nat.le_of_succ_le_succ htotals)
    exact ⟨_, _, bind_eq_ok_iff.mpr ⟨_, hok, rfl⟩, congrArg (· + 1) hlen⟩

/-- The method is hidden once a test was in the child of its name. -/
theorem Summarizes.hidden_iff (h : Summarizes v tests tests nodes) :
    "hasOwnProperty" ∈ nodes.rows.keys ↔
      ∃ r ∈ counted v tests, (v.child r.test).1 = "hasOwnProperty" := by
  have hmembers : (∃ r ∈ counted v tests, (v.child r.test).1 = "hasOwnProperty") ↔
      members v "hasOwnProperty" tests ≠ [] := by
    rw [Ne, List.eq_nil_iff_forall_not_mem, not_forall_not]
    simp only [mem_members]
  rw [hmembers, JsObject.mem_keys_iff]
  obtain ⟨hnone, hnil⟩ | ⟨row, first, hrow, hfirst, -⟩ :=
    h.rows "hasOwnProperty" (by decide) (by decide)
  · simp [hnone, hnil]
  · simp only [hrow, Option.isSome_some, true_iff]
    exact List.ne_nil_of_mem (List.mem_of_mem_head? hfirst)

theorem length_totals (h : nodes.totals = totalsOf v ν tests) :
    (nodes.totals.getD (List.replicate v.testRuns Counts.none)).length = v.testRuns := by
  rw [h, totalsOf_getD, List.length_map, List.length_range]

/-- The cells of the row a test is in, after `collapsePathOnto`. -/
theorem Summarizes.exists_row (h : Summarizes v tests tests nodes)
    (hr : v.renamedAway r.test = false) (htotals : (v.child r.test).1 ≠ "totals")
    (hok : collapsePathOnto v r.test nodes = .ok nodes') :
    ∃ row, nodes'.row (v.child r.test).1 = .ok row ∧ row.results.length = v.testRuns := by
  by_cases hproto : (v.child r.test).1 = "__proto__"
  · -- the prototype is a new row for every test
    obtain ⟨hthere, -⟩ | ⟨-, rfl⟩ := collapsePathOnto_cases hok
    · rw [hproto] at hthere
      exact absurd (hthere.resolve_right (by decide)) h.proto
    · refine ⟨newRow v r.test, ?_, List.length_replicate⟩
      rw [Nodes.row, if_pos hproto, Nodes.setRow, if_pos hproto]
      rfl
  · obtain ⟨-, hnil⟩ | ⟨row, first, hrow, -, his⟩ :=
      (h.collapse hr hok).rows _ hproto htotals
    · have hin : r ∈ members v (v.child r.test).1 (tests ++ [r]) := by
        rw [members_snoc, if_pos ⟨hr, rfl⟩]
        exact List.mem_append_right _ List.mem_cons_self
      rw [hnil] at hin
      cases hin
    · refine ⟨row, by rw [Nodes.row, if_neg hproto, hrow]; rfl, ?_⟩
      rw [← List.length_map Cell.toCounts, his.counts, List.length_map, List.length_range]

/-- When a turn of the loop returns. -/
theorem exists_addResult_iff
    (hresults : ∀ r ∈ v.searchResults, (legacyStatuses r).length = v.testRuns)
    (hruns : 0 < v.testRuns) (h : Summarizes v tests tests nodes)
    (hkeys : "totals" ∉ nodes.rows.keys) (hmem : r ∈ v.searchResults)
    (hr : v.renamedAway r.test = false) :
    (∃ nodes', addResult v nodes r = .ok nodes') ↔ (v.child r.test).1 ≠ "totals" ∧
      ∀ r' ∈ counted v tests, (v.child r'.test).1 ≠ "hasOwnProperty" := by
  have hlen := hresults r hmem
  have hsome : ∀ r ∈ v.searchResults, legacyStatuses r ≠ [] := fun r hr =>
    List.ne_nil_of_length_pos (hresults r hr ▸ hruns)
  constructor
  · rintro ⟨nodes', hok⟩
    refine ⟨fun hname => hsome r hmem (statuses_of_child_totals hok hr hname),
      fun r' hr' hname => ?_⟩
    rw [addResult, hr, if_neg Bool.false_ne_true] at hok
    obtain ⟨nodes₁, hcollapse, -⟩ := bind_eq_ok_iff.mp hok
    obtain ⟨isThere, hthere, -⟩ := bind_eq_ok_iff.mp hcollapse
    rw [Nodes.hasOwnProperty, if_pos (h.hidden_iff.mpr ⟨r', hr', hname⟩)] at hthere
    cases hthere
  · rintro ⟨htotals, hhidden⟩
    -- a row of this name hides the method that the page asks for each row
    have hnot : "hasOwnProperty" ∉ nodes.rows.keys := fun hin => by
      obtain ⟨r', hr', hname⟩ := h.hidden_iff.mp hin
      exact hhidden r' hr' hname
    obtain ⟨nodes₁, hcollapse⟩ : ∃ nodes₁, collapsePathOnto v r.test nodes = .ok nodes₁ := by
      rw [collapsePathOnto, Nodes.hasOwnProperty, if_neg hnot]
      simp only [Except.bind]
      split_ifs
      · exact ⟨_, rfl⟩
      · exact ⟨_, rfl⟩
    have h₁ := h.collapse hr hcollapse
    have hkeys₁ : "totals" ∉ nodes₁.rows.keys := by
      obtain ⟨-, rfl⟩ | ⟨-, rfl⟩ := collapsePathOnto_cases hcollapse
      · exact hkeys
      · rwa [JsObject.mem_keys_iff, get?_setRow (by decide), if_neg htotals.symm,
          ← JsObject.mem_keys_iff]
    obtain ⟨row, hrow, hcells⟩ := h.exists_row hr htotals hcollapse
    obtain ⟨cells, totals, haggregate, hcells'⟩ := exists_aggregateTestTotals v.diffRun
      (hlen.trans hcells.symm).le (hlen.trans (length_totals h₁.totals).symm).le
    obtain ⟨cells', hprevious⟩ := exists_addPrevious hsome r.test
      (List.ne_nil_of_length_pos (by rw [hcells', hcells]; exact hruns))
    let row' : Row ν := { row with
      results := cells'
      diff := (testDiff v r).elim row.diff fun d => some (row.diff.getD 0 + d) }
    refine ⟨(nodes₁.setRow (v.child r.test).1 row').setTotals totals, ?_⟩
    rw [addResult, hr, if_neg Bool.false_ne_true]
    refine bind_eq_ok_iff.mpr ⟨nodes₁, hcollapse, ?_⟩
    simp only
    rw [if_neg (hsome r hmem)]
    refine bind_eq_ok_iff.mpr ⟨_, if_neg hkeys₁, ?_⟩
    refine bind_eq_ok_iff.mpr ⟨row, hrow, ?_⟩
    refine bind_eq_ok_iff.mpr ⟨(cells, totals), haggregate, ?_⟩
    exact bind_eq_ok_iff.mpr ⟨cells', hprevious, rfl⟩

/-- No row takes the name of the totals. -/
theorem totals_notMem_addResult (hok : addResult v nodes r = .ok nodes')
    (hne : legacyStatuses r ≠ []) (hkeys : "totals" ∉ nodes.rows.keys) :
    "totals" ∉ nodes'.rows.keys := by
  by_cases hr : v.renamedAway r.test = true
  · rw [addResult, if_pos hr] at hok
    have hsame := Except.ok.inj hok
    subst hsame
    exact hkeys
  have hname := mt (statuses_of_child_totals hok (Bool.eq_false_iff.mpr hr)) hne
  rw [addResult, if_neg hr] at hok
  obtain ⟨nodes₁, -, hok⟩ := bind_eq_ok_iff.mp hok
  rw [if_neg hne] at hok
  obtain ⟨totals, htotals, hok⟩ := bind_eq_ok_iff.mp hok
  obtain ⟨row, -, hok⟩ := bind_eq_ok_iff.mp hok
  obtain ⟨⟨cells, totals'⟩, -, hok⟩ := bind_eq_ok_iff.mp hok
  obtain ⟨cells', -, hok⟩ := bind_eq_ok_iff.mp hok
  have hnodes := Except.ok.inj hok
  subst hnodes
  rw [Nodes.totalsFor] at htotals
  split_ifs at htotals with hkeys₁
  rwa [rows_setTotals, JsObject.mem_keys_iff, get?_setRow (by decide), if_neg (Ne.symm hname),
    ← JsObject.mem_keys_iff]

/-- The loop's object holds the tests done, and no row took the name of the totals. -/
theorem summarizes_foldTry (hresults : ∀ r ∈ tests, legacyStatuses r ≠ [])
    (h : foldTry (addResult v) .empty tests = .ok nodes) :
    Summarizes v tests tests nodes ∧ "totals" ∉ nodes.rows.keys := by
  refine foldTry_induction
    (P := fun done nodes => (∀ r ∈ done, legacyStatuses r ≠ []) →
      Summarizes v done done nodes ∧ "totals" ∉ nodes.rows.keys)
    (fun _ => ⟨summarizes_empty, List.not_mem_nil⟩) (fun done r s s' hs hok hall => ?_) h hresults
  obtain ⟨hsum, hkeys⟩ := hs fun r hr => hall r (List.mem_append_left _ hr)
  exact ⟨hsum.addResult hok,
    totals_notMem_addResult hok (hall r (List.mem_append_right _ List.mem_cons_self)) hkeys⟩

/-- When the loop returns. -/
theorem exists_foldTry_iff
    (hresults : ∀ r ∈ v.searchResults, (legacyStatuses r).length = v.testRuns)
    (hruns : 0 < v.testRuns) (hmem : ∀ r ∈ tests, r ∈ v.searchResults) :
    (∃ nodes : Nodes ν, foldTry (addResult v) .empty tests = .ok nodes) ↔
      (∀ r ∈ counted v tests, (v.child r.test).1 ≠ "totals") ∧
        ∀ r ∈ (counted v tests).dropLast, (v.child r.test).1 ≠ "hasOwnProperty" := by
  have hsome : ∀ r ∈ v.searchResults, legacyStatuses r ≠ [] := fun r hr =>
    List.ne_nil_of_length_pos (hresults r hr ▸ hruns)
  induction tests using List.reverseRecOn with
  | nil => exact iff_of_true ⟨_, rfl⟩ ⟨List.forall_mem_nil _, List.forall_mem_nil _⟩
  | append_singleton tests r ih =>
    have hbefore : ∀ r ∈ tests, r ∈ v.searchResults := fun r hr =>
      hmem r (List.mem_append_left _ hr)
    have hlast := hmem r (List.mem_append_right _ List.mem_cons_self)
    have hloop : (∃ nodes : Nodes ν, foldTry (addResult v) .empty (tests ++ [r]) = .ok nodes) ↔
        ∃ nodes nodes' : Nodes ν, foldTry (addResult v) .empty tests = .ok nodes ∧
          addResult v nodes r = .ok nodes' := by
      simp only [foldTry_append, bind_eq_ok_iff, foldTry]
      constructor
      · rintro ⟨nodes', nodes, hnodes, _, hstep, hend⟩
        cases hend
        exact ⟨nodes, _, hnodes, hstep⟩
      · rintro ⟨nodes, nodes', hnodes, hstep⟩
        exact ⟨nodes', nodes, hnodes, nodes', hstep, rfl⟩
    rw [hloop, counted_snoc]
    -- a result that is renamed away is skipped; any other asks for the rows before it
    by_cases hr : v.renamedAway r.test = true
    · rw [if_pos hr]
      refine Iff.trans ?_ (ih hbefore)
      simp only [addResult, if_pos hr]
      constructor
      · rintro ⟨nodes, _, hnodes, _⟩
        exact ⟨nodes, hnodes⟩
      · rintro ⟨nodes, hnodes⟩
        exact ⟨nodes, nodes, hnodes, rfl⟩
    · have hstep : ∀ nodes : Nodes ν, foldTry (addResult v) .empty tests = .ok nodes →
          ((∃ nodes', addResult v nodes r = .ok nodes') ↔ (v.child r.test).1 ≠ "totals" ∧
            ∀ r' ∈ counted v tests, (v.child r'.test).1 ≠ "hasOwnProperty") := by
        intro nodes hnodes
        obtain ⟨hsum, hkeys⟩ := summarizes_foldTry (fun r hr => hsome r (hbefore r hr)) hnodes
        exact exists_addResult_iff hresults hruns hsum hkeys hlast (Bool.eq_false_iff.mpr hr)
      rw [if_neg hr, List.dropLast_concat, List.forall_mem_append, List.forall_mem_singleton]
      constructor
      · rintro ⟨nodes, nodes', hnodes, hok⟩
        obtain ⟨htotals, hhidden⟩ := (hstep nodes hnodes).mp ⟨nodes', hok⟩
        exact ⟨⟨((ih hbefore).mp ⟨nodes, hnodes⟩).1, htotals⟩, hhidden⟩
      · rintro ⟨⟨hall, htotals⟩, hhidden⟩
        obtain ⟨nodes, hnodes⟩ := (ih hbefore).mpr
          ⟨hall, fun r hr => hhidden r (List.mem_of_mem_dropLast hr)⟩
        obtain ⟨nodes', hok⟩ := (hstep nodes hnodes).mpr ⟨htotals, hhidden⟩
        exact ⟨nodes, nodes', hnodes, hok⟩

/-- **Names that break a page**: it is refreshed exactly when no test is in a child called
`totals`, and none but the last in one called `hasOwnProperty`. -/
theorem refreshDisplayedNodes_isOk_iff (old : Displayed ν)
    (hresults : ∀ r ∈ v.searchResults, (legacyStatuses r).length = v.testRuns)
    (hruns : 0 < v.testRuns) :
    (∃ shown, refreshDisplayedNodes v old = .ok shown) ↔
      (∀ r ∈ v.tests, (v.child r.test).1 ≠ "totals") ∧
        ∀ r ∈ v.tests.dropLast, (v.child r.test).1 ≠ "hasOwnProperty" := by
  have hmem : ∀ r ∈ v.searchResults.filter fun r => hasPrefix r.test v.pathPrefix,
      r ∈ v.searchResults := fun r hr => (List.mem_filter.mp hr).1
  by_cases hnil : v.searchResults = []
  · have htests : v.tests = [] := by rw [ResultsView.tests, hnil]; rfl
    rw [htests, refreshDisplayedNodes, if_pos hnil]
    exact iff_of_true ⟨_, rfl⟩ ⟨List.forall_mem_nil _, List.forall_mem_nil _⟩
  · rw [ResultsView.tests, ← exists_foldTry_iff hresults hruns hmem (ν := ν), refreshDisplayedNodes,
      if_neg hnil]
    simp only [bind_eq_ok_iff]
    constructor
    · rintro ⟨_, nodes, hnodes, _⟩
      exact ⟨nodes, hnodes⟩
    · rintro ⟨nodes, hnodes⟩
      exact ⟨_, nodes, hnodes, rfl⟩

end Names

theorem refreshDisplayedNodes_isOk_renamed :
    (∃ shown : Displayed ℚ, refreshDisplayedNodes renamedView ⟨[], none⟩ = .ok shown) ↔
      (∀ r ∈ renamedView.tests, (renamedView.child r.test).1 ≠ "totals") ∧
        ∀ r ∈ renamedView.tests.dropLast, (renamedView.child r.test).1 ≠ "hasOwnProperty" :=
  refreshDisplayedNodes_isOk_iff _ (by decide +kernel) (by decide)

end WptFyi.Webapp.ResultsPage
