import WptFyi.Lib.OffsetPages
import WptFyi.Shared.AlignedRuns
import WptFyi.Shared.ProductSpecs

/-!
# Pages of test runs (`shared/test_run_filter.go`, `shared/test_run_query.go`)

`NextPage` goes on in the time window of a filter, by an offset, as long as some product
fills its page, and then to the window before it.

The window before it is as long as the window and ends a millisecond before it begins, and the
offset goes along into it. So a run can be missed in two ways: it began in that millisecond, or it
is among the first runs of a window that is entered with an offset. The first is about times and
windows only, the second about pages and offsets only and is dealt with in `OffsetPages`;
`pageFilter_eq` connects the filters of the pages to the positions there.

A product that asks for a revision or a version is looked up otherwise, which is modelled in another
module; here products are those that one query answers for.

- `serverQuery`, `nextPage`, `pageFilter`: a page, the filter of the next, and of all;
- `prevWindow`: the window before a window, which ends a millisecond before it begins;
- `pageFilter_eq`: the pages are those of `OffsetPages` over these windows;
- `returnedOnce_iff`: every run is returned on one page exactly when all are in windows
  and none is in a window after one that fills a page.
-/

namespace WptFyi.Shared

open Lib

/-! ## Queries -/

/-- The fields of `TestRunFilter` that are read here; SHAs and `Aligned` are unset. -/
structure TestRunFilter where
  labels : Option (Finset String) := none
  timeFrom : Option Int := none
  timeTo : Option Int := none
  maxCount : Option Int := none
  offset : Option Int := none
  products : List ProductSpec := []
deriving DecidableEq

/-- `GetProductsOrDefault`. -/
def TestRunFilter.getProductsOrDefault (filter : TestRunFilter) : List ProductSpec :=
  if filter.products = [] then defaultBrowsers.map fun name => { browserName := name }
  else filter.products

/-- The labels of the filter and of the product, and the browser. -/
def inQuery (labels : Option (Finset String)) (product : ProductSpec) (run : TestRun) : Bool :=
  decide ((labels.getD ∅).erase "" ⊆ run.labelsSet) &&
    decide (run.browserName = product.browserName) &&
    decide (product.labels.getD ∅ ⊆ run.labelsSet)

/-- `TimeStart >= from` and `TimeStart < to`. -/
def inWindow (timeFrom timeTo : Option Int) (run : TestRun) : Bool :=
  timeFrom.all (fun t => decide (t ≤ run.timeStart)) &&
    timeTo.all (fun t => decide (run.timeStart < t))

/-- `-TimeStart`. -/
def newestFirst (runs : List TestRun) : List TestRun :=
  runs.insertionSort fun a b => b.timeStart ≤ a.timeStart

/-- The query of `LoadTestRunKeys` for a product without revision and version. -/
def serverQuery (runs : List TestRun) (filter : TestRunFilter) (product : ProductSpec) :
    List TestRun :=
  let max := match filter.maxCount with
    | some limit => if limit < maxCountMaxValue then limit else maxCountMaxValue
    | none => maxCountMaxValue
  let matching := runs.filter fun run =>
    inQuery filter.labels product run && inWindow filter.timeFrom filter.timeTo run
  ((newestFirst matching).drop (filter.offset.getD 0).toNat).take max.toNat

/-- What is loaded for a filter with a lower time bound, product by product. -/
def loadPage (runs : List TestRun) (filter : TestRunFilter) : List (List TestRun) :=
  filter.getProductsOrDefault.map (serverQuery runs filter)

/-! ## The next page -/

/-- `to.Sub(from)`, which saturates. -/
def subTime (timeTo timeFrom : Int) : Int := max (-2 ^ 63) (min (2 ^ 63 - 1) (timeTo - timeFrom))

/-- `time.Millisecond` -/
def millisecond : Int := 1000000

/-- The window before a window. -/
def prevWindow (window : Int × Int) : Int × Int :=
  (window.1 - subTime window.2 window.1, window.1 - millisecond)

/-- `NextPage`, at the time `now`. -/
def TestRunFilter.nextPage (now : Int) (filter : TestRunFilter) (loadedRuns : List (List TestRun)) :
    Option TestRunFilter :=
  let anyMaxedOut := filter.maxCount.any fun count =>
    loadedRuns.any fun v => decide (count ≤ (v.length : Int))
  if anyMaxedOut then
    some { filter with offset := some (filter.maxCount.getD 0 + filter.offset.getD 0) }
  else
    filter.timeFrom.map fun timeFrom =>
      -- the offset, if there is one, stays as it is
      let window := prevWindow (timeFrom, filter.timeTo.getD now)
      { filter with timeFrom := some window.1, timeTo := some window.2 }

/-- The filters of all pages. -/
def pageFilter (now : Int) (runs : List TestRun) (filter : TestRunFilter) :
    Nat → Option TestRunFilter
  | 0 => some filter
  | k + 1 => (pageFilter now runs filter k).bind fun f => f.nextPage now (loadPage runs f)

/-- The run is returned for the product on the page. -/
def ReturnedOn (now : Int) (runs : List TestRun) (filter : TestRunFilter) (product : ProductSpec)
    (run : TestRun) (k : Nat) : Prop :=
  ∃ f, pageFilter now runs filter k = some f ∧ run ∈ serverQuery runs f product

/-! ## Windows

The windows go back one behind the other, each ending a millisecond before the next one begins. So
they are disjoint, and a time between two of them is in none. -/

/-- A time is in a window. -/
def InTimes (window : Int × Int) (t : Int) : Prop := window.1 ≤ t ∧ t < window.2

section Windows

variable {window : Int × Int}

theorem subTime_pos (h : window.1 < window.2) : 0 < subTime window.2 window.1 := by
  unfold subTime
  omega

theorem subTime_nonpos (h : window.2 ≤ window.1) : subTime window.2 window.1 ≤ 0 := by
  unfold subTime
  omega

/-- The windows, going back. -/
def windowAt (window : Int × Int) (w : Nat) : Int × Int := prevWindow^[w] window

theorem windowAt_succ (window : Int × Int) (w : Nat) :
    windowAt window (w + 1) = prevWindow (windowAt window w) := Function.iterate_succ_apply' _ _ _

/-- After a window without times there are only such. -/
theorem nonempty_of_succ {w : Nat} (h : (windowAt window (w + 1)).1 < (windowAt window (w + 1)).2) :
    (windowAt window w).1 < (windowAt window w).2 := by
  by_contra hempty
  have hspan := subTime_nonpos (not_lt.mp hempty)
  rw [windowAt_succ] at h
  simp only [prevWindow, millisecond] at h
  omega

/-- Windows with times go back. -/
theorem from_le_from {j w : Nat} (hjw : j ≤ w) (h : (windowAt window w).1 < (windowAt window w).2) :
    (windowAt window w).1 ≤ (windowAt window j).1 := by
  induction w, hjw using Nat.le_induction with
  | base => exact Int.le_refl _
  | succ w _ ih =>
    have hprev := nonempty_of_succ h
    have hspan := subTime_pos hprev
    have hle := ih hprev
    rw [windowAt_succ]
    simp only [prevWindow]
    omega

/-- **Later windows are earlier**: what is in one is before all windows before it. -/
theorem lt_from_of_lt {j w : Nat} (hjw : j < w) {t : Int} (h : InTimes (windowAt window w) t) :
    t < (windowAt window j).1 - millisecond + 1 := by
  obtain ⟨w, rfl⟩ := Nat.exists_eq_succ_of_ne_zero (Nat.ne_of_gt (Nat.zero_lt_of_lt hjw))
  have hprev := nonempty_of_succ (h.1.trans_lt h.2)
  have hle := from_le_from (Nat.lt_succ_iff.mp hjw) hprev
  have hlt := h.2
  rw [windowAt_succ] at hlt
  simp only [prevWindow] at hlt
  omega

/-- A time is in one window at most. -/
theorem InTimes.unique {j w : Nat} {t : Int} (hj : InTimes (windowAt window j) t)
    (hw : InTimes (windowAt window w) t) : j = w := by
  rcases Nat.lt_trichotomy j w with hlt | heq | hgt
  · have := lt_from_of_lt hlt hw
    have := hj.1
    simp only [millisecond] at *
    omega
  · exact heq
  · have := lt_from_of_lt hgt hj
    have := hw.1
    simp only [millisecond] at *
    omega

theorem InTimes.lt_to (hwindow : window.1 < window.2) {w : Nat} {t : Int}
    (h : InTimes (windowAt window w) t) : t < window.2 := by
  cases w with
  | zero => exact h.2
  | succ w =>
    have hlt := lt_from_of_lt (Nat.succ_pos w) h
    have hzero : windowAt window 0 = window := rfl
    rw [hzero, millisecond] at hlt
    omega

end Windows

/-! ## Pages as positions

A page is a window or an offset in one, so pages are numbered by these. The next page is the one
that the code asks for after it. -/

section Positions

variable {now : Int} {runs : List TestRun} {filter : TestRunFilter} {window : Int × Int}

/-- The runs of a window that match a product, newest first. -/
def windowRuns (runs : List TestRun) (labels : Option (Finset String)) (window : Int × Int)
    (w : Nat)
    (product : ProductSpec) : List TestRun :=
  newestFirst (runs.filter fun run => inQuery labels product run &&
    inWindow (some (windowAt window w).1) (some (windowAt window w).2) run)

/-- The number of runs that fill a page. -/
def TestRunFilter.pageSize (filter : TestRunFilter) : Nat :=
  (filter.maxCount.getD maxCountMaxValue).toNat

/-- The filter for a window and an offset. -/
def TestRunFilter.at (filter : TestRunFilter) (window : Int × Int) (pos : Nat × Nat) :
    TestRunFilter :=
  { filter with
    timeFrom := some (windowAt window pos.1).1
    timeTo := some (windowAt window pos.1).2
    offset := if pos.2 = 0 then none else some pos.2 }

theorem mem_windowRuns {labels : Option (Finset String)} {w : Nat} {product : ProductSpec}
    {run : TestRun} : run ∈ windowRuns runs labels window w product ↔
      run ∈ runs ∧ inQuery labels product run = true ∧
        InTimes (windowAt window w) run.timeStart := by
  rw [windowRuns, newestFirst, List.mem_insertionSort, List.mem_filter, Bool.and_eq_true, inWindow,
    Bool.and_eq_true, Option.all_some, Option.all_some, decide_eq_true_iff, decide_eq_true_iff]
  rfl

theorem length_windowRuns_le (labels : Option (Finset String)) (w : Nat) (product : ProductSpec) :
    (windowRuns runs labels window w product).length ≤ runs.length := by
  rw [windowRuns, newestFirst, List.length_insertionSort]
  exact List.length_filter_le _ _

/-- A page of less than 500 runs is not cut by the maximum. -/
theorem serverQuery_at (hruns : (runs.length : Int) < maxCountMaxValue) (pos : Nat × Nat)
    (product : ProductSpec) :
    serverQuery runs (filter.at window pos) product =
      ((windowRuns runs filter.labels window pos.1 product).drop pos.2).take filter.pageSize := by
  have hlength := @length_windowRuns_le runs window filter.labels pos.1 product
  have hoffset : ((filter.at window pos).offset.getD 0).toNat = pos.2 := by
    show ((if pos.2 = 0 then none else some (pos.2 : Int)).getD 0).toNat = pos.2
    split_ifs with hzero
    · rw [hzero]
      rfl
    · rfl
  show ((windowRuns runs filter.labels window pos.1 product).drop _).take (Int.toNat
    (match filter.maxCount with
      | some limit => if limit < maxCountMaxValue then limit else maxCountMaxValue
      | none => maxCountMaxValue)) = _
  rw [hoffset, TestRunFilter.pageSize]
  cases filter.maxCount with
  | none => rfl
  | some limit =>
    simp only [Option.getD_some]
    split_ifs with hlimit
    · rfl
    · -- the limit is the largest one, which the runs do not reach
      rw [List.take_of_length_le, List.take_of_length_le]
      · rw [List.length_drop]
        omega
      · rw [List.length_drop]
        omega

/-- Some product fills the page. -/
theorem anyMaxedOut_iff (hruns : (runs.length : Int) < maxCountMaxValue)
    (hcount : ∀ count, filter.maxCount = some count → 1 ≤ count) (pos : Nat × Nat) :
    ((filter.at window pos).maxCount.any fun count =>
      (loadPage runs (filter.at window pos)).any fun v => decide (count ≤ (v.length : Int))) =
        true ↔
      PageFull (windowRuns runs filter.labels window) filter.getProductsOrDefault filter.pageSize
        pos := by
  have hproducts : (filter.at window pos).getProductsOrDefault = filter.getProductsOrDefault := rfl
  have hmax : (filter.at window pos).maxCount = filter.maxCount := rfl
  rw [hmax, loadPage, hproducts, PageFull]
  cases hm : filter.maxCount with
  | none =>
    refine iff_of_false (by simp) ?_
    rintro ⟨product, -, hfull⟩
    have hlength := @length_windowRuns_le runs window filter.labels pos.1 product
    rw [TestRunFilter.pageSize, hm, List.length_drop] at hfull
    simp only [Option.getD_none] at hfull
    omega
  | some count =>
    have hpos := hcount count hm
    have hsize : filter.pageSize = count.toNat := by rw [TestRunFilter.pageSize, hm]; rfl
    simp only [Option.any_some, List.any_map, List.any_eq_true, Function.comp_apply,
      decide_eq_true_iff]
    refine exists_congr fun product => and_congr_right fun _ => ?_
    rw [serverQuery_at hruns, hsize, List.length_take]
    omega

/-- **The next page** of a filter for a position is the filter for the next position. -/
theorem nextPage_at (hruns : (runs.length : Int) < maxCountMaxValue)
    (hcount : ∀ count, filter.maxCount = some count → 1 ≤ count) (pos : Nat × Nat) :
    (filter.at window pos).nextPage now (loadPage runs (filter.at window pos)) =
      some (filter.at window (pageStep (windowRuns runs filter.labels window)
        filter.getProductsOrDefault filter.pageSize pos)) := by
  have hmaxed := @anyMaxedOut_iff runs filter window hruns hcount pos
  rw [TestRunFilter.nextPage]
  simp only
  by_cases hfull : PageFull (windowRuns runs filter.labels window) filter.getProductsOrDefault
      filter.pageSize pos
  · have hany := hmaxed.mpr hfull
    rw [if_pos hany, pageStep_of_full hfull]
    obtain ⟨count, hm, -⟩ := (Option.any_eq_true _ _).mp hany
    have hm : filter.maxCount = some count := hm
    have hpos := hcount count hm
    have hsize : filter.pageSize = count.toNat := by rw [TestRunFilter.pageSize, hm]; rfl
    -- an offset of zero is not written
    have hoffset : count + (if pos.2 = 0 then none else some (pos.2 : Int)).getD 0 =
        ((pos.2 + filter.pageSize : Nat) : Int) := by
      rw [hsize]
      split_ifs with hzero
      · simp only [Option.getD_none]
        omega
      · simp only [Option.getD_some]
        omega
    unfold TestRunFilter.at
    simp only [hm, Option.getD_some]
    rw [hoffset, if_neg (by omega : ¬ pos.2 + filter.pageSize = 0)]
  · -- no product filled the page: on to the window before
    rw [if_neg (mt hmaxed.mp hfull), pageStep_of_not_full hfull]
    unfold TestRunFilter.at
    simp only [windowAt_succ, Option.map_some, Option.getD_some, Prod.mk.eta]

/-- **The filters of the pages**, by window and offset. -/
theorem pageFilter_eq (hfrom : filter.timeFrom = some window.1)
    (hto : filter.timeTo = some window.2)
    (hoffset : filter.offset = none) (hruns : (runs.length : Int) < maxCountMaxValue)
    (hcount : ∀ count, filter.maxCount = some count → 1 ≤ count) (k : Nat) :
    pageFilter now runs filter k = some (filter.at window
      (pagePos (windowRuns runs filter.labels window) filter.getProductsOrDefault filter.pageSize
        k)) := by
  induction k with
  | zero =>
    show some filter = some _
    obtain ⟨labels, timeFrom, timeTo, maxCount, offset, products⟩ := filter
    simp only at hfrom hto hoffset
    rw [hfrom, hto, hoffset]
    rfl
  | succ k ih =>
    rw [pageFilter, ih, Option.bind_some, nextPage_at hruns hcount, pagePos_succ]

theorem nodup_windowRuns (hnodup : runs.Nodup) (labels : Option (Finset String)) (w : Nat)
    (product : ProductSpec) : (windowRuns runs labels window w product).Nodup := by
  rw [windowRuns, newestFirst]
  exact (List.perm_insertionSort _ _).nodup_iff.mpr (hnodup.filter _)

/-- A run is returned on the pages that show its place in its window. -/
theorem returnedOn_iff (hfrom : filter.timeFrom = some window.1)
    (hto : filter.timeTo = some window.2) (hoffset : filter.offset = none)
    (hruns : (runs.length : Int) < maxCountMaxValue)
    (hcount : ∀ count, filter.maxCount = some count → 1 ≤ count) (hnodup : runs.Nodup)
    {product : ProductSpec} {w i : Nat} {run : TestRun}
    (hrun : (windowRuns runs filter.labels window w product)[i]? = some run) (k : Nat) :
    ReturnedOn now runs filter product run k ↔
      OnPage (windowRuns runs filter.labels window) filter.getProductsOrDefault filter.pageSize
        k w i := by
  rw [ReturnedOn, pageFilter_eq hfrom hto hoffset hruns hcount, OnPage]
  generalize pagePos (windowRuns runs filter.labels window) filter.getProductsOrDefault
    filter.pageSize k = pos
  simp only [Option.some.injEq, exists_eq_left']
  rw [serverQuery_at hruns, List.mem_iff_getElem?]
  have hmem := mem_windowRuns.mp (List.mem_of_getElem? hrun)
  constructor
  · rintro ⟨j, hj⟩
    rw [List.getElem?_take] at hj
    split_ifs at hj with hlt
    rw [List.getElem?_drop] at hj
    have hmem' := mem_windowRuns.mp (List.mem_of_getElem? hj)
    -- a run starts in one window only
    obtain rfl : pos.1 = w := hmem'.2.2.unique hmem.2.2
    have hi := (List.getElem?_inj (List.getElem?_eq_some_iff.mp hrun).1
      (nodup_windowRuns hnodup _ _ _)).mp (hrun.trans hj.symm)
    omega
  · rintro ⟨rfl, hle, hlt⟩
    refine ⟨i - pos.2, ?_⟩
    rw [List.getElem?_take, if_pos (by omega), List.getElem?_drop, Nat.add_sub_cancel' hle]
    exact hrun

end Positions

/-- What is returned is in a window. -/
theorem exists_inTimes_of_returnedOn {now : Int} {runs : List TestRun} {filter : TestRunFilter}
    {window : Int × Int} (hfrom : filter.timeFrom = some window.1)
    (hto : filter.timeTo = some window.2) (hoffset : filter.offset = none)
    (hruns : (runs.length : Int) < maxCountMaxValue)
    (hcount : ∀ count, filter.maxCount = some count → 1 ≤ count) {product : ProductSpec}
    {run : TestRun} {k : Nat} (h : ReturnedOn now runs filter product run k) :
    ∃ w, InTimes (windowAt window w) run.timeStart := by
  obtain ⟨f, hf, hmem⟩ := h
  rw [pageFilter_eq hfrom hto hoffset hruns hcount, Option.some_inj] at hf
  rw [← hf, serverQuery_at hruns] at hmem
  exact ⟨_, (mem_windowRuns.mp (List.mem_of_mem_drop (List.mem_of_mem_take hmem))).2.2⟩

/-! ## Every run once

A run is on the page of its window and place. The condition says when no page skips or repeats
one. -/

/-- The paging of a filter: every run before its upper bound that matches a product is
returned for it on exactly one page. -/
def ReturnedOnce (now : Int) (runs : List TestRun) (filter : TestRunFilter) (timeTo : Int) : Prop :=
  ∀ product ∈ filter.getProductsOrDefault, ∀ run ∈ runs,
    inQuery filter.labels product run = true → run.timeStart < timeTo →
      ∃! k, ReturnedOn now runs filter product run k

/-- No run is outside the windows, and none is in a window after one in which some
product has as many runs as fill a page. -/
structure PagesCover (runs : List TestRun) (filter : TestRunFilter) (window : Int × Int) :
    Prop where
  windows : ∀ product ∈ filter.getProductsOrDefault, ∀ run ∈ runs,
    inQuery filter.labels product run = true → run.timeStart < window.2 →
      ∃ w, InTimes (windowAt window w) run.timeStart
  offsets : ∀ count, filter.maxCount = some count → ∀ w w', w < w' →
    (∃ product ∈ filter.getProductsOrDefault,
      count ≤ ((windowRuns runs filter.labels window w product).length : Int)) →
    ∀ product ∈ filter.getProductsOrDefault, ∀ run ∈ runs,
      inQuery filter.labels product run = true → ¬ InTimes (windowAt window w') run.timeStart

section Once

variable {runs : List TestRun} {filter : TestRunFilter} {window : Int × Int}

/-- The condition on the offsets, in terms of pages. -/
theorem offsets_iff (hruns : (runs.length : Int) < maxCountMaxValue)
    (hcount : ∀ count, filter.maxCount = some count → 1 ≤ count) :
    (∀ w w', w < w' → (∃ product ∈ filter.getProductsOrDefault,
        filter.pageSize ≤ (windowRuns runs filter.labels window w product).length) →
      ∀ product ∈ filter.getProductsOrDefault,
        windowRuns runs filter.labels window w' product = []) ↔
    ∀ count, filter.maxCount = some count → ∀ w w', w < w' →
      (∃ product ∈ filter.getProductsOrDefault,
        count ≤ ((windowRuns runs filter.labels window w product).length : Int)) →
      ∀ product ∈ filter.getProductsOrDefault, ∀ run ∈ runs,
        inQuery filter.labels product run = true →
          ¬ InTimes (windowAt window w') run.timeStart := by
  have hempty : ∀ w' product, windowRuns runs filter.labels window w' product = [] ↔
      ∀ run ∈ runs, inQuery filter.labels product run = true →
        ¬ InTimes (windowAt window w') run.timeStart := by
    intro w' product
    rw [List.eq_nil_iff_forall_not_mem]
    refine forall_congr' fun run => ?_
    rw [mem_windowRuns, not_and, not_and]
  simp only [hempty]
  constructor
  · intro h count hm w w' hw hfull
    have hpos := hcount count hm
    refine h w w' hw ?_
    obtain ⟨product, hproduct, hle⟩ := hfull
    refine ⟨product, hproduct, ?_⟩
    rw [TestRunFilter.pageSize, hm, Option.getD_some]
    omega
  · rintro h w w' hw ⟨product, hproduct, hle⟩
    cases hm : filter.maxCount with
    | none =>
      -- less than 500 runs never fill a page
      have hlength := @length_windowRuns_le runs window filter.labels w product
      rw [TestRunFilter.pageSize, hm, Option.getD_none] at hle
      omega
    | some count =>
      refine h count hm w w' hw ⟨product, hproduct, ?_⟩
      rw [TestRunFilter.pageSize, hm, Option.getD_some] at hle
      omega

end Once

/-- **Paging.** For less than 500 runs, a filter with `from` before `to`, no offset and a
maximum that is unset or positive: every run is returned exactly once iff the windows
have all runs, and no run comes in a window after one that fills a page. The pages are those of
`serverQuery`, which knows the browser and the labels of a product; one with a revision or a version
is looked up in another way (`WptFyi.Shared.RunKeys`). -/
theorem returnedOnce_iff (now : Int) {runs : List TestRun} {filter : TestRunFilter}
    {window : Int × Int} (hfrom : filter.timeFrom = some window.1)
    (hto : filter.timeTo = some window.2) (hwindow : window.1 < window.2)
    (hoffset : filter.offset = none) (hcount : ∀ count, filter.maxCount = some count → 1 ≤ count)
    (hruns : (runs.length : Int) < 500) (hnodup : runs.Nodup) :
    ReturnedOnce now runs filter window.2 ↔ PagesCover runs filter window := by
  have hsize : 1 ≤ filter.pageSize := by
    rw [TestRunFilter.pageSize]
    cases hm : filter.maxCount with
    | none => decide
    | some count =>
      have hpos := hcount count hm
      rw [Option.getD_some]
      omega
  -- a page has the runs whose place in the window is on it
  have hpages : ∀ {product w i run},
      (windowRuns runs filter.labels window w product)[i]? = some run → ∀ k,
        (ReturnedOn now runs filter product run k ↔
          OnPage (windowRuns runs filter.labels window) filter.getProductsOrDefault filter.pageSize
            k w i) :=
    fun hrun => returnedOn_iff hfrom hto hoffset hruns hcount hnodup hrun
  have honce := @existsUnique_onPage_iff _ _ (windowRuns runs filter.labels window)
    filter.getProductsOrDefault filter.pageSize hsize
  constructor
  · intro h
    -- every run is in some window, and at one offset only
    refine ⟨?_, (offsets_iff hruns hcount).mp (honce.mp ?_)⟩
    · intro product hproduct run hrun hquery htime
      obtain ⟨k, hk, -⟩ := h product hproduct run hrun hquery htime
      exact exists_inTimes_of_returnedOn hfrom hto hoffset hruns hcount hk
    · intro w product hproduct i hi
      have hrun := List.getElem?_eq_getElem hi
      obtain ⟨hmem, hquery, htimes⟩ := mem_windowRuns.mp (List.mem_of_getElem? hrun)
      obtain ⟨k, hk, hunique⟩ := h product hproduct _ hmem hquery (htimes.lt_to hwindow)
      exact ⟨k, (hpages hrun k).mp hk, fun k' hk' => hunique k' ((hpages hrun k').mpr hk')⟩
  · rintro ⟨hwindows, hoffsets⟩ product hproduct run hrun hquery htime
    obtain ⟨w, htimes⟩ := hwindows product hproduct run hrun hquery htime
    have hmem : run ∈ windowRuns runs filter.labels window w product :=
      mem_windowRuns.mpr ⟨hrun, hquery, htimes⟩
    obtain ⟨i, hi⟩ := List.mem_iff_getElem?.mp hmem
    obtain ⟨k, hk, hunique⟩ := honce.mpr ((offsets_iff hruns hcount).mpr hoffsets) w product
      hproduct
      i (List.getElem?_eq_some_iff.mp hi).1
    exact ⟨k, (hpages hi k).mpr hk, fun k' hk' => hunique k' ((hpages hi k').mp hk')⟩

/-- Two runs of one window, one on a page: the offset leads from one to the other. -/
theorem returnedOnce_twoRuns :
    ReturnedOnce 0
      [{ id := 1, browserName := "chrome", timeStart := 2500000000 },
        { id := 2, browserName := "chrome", timeStart := 2700000000 }]
      { timeFrom := some 2000000000, timeTo := some 3000000000, maxCount := some 1 }
      3000000000 := by
  refine (@returnedOnce_iff 0 _ _ (2000000000, 3000000000) rfl rfl (by decide) rfl
    (fun count h => by cases h; decide) (by decide) (by decide)).mpr ⟨?_, ?_⟩
  · intro product _ run hrun _ _
    refine ⟨0, ?_⟩
    rcases List.mem_pair.mp hrun with rfl | rfl
    · exact ⟨by decide, by decide⟩
    · exact ⟨by decide, by decide⟩
  · -- a later window ends before the first one begins
    intro count _ w w' hw _ product _ run hrun _ htimes
    have hbefore := lt_from_of_lt (Nat.zero_lt_of_lt hw) htimes
    rcases List.mem_pair.mp hrun with rfl | rfl
    · exact absurd hbefore (by decide)
    · exact absurd hbefore (by decide)

/-- The last millisecond before a window is in no window. -/
theorem not_returnedOnce_border : ¬ ∀ (now : Int) (runs : List TestRun) (filter : TestRunFilter)
    (window : Int × Int), filter.timeFrom = some window.1 → filter.timeTo = some window.2 →
    window.1 < window.2 → filter.offset = none →
    (∀ count, filter.maxCount = some count → 1 ≤ count) → (runs.length : Int) < 500 → runs.Nodup →
    (∀ run ∈ runs, millisecond ∣ run.timeStart) →
    ReturnedOnce now runs filter window.2 := by
  intro hall
  let run : TestRun := { id := 1, browserName := "chrome", timeStart := 1999000000 }
  let filter : TestRunFilter := { timeFrom := some 2000000000, timeTo := some 3000000000 }
  have honce := hall 0 [run] filter (2000000000, 3000000000) rfl rfl (by decide) rfl nofun
    (by decide) (List.nodup_singleton _)
    (fun run' hrun' => by rw [List.mem_singleton.mp hrun']; decide)
  obtain ⟨k, hk, -⟩ := honce { browserName := "chrome" } (by decide) run (List.mem_singleton_self _)
    (by decide) (by decide)
  obtain ⟨w, hw⟩ := @exists_inTimes_of_returnedOn 0 [run] filter
    (2000000000, 3000000000) rfl rfl rfl
    (by decide) nofun _ _ _ hk
  match w with
  | 0 => exact absurd hw.1 (by decide)
  | 1 => exact absurd hw.2 (by decide)
  | w + 2 => exact absurd (lt_from_of_lt (by omega : 1 < w + 2) hw) (by decide)

end WptFyi.Shared
