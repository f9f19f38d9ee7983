import WptFyi.Lib.GoStrings
import WptFyi.Lib.Slices

/-!
# Creating the runs of a Taskcluster build (`api/taskcluster/webhook.go`)

`CreateAllRuns` starts one goroutine per product. Every goroutine begins with
the *same* `labels` slice, and the ones for pull-request products edit it with
`append` on sub-slices, so they write into the backing array they share.

The heap is needed to say what happens and is in the way afterwards. One goroutine cuts out
`master`, if the shared slice shows it, which moves the rest of the labels down in place, and then
appends its suffix. Where there was a `master` the suffix lands in the cell that was freed, and
everybody sees it; otherwise the append moves to an array of its own, or to a cell behind the slice
that nobody reads. So what a goroutine does to the others is a function of what the shared slice
shows. The condition follows from that function by going through the goroutines in any order.

- `goroutine`: one goroutine as one atomic step on the heap of backing arrays;
- `createAllRuns`: all of them, in the order they happen to run;
- `labelsGiven`, `labelsAfter`: the same step on what the shared slice shows,
  without a heap; `runGoroutines_refines` connects the two for every order;
- `expectedLabels`: what a product's run should be labelled with;
- `MeetsExpectation`: when the labels passed in come through to every product.
-/

namespace WptFyi.Taskcluster

open Lib Lib.GoStrings

def masterLabel : String := "master"
def prBaseLabel : String := "pr_base"
def prHeadLabel : String := "pr_head"

/-- The artifact URLs of one product. -/
structure ArtifactURLs where
  results : List String
  screenshots : List String
deriving DecidableEq

/-- The arguments of one `CreateRun` call; there are never archive URLs. -/
structure CreateRunCall where
  sha : String
  username : String
  password : String
  resultURLs : List String
  screenshotURLs : List String
  labels : List String
deriving DecidableEq

/-- `MultiError`: the errors and what was going on. -/
structure MultiError where
  errors : List String
  when_ : String
deriving DecidableEq

/-- `NewMultiErrorFromChan`: nil when the channel was empty. -/
def newMultiErrorFromChan (errors : List String) (when_ : String) : Option MultiError :=
  if errors = [] then none else some ⟨errors, when_⟩

/-- A slice of labels that lies in a heap. -/
structure LabelsArg where
  heap : Heap String
  labels : Slice
  valid : labels.Valid heap

/-- The labels passed in. -/
def LabelsArg.passed (arg : LabelsArg) : List String := arg.labels.read arg.heap

section Goroutine

variable (grow : Nat → Nat → Nat)

/-- The loop over `labelsForRun`: cut out the first `master`, in place. -/
def stripMaster (h : Heap String) (labels : Slice) : Heap String × Slice :=
  let i := (labels.read h).idxOf masterLabel
  if hi : i < labels.len then
    (labels.upTo i hi.le).append grow h ((labels.read h).drop (i + 1))
  else (h, labels)

/-- The labels one goroutine computes, and the heap it leaves behind. -/
def labelsForRun (labels : Slice) (h : Heap String) (product : String) : Heap String × Slice :=
  -- chrome-dev-pr_head => [chrome, dev, pr_head]
  let lastBit := lastPiece product '-'
  if lastBit = prBaseLabel ∨ lastBit = prHeadLabel then
    let (h, labels) := stripMaster grow h labels
    labels.append grow h [lastBit]
  else (h, labels)

/-- One goroutine up to its `CreateRun` call. -/
def goroutine (sha username password : String) (labels : Slice) (h : Heap String)
    (product : String) (urls : ArtifactURLs) : Heap String × CreateRunCall :=
  let (h, labels) := labelsForRun grow labels h product
  (h, { sha, username, password, resultURLs := urls.results, screenshotURLs := urls.screenshots,
        labels := labels.read h })

/-- The goroutines of the listed products, one after the other: the calls they
make, each with the product it is made for. -/
def runGoroutines (sha username password : String) (labels : Slice) :
    Heap String → List (String × ArtifactURLs) → List (String × CreateRunCall)
  | _, [] => []
  | h, (product, urls) :: rest =>
    let (h, call) := goroutine grow sha username password labels h product urls
    (product, call) :: runGoroutines sha username password labels h rest

/-- `CreateAllRuns`, its goroutines running in the order of `order`. `createRun`
is the upload client's answer to a call. -/
def createAllRuns (createRun : CreateRunCall → Option String) (sha username password : String)
    (order : List (String × ArtifactURLs)) (arg : LabelsArg) :
    List (String × CreateRunCall) × Option MultiError :=
  let calls := runGoroutines grow sha username password arg.labels arg.heap order
  (calls, newMultiErrorFromChan (calls.filterMap fun c => createRun c.2)
    "sending Taskcluster runs to results receiver")

end Goroutine

/-! ## What a run should be labelled with -/

/-- The pull-request suffix a product ends in. -/
def prSuffix (product : String) : Option String :=
  if hasSuffix product ("-" ++ prBaseLabel) then some prBaseLabel
  else if hasSuffix product ("-" ++ prHeadLabel) then some prHeadLabel
  else none

/-- A pull-request product's run gets the labels without `master` and its
suffix; any other run gets the labels passed in. -/
def expectedLabels (labels : List String) (product : String) : List String :=
  match prSuffix product with
  | some suffix => labels.filter (· ≠ masterLabel) ++ [suffix]
  | none => labels

/-! ## The step on what the shared slice shows -/

/-- The labels a goroutine hands over when the shared slice shows `labels`. -/
def labelsGiven (labels : List String) (product : String) : List String :=
  let lastBit := lastPiece product '-'
  if lastBit = prBaseLabel ∨ lastBit = prHeadLabel then labels.erase masterLabel ++ [lastBit]
  else labels

/-- What the shared slice shows afterwards: only a `master` that was cut out
leaves a trace, the suffix in the cell it freed. -/
def labelsAfter (labels : List String) (product : String) : List String :=
  if masterLabel ∈ labels then labelsGiven labels product else labels

/-- The labels handed over in a whole run of the goroutines. -/
def allLabelsGiven : List String → List String → List (String × List String)
  | _, [] => []
  | labels, product :: rest =>
    (product, labelsGiven labels product) :: allLabelsGiven (labelsAfter labels product) rest

section Refinement

variable (grow : Nat → Nat → Nat) {h : Heap String} {labels : Slice}

/-- Without `master` there is nothing to cut out. -/
theorem stripMaster_of_not_mem (hvalid : labels.Valid h) (hmaster : masterLabel ∉ labels.read h) :
    stripMaster grow h labels = (h, labels) := by
  have hlen := Slice.length_read hvalid
  have hidx : (labels.read h).idxOf masterLabel = (labels.read h).length :=
    List.idxOf_eq_length_iff.mpr hmaster
  rw [stripMaster, dif_neg (by omega)]

/-- Cutting out `master` moves the rest down in place and frees the last cell of
the shared slice. -/
theorem stripMaster_of_mem (hvalid : labels.Valid h) (hmaster : masterLabel ∈ labels.read h) :
    let out := stripMaster grow h labels
    out.2.Valid out.1 ∧ labels.Valid out.1 ∧
      (labels.array = out.2.array ∧ labels.off = out.2.off ∧ labels.cap = out.2.cap ∧
        labels.len = out.2.len + 1) ∧
      out.2.read out.1 = (labels.read h).erase masterLabel ∧
      (labels.read out.1).take out.2.len = (labels.read h).erase masterLabel := by
  have hlen := Slice.length_read hvalid
  have hcap := labels.len_le_cap
  have hidx : (labels.read h).idxOf masterLabel < labels.len :=
    hlen ▸ List.idxOf_lt_length_iff.mpr hmaster
  have herase : (labels.read h).take ((labels.read h).idxOf masterLabel) ++
      (labels.read h).drop ((labels.read h).idxOf masterLabel + 1) =
      (labels.read h).erase masterLabel := by
    rw [← List.eraseIdx_eq_take_drop_succ, List.erase_eq_eraseIdx_of_idxOf rfl]
  generalize hi : (labels.read h).idxOf masterLabel = i at hidx herase
  have hstrip : stripMaster grow h labels =
      (labels.upTo i hidx.le).append grow h ((labels.read h).drop (i + 1)) := by
    subst hi
    exact dif_pos hidx
  have hrest : ((labels.read h).drop (i + 1)).length = labels.len - (i + 1) := by
    rw [List.length_drop, hlen]
  -- the rest is moved down by `append`, which fits and so writes in place
  have hfits : (labels.upTo i hidx.le).len + ((labels.read h).drop (i + 1)).length ≤
      (labels.upTo i hidx.le).cap := by
    show i + _ ≤ labels.cap
    omega
  have hprefix := Slice.valid_upTo hvalid i hidx.le
  have hread := Slice.read_append grow hprefix ((labels.read h).drop (i + 1))
  -- the shared slice is longer, and sees what was written under it
  have halias := Slice.read_append_alias grow (s := labels.upTo i hidx.le) hvalid rfl rfl rfl
    hidx.le hfits
  have hvalid' := Slice.valid_append grow hprefix ((labels.read h).drop (i + 1))
  have hlabels' := Slice.valid_append_of_valid grow hprefix hvalid ((labels.read h).drop (i + 1))
  rw [Slice.read_upTo, herase] at hread
  rw [show (labels.upTo i hidx.le).len = i from rfl, herase] at halias
  rw [hstrip]
  refine ⟨hvalid', hlabels', ?_, hread, ?_⟩
  · rw [Slice.append_of_fits grow hfits]
    refine ⟨rfl, rfl, rfl, ?_⟩
    show labels.len = i + _ + 1
    omega
  · have hlen' := Slice.length_read hvalid'
    rw [hread] at hlen'
    rw [halias, ← hlen', List.take_take]
    have hle : ((labels.read h).erase masterLabel).length ≤ labels.len := by
      rw [List.length_erase_of_mem hmaster, hlen]
      omega
    rw [Nat.min_eq_left hle, List.take_left]

/-- **One goroutine**: the heap step hands over `labelsGiven` of what the shared
slice shows, and makes it show `labelsAfter`. -/
theorem labelsForRun_spec (hvalid : labels.Valid h) (product : String) :
    let out := labelsForRun grow labels h product
    out.2.read out.1 = labelsGiven (labels.read h) product ∧
      labels.Valid out.1 ∧ labels.read out.1 = labelsAfter (labels.read h) product := by
  have hlen := Slice.length_read hvalid
  unfold labelsForRun labelsAfter labelsGiven
  by_cases hbit : lastPiece product '-' = prBaseLabel ∨ lastPiece product '-' = prHeadLabel
  · simp only [if_pos hbit]
    by_cases hmaster : masterLabel ∈ labels.read h
    · rw [if_pos hmaster]
      obtain ⟨hvalid', hlabels', ⟨harray, hoff, hcap, hlast⟩, hread, hshared⟩ :=
        stripMaster_of_mem grow hvalid hmaster
      generalize stripMaster grow h labels = stripped at *
      obtain ⟨h', labels'⟩ := stripped
      dsimp only at hvalid' hlabels' harray hoff hcap hlast hread hshared
      refine ⟨?_, Slice.valid_append_of_valid grow hvalid' hlabels' _, ?_⟩
      · rw [Slice.read_append grow hvalid', hread]
      -- the cell that `master` left takes the suffix, without a new array
      · have hfits : labels'.len + [lastPiece product '-'].length ≤ labels'.cap := by
          have := labels.len_le_cap
          simp only [List.length_singleton]
          omega
        have hlen' := Slice.length_read hvalid'
        rw [hread] at hlen'
        rw [Slice.read_append_alias grow hlabels' harray hoff hcap (by omega) hfits, hshared,
          List.take_left']
        rw [List.length_append, List.length_singleton, hlen', hlast]
    · rw [if_neg hmaster, stripMaster_of_not_mem grow hvalid hmaster,
        List.erase_of_not_mem hmaster]
      exact ⟨Slice.read_append grow hvalid _, Slice.valid_append_of_valid grow hvalid hvalid _,
        Slice.read_append_self grow hvalid _⟩
  · simp only [if_neg hbit, ite_self]
    exact ⟨trivial, hvalid, trivial⟩

/-- **Every order**: the labels the goroutines hand over are those of the
heapless run. -/
theorem runGoroutines_refines (sha username password : String) (hvalid : labels.Valid h)
    (order : List (String × ArtifactURLs)) :
    (runGoroutines grow sha username password labels h order).map
        (fun c => (c.1, c.2.labels)) =
      allLabelsGiven (labels.read h) (order.map Prod.fst) := by
  induction order generalizing h with
  | nil => rfl
  | cons entry rest ih =>
    obtain ⟨product, urls⟩ := entry
    obtain ⟨hgiven, hvalid', hafter⟩ := labelsForRun_spec grow hvalid product
    simp only [runGoroutines, goroutine, List.map_cons, allLabelsGiven]
    rw [hgiven, ih hvalid', hafter]

end Refinement

/-! ## Which products get what they should -/

/-- The source's test on the last piece also takes a product that is nothing
but the suffix. -/
theorem lastPiece_eq_prBaseLabel_iff (product : String) :
    lastPiece product '-' = prBaseLabel ↔
      product = prBaseLabel ∨ hasSuffix product ("-" ++ prBaseLabel) = true :=
  lastPiece_eq_iff (by decide)

theorem lastPiece_eq_prHeadLabel_iff (product : String) :
    lastPiece product '-' = prHeadLabel ↔
      product = prHeadLabel ∨ hasSuffix product ("-" ++ prHeadLabel) = true :=
  lastPiece_eq_iff (by decide)

/-- A product that is nothing but a pull-request suffix. -/
def BareSuffix (product : String) : Prop := product = prBaseLabel ∨ product = prHeadLabel

instance (product : String) : Decidable (BareSuffix product) :=
  inferInstanceAs (Decidable (_ ∨ _))

theorem prSuffix_of_bareSuffix {product : String} (h : BareSuffix product) :
    prSuffix product = none := by
  rcases h with rfl | rfl <;> decide

/-- How the source sees a product: by its suffix, as a bare suffix, or as none
of the two. -/
theorem lastPiece_cases (product : String) :
    (∃ suffix, prSuffix product = some suffix ∧ lastPiece product '-' = suffix ∧
      (suffix = prBaseLabel ∨ suffix = prHeadLabel)) ∨
    (prSuffix product = none ∧ BareSuffix product ∧ lastPiece product '-' = product) ∨
    (prSuffix product = none ∧ ¬ BareSuffix product ∧
      ¬ (lastPiece product '-' = prBaseLabel ∨ lastPiece product '-' = prHeadLabel)) := by
  have hbase := lastPiece_eq_prBaseLabel_iff product
  have hhead := lastPiece_eq_prHeadLabel_iff product
  by_cases hb : hasSuffix product ("-" ++ prBaseLabel) = true
  · exact Or.inl ⟨prBaseLabel, if_pos hb, hbase.mpr (Or.inr hb), Or.inl rfl⟩
  · by_cases hh : hasSuffix product ("-" ++ prHeadLabel) = true
    · refine Or.inl ⟨prHeadLabel, ?_, hhead.mpr (Or.inr hh), Or.inr rfl⟩
      rw [prSuffix, if_neg hb, if_pos hh]
    · have hnone : prSuffix product = none := by rw [prSuffix, if_neg hb, if_neg hh]
      by_cases hbare : BareSuffix product
      · refine Or.inr (Or.inl ⟨hnone, hbare, ?_⟩)
        rcases hbare with heq | heq
        · exact (hbase.mpr (Or.inl heq)).trans heq.symm
        · exact (hhead.mpr (Or.inl heq)).trans heq.symm
      · refine Or.inr (Or.inr ⟨hnone, hbare, ?_⟩)
        rintro (h | h)
        · exact (hbase.mp h).elim (fun heq => hbare (Or.inl heq)) hb
        · exact (hhead.mp h).elim (fun heq => hbare (Or.inr heq)) hh

theorem masterLabel_ne_of_suffix {suffix : String}
    (h : suffix = prBaseLabel ∨ suffix = prHeadLabel) : suffix ≠ masterLabel := by
  rcases h with rfl | rfl <;> decide

/-- Cutting out one `master` removes them all exactly when there is at most one. -/
theorem erase_eq_filter_iff (labels : List String) :
    labels.erase masterLabel = labels.filter (· ≠ masterLabel) ↔
      labels.count masterLabel ≤ 1 := by
  constructor
  · intro heq
    have hnone : (labels.filter (· ≠ masterLabel)).count masterLabel = 0 :=
      List.count_eq_zero.mpr (by simp)
    have hcount := congrArg (List.count masterLabel) heq
    rw [List.count_erase_self, hnone] at hcount
    omega
  · intro hcount
    induction labels with
    | nil => rfl
    | cons label labels ih =>
      by_cases hlabel : label = masterLabel
      · subst hlabel
        rw [List.count_cons_self] at hcount
        have hmem : masterLabel ∉ labels := List.count_eq_zero.mp (by omega)
        rw [List.erase_cons_head, List.filter_cons_of_neg (by simp)]
        refine (List.filter_eq_self.mpr fun l hl => ?_).symm
        exact decide_eq_true (ne_of_mem_of_not_mem hl hmem)
      · rw [List.count_cons_of_ne hlabel] at hcount
        rw [List.erase_cons_tail (by simpa using hlabel), ih hcount,
          List.filter_cons_of_pos (by simpa using hlabel)]

/-- Labels with a suffix in place of a `master`, or after the end, are not the
labels passed in. -/
theorem erase_append_suffix_ne (labels : List String) {suffix : String}
    (hsuffix : suffix ≠ masterLabel) : labels.erase masterLabel ++ [suffix] ≠ labels := by
  intro heq
  by_cases hmaster : masterLabel ∈ labels
  · have hcount := congrArg (List.count masterLabel) heq
    have hpos := List.count_pos_iff.mpr hmaster
    rw [List.count_append, List.count_erase_self, List.count_singleton,
      if_neg (by simpa using hsuffix)] at hcount
    omega
  · have hlen := congrArg List.length heq
    rw [List.erase_of_not_mem hmaster, List.length_append, List.length_singleton] at hlen
    omega

/-- **One product, undisturbed**: it gets what it should unless it is a bare
suffix, or a pull-request product with several `master`s to lose. -/
theorem labelsGiven_eq_expected_iff (labels : List String) (product : String) :
    labelsGiven labels product = expectedLabels labels product ↔
      ¬ BareSuffix product ∧
        (prSuffix product = none ∨ labels.count masterLabel ≤ 1) := by
  rcases lastPiece_cases product with
    ⟨suffix, hpr, hlast, hsuffix⟩ | ⟨hpr, hbare, hlast⟩ | ⟨hpr, hbare, hlast⟩
  · have hnotBare : ¬ BareSuffix product := by
      intro hbare
      rw [prSuffix_of_bareSuffix hbare] at hpr
      exact Option.some_ne_none _ hpr.symm
    rw [labelsGiven, expectedLabels, hpr, hlast, if_pos hsuffix]
    show _ ++ [suffix] = _ ++ [suffix] ↔ _
    rw [List.append_left_inj, erase_eq_filter_iff]
    exact ⟨fun h => ⟨hnotBare, Or.inr h⟩, fun h => h.2.resolve_left (by simp)⟩
  · have hif : product = prBaseLabel ∨ product = prHeadLabel := hbare
    rw [labelsGiven, expectedLabels, hpr, hlast, if_pos hif]
    exact iff_of_false (erase_append_suffix_ne labels (masterLabel_ne_of_suffix hbare))
      fun h => h.1 hbare
  · rw [labelsGiven, expectedLabels, hpr, if_neg hlast]
    exact iff_of_true rfl ⟨hbare, Or.inl rfl⟩

/-- **One product, after the labels were disturbed**: once the `master` was cut
out for another product, no product gets what it should. -/
theorem labelsGiven_ne_expected (labels : List String) (hcount : labels.count masterLabel = 1)
    {suffix : String} (hsuffix : suffix ≠ masterLabel) (product : String) :
    labelsGiven (labels.erase masterLabel ++ [suffix]) product ≠
      expectedLabels labels product := by
  have hmaster : masterLabel ∈ labels := List.count_pos_iff.mp (by omega)
  have hgone : masterLabel ∉ labels.erase masterLabel ++ [suffix] := by
    rw [List.mem_append, List.mem_singleton, ← List.count_pos_iff, List.count_erase_self]
    rintro (hpos | heq)
    · omega
    · exact hsuffix heq.symm
  have hlen : (labels.erase masterLabel).length + 1 = labels.length := by
    have := List.length_pos_of_mem hmaster
    rw [List.length_erase_of_mem hmaster]
    omega
  have herase := (erase_eq_filter_iff labels).mpr hcount.le
  intro heq
  rw [labelsGiven, expectedLabels] at heq
  split at heq
  · -- a second suffix makes the list longer than any expected one
    have hlong := congrArg List.length heq
    rw [List.erase_of_not_mem hgone] at hlong
    split at hlong
    · rw [← herase] at hlong
      simp at hlong
    · simp at hlong
      omega
  · -- a product that is left alone misses its master
    rename_i hlast
    have hpr : prSuffix product = none := by
      rcases lastPiece_cases product with
        ⟨_, _, rfl, hsuffix⟩ | ⟨hpr, _⟩ | ⟨hpr, _⟩
      · exact absurd hsuffix hlast
      · exact hpr
      · exact hpr
    rw [hpr] at heq
    exact hgone (heq ▸ hmaster)

/-- When every product's run is labelled as it should be: no product is a bare
suffix, and either there is no `master` to cut out, or no pull-request product
to cut it out for, or a single `master` and a single pull-request product whose
goroutine runs last. -/
def MeetsExpectation (labels order : List String) : Prop :=
  (∀ product ∈ order, ¬ BareSuffix product) ∧
    (masterLabel ∉ labels ∨ (∀ product ∈ order, prSuffix product = none) ∨
      (labels.count masterLabel = 1 ∧ ∀ product ∈ order.dropLast, prSuffix product = none))

/-- After a disturbance only the end of the run is fine. -/
theorem allLabelsGiven_disturbed_iff (labels : List String)
    (hcount : labels.count masterLabel = 1) {suffix : String} (hsuffix : suffix ≠ masterLabel)
    (order : List String) :
    (∀ c ∈ allLabelsGiven (labels.erase masterLabel ++ [suffix]) order,
      c.2 = expectedLabels labels c.1) ↔ order = [] := by
  cases order with
  | nil => simp [allLabelsGiven]
  | cons product rest =>
    refine iff_of_false (fun h => ?_) (List.cons_ne_nil _ _)
    exact labelsGiven_ne_expected labels hcount hsuffix product (h _ List.mem_cons_self)

/-- The shared slice is left as it was by a product that has no suffix, and by
every product when there is no `master`. -/
theorem labelsAfter_eq_self {labels : List String} {product : String}
    (hbare : ¬ BareSuffix product) (h : masterLabel ∈ labels → prSuffix product = none) :
    labelsAfter labels product = labels := by
  by_cases hmaster : masterLabel ∈ labels
  · rw [labelsAfter, if_pos hmaster, (labelsGiven_eq_expected_iff labels product).mpr
      ⟨hbare, Or.inl (h hmaster)⟩, expectedLabels, h hmaster]
  · rw [labelsAfter, if_neg hmaster]

/-- **The heapless run** meets the expectation exactly then. -/
theorem allLabelsGiven_eq_expected_iff (labels order : List String) :
    (∀ c ∈ allLabelsGiven labels order, c.2 = expectedLabels labels c.1) ↔
      MeetsExpectation labels order := by
  induction order with
  | nil => simp [allLabelsGiven, MeetsExpectation]
  | cons product rest ih =>
    rw [allLabelsGiven, List.forall_mem_cons, labelsGiven_eq_expected_iff]
    by_cases hbare : BareSuffix product
    · exact iff_of_false (fun h => h.1.1 hbare) fun h => h.1 product List.mem_cons_self hbare
    -- whether this product takes `master` out for all that come later
    by_cases hdisturbs : masterLabel ∈ labels ∧ prSuffix product ≠ none
    · obtain ⟨hmaster, hpr⟩ := hdisturbs
      obtain ⟨suffix, hsome, hlast, hsuffix⟩ | ⟨hnone, _⟩ | ⟨hnone, _⟩ := lastPiece_cases product
      · have hafter : labelsAfter labels product = labels.erase masterLabel ++ [suffix] := by
          rw [labelsAfter, if_pos hmaster, labelsGiven, hlast, if_pos hsuffix]
        have hpos := List.count_pos_iff.mpr hmaster
        rw [hafter]
        constructor
        · rintro ⟨⟨-, hcount⟩, hrest⟩
          -- it must be the only `master`, for the next products see none
          have hone : labels.count masterLabel = 1 := by
            have := hcount.resolve_left hpr
            omega
          rw [allLabelsGiven_disturbed_iff labels hone (masterLabel_ne_of_suffix hsuffix)] at hrest
          subst hrest
          exact ⟨by simpa using hbare, Or.inr (Or.inr ⟨hone, by simp⟩)⟩
        · rintro ⟨-, hfine⟩
          obtain ⟨hone, hothers⟩ := (hfine.resolve_left (not_not.mpr hmaster)).resolve_left
            fun h => hpr (h product List.mem_cons_self)
          refine ⟨⟨hbare, Or.inr hone.le⟩, ?_⟩
          rw [allLabelsGiven_disturbed_iff labels hone (masterLabel_ne_of_suffix hsuffix)]
          by_contra hrest
          rw [List.dropLast_cons_of_ne_nil hrest] at hothers
          exact hpr (hothers product List.mem_cons_self)
      · exact absurd hnone hpr
      · exact absurd hnone hpr
    · have hself : masterLabel ∈ labels → prSuffix product = none := fun hmaster =>
        by_contra fun hpr => hdisturbs ⟨hmaster, hpr⟩
      rw [labelsAfter_eq_self hbare hself, ih]
      unfold MeetsExpectation
      rw [List.forall_mem_cons, List.forall_mem_cons]
      by_cases hmaster : masterLabel ∈ labels
      · have hpr := hself hmaster
        have hothers : (∀ p ∈ (product :: rest).dropLast, prSuffix p = none) ↔
            ∀ p ∈ rest.dropLast, prSuffix p = none := by
          cases rest with
          | nil => simp
          | cons p rest => simp [hpr]
        rw [hothers]
        simp [hmaster, hbare, hpr]
      · have hcount : labels.count masterLabel ≤ 1 := by
          rw [List.count_eq_zero.mpr hmaster]
          exact Nat.zero_le 1
        simp [hmaster, hbare, hcount]

/-- **Which labels `CreateRun` gets**: for every shared slice and every order of
the goroutines, each product's run is labelled as it should be exactly when
`MeetsExpectation` holds of the labels passed in and that order. -/
theorem createAllRuns_labels_eq_expected_iff (grow : Nat → Nat → Nat)
    (createRun : CreateRunCall → Option String) (sha username password : String)
    (order : List (String × ArtifactURLs)) (arg : LabelsArg) :
    (∀ c ∈ (createAllRuns grow createRun sha username password order arg).1,
      c.2.labels = expectedLabels arg.passed c.1) ↔
      MeetsExpectation arg.passed (order.map Prod.fst) := by
  rw [← allLabelsGiven_eq_expected_iff, LabelsArg.passed,
    ← runGoroutines_refines grow sha username password arg.valid order, List.forall_mem_map]
  rfl

/-- The labels of the webhook handler for a push to master by one sender. -/
def masterPush : LabelsArg where
  heap := [["master", "user:person"]]
  labels := { array := 0, off := 0, len := 2, cap := 2, len_le_cap := le_rfl }
  valid := by decide

/-- Two pull-request products of one build: the second run is labelled with the
suffix of the first one too. -/
theorem createAllRuns_pr_suffix_leaks :
    ¬ ∀ c ∈ (createAllRuns (fun cap _ => 2 * cap) (fun _ => none) "abcdef" "user" "pass"
        [("chrome-dev-pr_head", ⟨["1"], []⟩), ("chrome-dev-pr_base", ⟨["1"], []⟩)]
        masterPush).1,
      c.2.labels = expectedLabels masterPush.passed c.1 := by
  decide

end WptFyi.Taskcluster
