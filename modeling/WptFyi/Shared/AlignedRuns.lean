import WptFyi.Lib.GoMap
import WptFyi.Shared.Models

/-!
# Aligned runs (`shared/test_run_query.go`)

A revision is aligned when each of several products has a run of it.
`GetAlignedRunSHAs` reads the runs once, newest first, and credits each to the
first product that it matches.

One run is credited to one product, also if two products match it, and the first run that is
credited stays. `Collected` is the invariant of the loop: for each revision and product it has the
first run read so far that is credited to it, and the revisions listed are those with no product
missing. An early return keeps it for the runs that were read.

What the function is for is said by `IsAlignment` in terms of the stored runs, where a product
should have its newest run at the revision. The two differ exactly where the newest run of a
product was credited to an earlier one, or the default limit cuts off a revision.

- `Collected`: what has been collected after some of the runs were read;
- `collected_creditRun`, `collected_alignRuns`: one run, and all of them;
- `isAlignment_iff`: exactly when the revisions and keys returned are the right ones.
-/

namespace WptFyi.Shared

open Lib

/-! ## The loop over the runs

The loop goes over the runs of all products, newest first, and notes for each revision which
products have a run. The revision is done when all of them have. -/

/-- The keys of the runs of a product. -/
structure ProductTestRunKeys where
  product : ProductSpec
  keys : List Int

abbrev KeysByProduct := List ProductTestRunKeys

/-- The elements of a new `KeysByProduct`. -/
def ProductTestRunKeys.zero : ProductTestRunKeys := ⟨{ browserName := "" }, []⟩

def maxCountMaxValue : Int := 500

structure AlignState where
  shas : List String := []
  productsBySHA : GoMap String (Finset Nat) := ∅
  keyCollector : GoMap String KeysByProduct := ∅
  keys : GoMap String KeysByProduct := ∅
  done : Finset String := ∅

/-- The index of the first product that matches. -/
def matchingProduct (products : List ProductSpec) (run : TestRun) : Option Nat :=
  products.findIdx? (·.matchesRun run)

namespace AlignState

/-- The products of a revision that have a run. -/
def set (s : AlignState) (sha : String) : Finset Nat := (s.productsBySHA.lookup sha).getD ∅

/-- The keys of a revision, one product after the other. -/
def collected (products : List ProductSpec) (s : AlignState) (sha : String) : KeysByProduct :=
  (s.keyCollector.lookup sha).getD (List.replicate products.length .zero)

/-- A product of the run's revision gets the run. -/
def credit (products : List ProductSpec) (s : AlignState) (run : TestRun) (i : Nat) : AlignState :=
  { s with
    productsBySHA := s.productsBySHA.insert run.revision (insert i (s.set run.revision)),
    keyCollector := s.keyCollector.insert run.revision
      ((s.collected products run.revision).modify i
        fun productKeys => { productKeys with keys := [run.id] }) }

section Credit

variable (products : List ProductSpec) (s : AlignState) (run : TestRun) (i : Nat) (sha : String)

@[simp] theorem shas_credit : (s.credit products run i).shas = s.shas := rfl

@[simp] theorem done_credit : (s.credit products run i).done = s.done := rfl

@[simp] theorem keys_credit : (s.credit products run i).keys = s.keys := rfl

theorem set_credit : (s.credit products run i).set sha =
    if sha = run.revision then insert i (s.set sha) else s.set sha := by
  unfold set credit
  simp only [GoMap.lookup_insert_eq_ite]
  split_ifs with hsha
  · rw [hsha]
    rfl
  · rfl

theorem collected_credit : (s.credit products run i).collected products sha =
    if sha = run.revision then
      (s.collected products sha).modify i fun productKeys => { productKeys with keys := [run.id] }
    else s.collected products sha := by
  unfold collected credit
  simp only [GoMap.lookup_insert_eq_ite]
  split_ifs with hsha
  · rw [hsha]
    rfl
  · rfl

end Credit

end AlignState

/-- One run that matches a product; the flag says to return. -/
def creditRun (products : List ProductSpec) (limit : Int) (offset : Option Int) (s : AlignState)
    (run : TestRun) (matchingProduct : Nat) : AlignState × Bool :=
  let sha := run.revision
  if matchingProduct ∈ s.set sha then (s, false)
  else
    let s := s.credit products run matchingProduct
    if (s.set sha).card = products.length ∧ sha ∉ s.done then
      let shas := if offset.all (· ≤ (s.done.card : Int)) then s.shas ++ [sha] else s.shas
      -- the keys of a revision that is done are not written any more
      ({ s with
          shas, done := insert sha s.done, keys := s.keys.insert sha (s.collected products sha) },
        decide (limit ≤ shas.length))
    else (s, false)

/-- The loop over the runs of the query. -/
def alignRuns (products : List ProductSpec) (limit : Int) (offset : Option Int) :
    AlignState → List TestRun → AlignState
  | s, [] => s
  | s, run :: runs =>
    match matchingProduct products run with
    | none => alignRuns products limit offset s runs
    | some i =>
      match creditRun products limit offset s run i with
      | (s, true) => s
      | (s, false) => alignRuns products limit offset s runs

/-- `GetAlignedRunSHAs`, on the runs that the query for labels and times returns. -/
def getAlignedRunSHAs (products : List ProductSpec) (limit offset : Option Int)
    (runs : List TestRun) : List String × GoMap String KeysByProduct :=
  let s := alignRuns products (limit.getD maxCountMaxValue) offset {} runs
  (s.shas, s.keys)

/-! ## What has been collected

Of each revision and product the first run that the loop meets is kept. A revision is listed when
the last of its products is met. -/

section Collected

variable {products : List ProductSpec}

/-- The first of the runs that is credited to a product of a revision. -/
def firstCredited (products : List ProductSpec) (seen : List TestRun) (sha : String) (i : Nat) :
    Option TestRun :=
  seen.find? fun run => run.revision == sha && matchingProduct products run == some i

/-- The state after some of the runs: for each revision and product the first run
credited to it, and the revisions for which no product is missing. -/
structure Collected (products : List ProductSpec) (seen : List TestRun) (s : AlignState) :
    Prop where
  set : ∀ sha i, i ∈ s.set sha ↔ (firstCredited products seen sha i).isSome
  length : ∀ sha, (s.collected products sha).length = products.length
  collected : ∀ sha i, ((s.collected products sha).map ProductTestRunKeys.keys)[i]?.getD [] =
    ((firstCredited products seen sha i).map TestRun.id).toList
  done : ∀ sha, sha ∈ s.done ↔ ∀ i < products.length, (firstCredited products seen sha i).isSome
  shas : s.shas.Nodup ∧ s.shas.toFinset = s.done
  keys : ∀ sha ∈ s.done, s.keys.lookup sha = some (s.collected products sha)

theorem firstCredited_snoc (seen : List TestRun) (run : TestRun) (sha : String) (i : Nat) :
    firstCredited products (seen ++ [run]) sha i = (firstCredited products seen sha i).or
      (if run.revision = sha ∧ matchingProduct products run = some i then some run else none) := by
  rw [firstCredited, List.find?_append, ← firstCredited]
  congr 1
  by_cases hcredited : run.revision = sha ∧ matchingProduct products run = some i
  · rw [if_pos hcredited]
    simp [hcredited]
  · rw [if_neg hcredited]
    simpa using hcredited

theorem lt_of_matchingProduct {run : TestRun} {i : Nat}
    (h : matchingProduct products run = some i) :
    i < products.length :=
  (List.findIdx?_eq_some_iff_getElem.mp h).1

theorem lt_of_firstCredited {seen : List TestRun} {sha : String} {i : Nat}
    (h : (firstCredited products seen sha i).isSome) : i < products.length := by
  obtain ⟨run, hrun⟩ := Option.isSome_iff_exists.mp h
  have hcredited := List.find?_some hrun
  simp only [Bool.and_eq_true, beq_iff_eq] at hcredited
  exact lt_of_matchingProduct hcredited.2

/-- Nothing is collected before any run was read. -/
theorem collected_nil (hne : products ≠ []) : Collected products [] {} := by
  have hlength : 0 < products.length := List.length_pos_iff.mpr hne
  refine ⟨fun sha i => ?_, fun sha => ?_, fun sha i => ?_, fun sha => ?_, ⟨List.nodup_nil, rfl⟩, ?_⟩
  · simp [AlignState.set, firstCredited]
  · simp [AlignState.collected]
  · simp only [AlignState.collected, firstCredited, Finmap.lookup_empty, Option.getD_none,
      List.map_replicate, List.find?_nil, Option.map_none, Option.toList_none]
    rw [List.getElem?_replicate]
    split_ifs <;> rfl
  · refine iff_of_false (Finset.notMem_empty sha) fun hall => ?_
    exact absurd (hall 0 hlength) (by simp [firstCredited])
  · intro sha hsha
    exact absurd hsha (Finset.notMem_empty sha)

/-- Runs that are credited to nothing new leave the state as it is. -/
theorem Collected.congr {seen seen' : List TestRun} {s : AlignState} (h : Collected products seen s)
    (hsame : ∀ sha i, firstCredited products seen' sha i = firstCredited products seen sha i) :
    Collected products seen' s := by
  refine ⟨fun sha i => ?_, h.length, fun sha i => ?_, fun sha => ?_, h.shas, h.keys⟩
  · rw [hsame, h.set]
  · rw [hsame, h.collected]
  · simp only [hsame, h.done]

/-- A revision is done when as many products as there are have a run. -/
theorem card_eq_length_iff {seen : List TestRun} {sha : String} {set : Finset Nat}
    (hset : ∀ i, i ∈ set ↔ (firstCredited products seen sha i).isSome) :
    set.card = products.length ↔
      ∀ i < products.length, (firstCredited products seen sha i).isSome := by
  have hsub : set ⊆ Finset.range products.length := fun i hi =>
    Finset.mem_range.mpr (lt_of_firstCredited ((hset i).mp hi))
  constructor
  · intro hcard i hi
    have hall : set = Finset.range products.length :=
      Finset.eq_of_subset_of_card_le hsub (by rw [hcard, Finset.card_range])
    rw [← hset, hall]
    exact Finset.mem_range.mpr hi
  · intro hall
    have heq : set = Finset.range products.length :=
      hsub.antisymm fun i hi => (hset i).mpr (hall i (Finset.mem_range.mp hi))
    rw [heq, Finset.card_range]

/-- **One run**: what is collected stays right, and the loop returns when it has
listed as many revisions as it may. -/
theorem collected_creditRun {seen : List TestRun} {s : AlignState} {run : TestRun} {i : Nat}
    {limit : Int} (h : Collected products seen s) (hi : matchingProduct products run = some i)
    (hlimit : s.shas.length < limit) :
    let result := creditRun products limit none s run i
    Collected products (seen ++ [run]) result.1 ∧ result.1.shas.length ≤ limit ∧
      (result.2 = true ↔ limit ≤ result.1.shas.length) := by
  have hsnoc : ∀ sha j, firstCredited products (seen ++ [run]) sha j =
      (firstCredited products seen sha j).or
        (if sha = run.revision ∧ j = i then some run else none) := by
    intro sha j
    rw [firstCredited_snoc, hi]
    simp only [Option.some_inj, eq_comm]
  unfold creditRun
  simp only
  by_cases hmem : i ∈ s.set run.revision
  · -- the product has a newer run already
    rw [if_pos hmem]
    refine ⟨h.congr fun sha j => ?_, hlimit.le, by simpa using hlimit⟩
    rw [hsnoc]
    by_cases hcell : sha = run.revision ∧ j = i
    · obtain ⟨rfl, rfl⟩ := hcell
      obtain ⟨first, hfirst⟩ := Option.isSome_iff_exists.mp ((h.set _ _).mp hmem)
      rw [hfirst, Option.some_or]
    · rw [if_neg hcell, Option.or_none]
  · rw [if_neg hmem]
    have hnone : firstCredited products seen run.revision i = none := by
      rw [← Option.not_isSome_iff_eq_none, ← h.set]
      exact hmem
    have hcell : ∀ sha j, firstCredited products (seen ++ [run]) sha j =
        if sha = run.revision ∧ j = i then some run else firstCredited products seen sha j := by
      intro sha j
      rw [hsnoc]
      split_ifs with hcell
      · obtain ⟨rfl, rfl⟩ := hcell
        rw [hnone, Option.none_or]
      · rw [Option.or_none]
    have hdone : run.revision ∉ s.done := fun hdone => by
      have hsome := (h.done _).mp hdone i (lt_of_matchingProduct hi)
      rw [hnone] at hsome
      cases hsome
    have hset : ∀ sha j, j ∈ (s.credit products run i).set sha ↔
        (firstCredited products (seen ++ [run]) sha j).isSome := by
      intro sha j
      rw [AlignState.set_credit, hcell]
      by_cases hsha : sha = run.revision
      · rw [if_pos hsha, Finset.mem_insert, h.set]
        by_cases hj : j = i
        · simp [hsha, hj]
        · simp [hj]
      · rw [if_neg hsha, if_neg fun hcell => hsha hcell.1, h.set]
    have hlength : ∀ sha, ((s.credit products run i).collected products sha).length =
        products.length := by
      intro sha
      rw [AlignState.collected_credit]
      split_ifs
      · rw [List.length_modify, h.length]
      · exact h.length sha
    have hcollected : ∀ sha j, (((s.credit products run i).collected products sha).map
        ProductTestRunKeys.keys)[j]?.getD [] =
          ((firstCredited products (seen ++ [run]) sha j).map TestRun.id).toList := by
      intro sha j
      rw [AlignState.collected_credit, hcell]
      by_cases hsha : sha = run.revision
      · rw [if_pos hsha]
        by_cases hj : j = i
        · have hlt : i < (s.collected products sha).length := by
            rw [h.length]
            exact lt_of_matchingProduct hi
          subst hj
          simp [hsha, List.getElem?_eq_getElem (hsha ▸ hlt)]
        · rw [if_neg fun hcell => hj hcell.2, ← h.collected]
          simp [Ne.symm hj]
      · rw [if_neg hsha, if_neg fun hcell => hsha hcell.1, h.collected]
    have hkeys : ∀ sha ∈ s.done, s.keys.lookup sha =
        some ((s.credit products run i).collected products sha) := by
      intro sha hsha
      rw [AlignState.collected_credit, if_neg (by rintro rfl; exact hdone hsha), h.keys sha hsha]
    by_cases hcard : ((s.credit products run i).set run.revision).card = products.length
    · -- no product is missing any more
      have hall := (card_eq_length_iff (hset run.revision)).mp hcard
      rw [if_pos ⟨hcard, hdone⟩]
      have hshas : run.revision ∉ s.shas := by
        rw [← List.mem_toFinset, h.shas.2]
        exact hdone
      simp only [Option.all_none, if_true, List.length_append, List.length_singleton,
        decide_eq_true_eq, iff_self, and_true, AlignState.shas_credit, AlignState.done_credit,
        AlignState.keys_credit]
      refine ⟨⟨hset, hlength, hcollected, fun sha => ?_, ⟨?_, ?_⟩, fun sha hsha => ?_⟩, by omega⟩
      · simp only [Finset.mem_insert]
        by_cases hsha : sha = run.revision
        · exact iff_of_true (Or.inl hsha) (hsha ▸ hall)
        · simp only [hcell, hsha, false_and, false_or, if_false]
          exact h.done sha
      · exact List.nodup_append.mpr ⟨h.shas.1, List.nodup_singleton _, by
          rintro a ha _ hb rfl
          exact hshas (List.mem_singleton.mp hb ▸ ha)⟩
      · show (s.shas ++ [run.revision]).toFinset = insert run.revision s.done
        rw [List.toFinset_append, h.shas.2]
        ext sha
        simp
      · simp only [GoMap.lookup_insert_eq_ite]
        split_ifs with hsha'
        · rw [hsha']
          rfl
        · exact hkeys sha ((Finset.mem_insert.mp hsha).resolve_left hsha')
    · rw [if_neg fun hdone => hcard hdone.1]
      refine ⟨⟨hset, hlength, hcollected, fun sha => ?_, h.shas, hkeys⟩, hlimit.le, by
        simpa [AlignState.credit] using hlimit⟩
      by_cases hsha : sha = run.revision
      · refine iff_of_false (hsha ▸ hdone) fun hall => hcard ?_
        exact (card_eq_length_iff (hset run.revision)).mpr (hsha ▸ hall)
      · simp only [hcell, hsha, false_and, if_false]
        exact h.done sha

/-- **All runs**: the loop has read them all, or as many as fill the list. -/
theorem collected_alignRuns (limit : Int) (runs : List TestRun) {seen : List TestRun}
    {s : AlignState}
    (h : Collected products seen s) (hlimit : s.shas.length < limit) :
    ∃ read, read <+: runs ∧
      Collected products (seen ++ read) (alignRuns products limit none s runs) ∧
      ((alignRuns products limit none s runs).shas.length : Int) ≤ limit ∧
      (read = runs ∨ limit ≤ (alignRuns products limit none s runs).shas.length) := by
  induction runs generalizing seen s with
  | nil => exact ⟨[], List.prefix_refl _, by rwa [List.append_nil], hlimit.le, Or.inl rfl⟩
  | cons run runs ih =>
    -- the loop goes on with the next runs
    have hread : ∀ {s' : AlignState}, Collected products (seen ++ [run]) s' →
        (s'.shas.length : Int) < limit →
        ∃ read, read <+: run :: runs ∧
          Collected products (seen ++ read) (alignRuns products limit none s' runs) ∧
          ((alignRuns products limit none s' runs).shas.length : Int) ≤ limit ∧
          (read = run :: runs ∨ limit ≤ (alignRuns products limit none s' runs).shas.length) := by
      intro s' hs' hlimit'
      obtain ⟨read, hprefix, hcollected, hle, hend⟩ := ih hs' hlimit'
      refine ⟨run :: read, List.cons_prefix_cons.mpr ⟨rfl, hprefix⟩, ?_, hle, ?_⟩
      · rwa [List.append_assoc, List.singleton_append] at hcollected
      · exact hend.imp_left fun heq => by rw [heq]
    unfold alignRuns
    cases hi : matchingProduct products run with
    | none =>
      -- a run of no product changes nothing
      refine hread (h.congr fun sha i => ?_) hlimit
      rw [firstCredited_snoc, hi, if_neg (by simp), Option.or_none]
    | some i =>
      obtain ⟨hcredit, hle, hstop⟩ := collected_creditRun h hi hlimit
      simp only
      rcases hresult : creditRun products limit none s run i with ⟨s', stop⟩
      rw [hresult] at hcredit hle hstop
      cases stop with
      | true =>
        exact ⟨[run], by simp, hcredit, hle, Or.inr (hstop.mp rfl)⟩
      | false =>
        refine hread hcredit (lt_of_not_ge fun hge => ?_)
        exact absurd (hstop.mpr hge) (by simp)

end Collected

/-! ## The right alignment

What aligned runs should be, said of the stored runs and not of the loop: the revisions at which
every product has a run, and the newest run of each product there. -/

/-- The stored runs; a key is of one run. -/
structure RunStore where
  runs : List TestRun
  nodup : (runs.map TestRun.id).Nodup

section Alignment

variable (store : RunStore) (labels : Option (Finset String)) (start stop : Option Int)

/-- The run carries the labels and started in the interval. -/
def Selected (run : TestRun) : Prop :=
  (∀ label ∈ labels.getD ∅, label ∈ run.labels) ∧ (∀ t ∈ start, t ≤ run.timeStart) ∧
    ∀ t ∈ stop, run.timeStart < t

instance : DecidablePred (Selected labels start stop) := fun run =>
  inferInstanceAs (Decidable ((∀ label ∈ labels.getD ∅, label ∈ run.labels) ∧
    (∀ t ∈ start, t ≤ run.timeStart) ∧ ∀ t ∈ stop, run.timeStart < t))

/-- What the datastore returns for the query: the selected runs, newest first, those
of one time in any order. -/
structure NewestFirst where
  runs : List TestRun
  perm : runs.Perm (store.runs.filter (Selected labels start stop))
  sorted : runs.Pairwise fun run run' => run'.timeStart ≤ run.timeStart

/-- A selected run of a revision that matches a product. -/
structure RunOf (p : ProductSpec) (sha : String) (run : TestRun) : Prop where
  mem : run ∈ store.runs
  selected : Selected labels start stop run
  revision : run.revision = sha
  matchesRun : p.matchesRun run = true

/-- None of them is newer. -/
def IsNewest (p : ProductSpec) (sha : String) (run : TestRun) : Prop :=
  RunOf store labels start stop p sha run ∧
    ∀ run', RunOf store labels start stop p sha run' → run'.timeStart ≤ run.timeStart

/-- Every product has a run of the revision. -/
def Aligned (products : List ProductSpec) (sha : String) : Prop :=
  ∀ p ∈ products, ∃ run, RunOf store labels start stop p sha run

/-- The aligned revisions are listed, each with the key of the newest run of each
product. -/
structure IsAlignment (products : List ProductSpec)
    (result : List String × GoMap String KeysByProduct) : Prop where
  listed : ∀ sha, sha ∈ result.1 ↔ Aligned store labels start stop products sha
  keys : ∀ sha ∈ result.1, ∀ (i : Nat) p, products[i]? = some p → ∃ run kbp,
    IsNewest store labels start stop p sha run ∧ result.2.lookup sha = some kbp ∧
      (kbp.map ProductTestRunKeys.keys)[i]? = some [run.id]

/-- For every aligned revision and product, a newest run that no earlier product
matches. -/
def NewestIsCredited (products : List ProductSpec) : Prop :=
  ∀ sha, Aligned store labels start stop products sha → ∀ (i : Nat) p, products[i]? = some p →
    ∃ run, IsNewest store labels start stop p sha run ∧
      ∀ j < i, ∀ q : ProductSpec, products[j]? = some q → q.matchesRun run = false

/-- No more aligned revisions than the default limit. -/
def FitsLimit (products : List ProductSpec) : Prop :=
  ∀ shas : List String, shas.Nodup → (∀ sha ∈ shas, Aligned store labels start stop products sha) →
    (shas.length : Int) ≤ maxCountMaxValue

variable {store : RunStore} {labels : Option (Finset String)} {start stop : Option Int}
  {products : List ProductSpec}

theorem NewestFirst.mem_runs (q : NewestFirst store labels start stop) {run : TestRun} :
    run ∈ q.runs ↔ run ∈ store.runs ∧ Selected labels start stop run := by
  rw [q.perm.mem_iff, List.mem_filter, decide_eq_true_iff]

/-- The loop over the products ends at the first that matches the run. -/
theorem matchingProduct_eq_some_iff {run : TestRun} {i : Nat} {p : ProductSpec}
    (hp : products[i]? = some p) : matchingProduct products run = some i ↔
      p.matchesRun run = true ∧
        ∀ j < i, ∀ q : ProductSpec, products[j]? = some q → q.matchesRun run = false := by
  obtain ⟨hi, rfl⟩ := List.getElem?_eq_some_iff.mp hp
  rw [matchingProduct, List.findIdx?_eq_some_iff_getElem]
  constructor
  · rintro ⟨_, hmatches, hearlier⟩
    refine ⟨hmatches, fun j hj q hq => ?_⟩
    obtain ⟨_, rfl⟩ := List.getElem?_eq_some_iff.mp hq
    exact Bool.not_eq_true _ ▸ hearlier j hj
  · rintro ⟨hmatches, hearlier⟩
    refine ⟨hi, hmatches, fun j hj => ?_⟩
    rw [hearlier j hj _ (List.getElem?_eq_getElem (hj.trans hi))]
    exact Bool.false_ne_true

/-- The first run credited to a product is a newest one of those credited to it. -/
theorem runOf_of_firstCredited (q : NewestFirst store labels start stop) {read : List TestRun}
    (hread : read <+: q.runs) {sha : String} {i : Nat} {p : ProductSpec} {run : TestRun}
    (hp : products[i]? = some p) (h : firstCredited products read sha i = some run) :
    RunOf store labels start stop p sha run ∧ matchingProduct products run = some i ∧
      ∀ run', RunOf store labels start stop p sha run' →
        matchingProduct products run' = some i → run'.timeStart ≤ run.timeStart := by
  obtain ⟨rest, hrest⟩ := hread
  have hfirst : firstCredited products q.runs sha i = some run := by
    rw [← hrest, firstCredited, List.find?_append, ← firstCredited, h, Option.some_or]
  obtain ⟨hcredited, before, after, hruns, hbefore⟩ := List.find?_eq_some_iff_append.mp hfirst
  simp only [Bool.and_eq_true, beq_iff_eq] at hcredited
  obtain ⟨hmem, hselected⟩ := q.mem_runs.mp (hruns ▸ by simp : run ∈ q.runs)
  refine ⟨⟨hmem, hselected, hcredited.1, ((matchingProduct_eq_some_iff hp).mp hcredited.2).1⟩,
    hcredited.2, fun run' hrun' hcredited' => ?_⟩
  have hmem' : run' ∈ before ++ run :: after := hruns ▸ q.mem_runs.mpr ⟨hrun'.mem, hrun'.selected⟩
  have hsorted := q.sorted
  rw [hruns] at hsorted
  rcases List.mem_append.mp hmem' with hin | hin
  · have hnot := hbefore run' hin
    simp [hrun'.revision, hcredited'] at hnot
  · rcases List.mem_cons.mp hin with rfl | hin
    · exact le_rfl
    · exact (List.pairwise_cons.mp (List.pairwise_append.mp hsorted).2.1).1 run' hin

theorem firstCredited_isSome (q : NewestFirst store labels start stop) {sha : String} {i : Nat}
    {p : ProductSpec} {run : TestRun} (hrun : RunOf store labels start stop p sha run)
    (hi : matchingProduct products run = some i) :
    (firstCredited products q.runs sha i).isSome := by
  refine List.find?_isSome.mpr ⟨run, q.mem_runs.mpr ⟨hrun.mem, hrun.selected⟩, ?_⟩
  simp [hrun.revision, hi]

/-- **Alignment**: revisions and keys are right exactly when the newest run of each
product is credited to it, and not to an earlier product that it matches too, and
the default limit cuts nothing off. -/
theorem isAlignment_iff (hne : products ≠ []) (q : NewestFirst store labels start stop) :
    IsAlignment store labels start stop products (getAlignedRunSHAs products none none q.runs) ↔
      NewestIsCredited store labels start stop products ∧
        FitsLimit store labels start stop products := by
  obtain ⟨read, hread, hcollected, hle, hend⟩ :=
    collected_alignRuns maxCountMaxValue q.runs (collected_nil hne) (by decide)
  rw [List.nil_append] at hcollected
  unfold getAlignedRunSHAs
  simp only [Option.getD_none]
  generalize alignRuns products maxCountMaxValue none {} q.runs = s at hcollected hle hend
  have hlisted : ∀ sha, sha ∈ s.shas ↔
      ∀ i < products.length, (firstCredited products read sha i).isSome := by
    intro sha
    rw [← List.mem_toFinset, hcollected.shas.2, hcollected.done]
  have hfirst : ∀ {sha p} {i : Nat}, sha ∈ s.shas → products[i]? = some p →
      ∃ run, firstCredited products read sha i = some run := by
    intro sha p i hsha hp
    exact Option.isSome_iff_exists.mp ((hlisted sha).mp hsha i (List.getElem?_eq_some_iff.mp hp).1)
  have haligned : ∀ sha ∈ s.shas, Aligned store labels start stop products sha := by
    intro sha hsha p hmem
    obtain ⟨i, hp⟩ := List.mem_iff_getElem?.mp hmem
    obtain ⟨run, hrun⟩ := hfirst hsha hp
    exact ⟨run, (runOf_of_firstCredited q hread hp hrun).1⟩
  have hkeys : ∀ {sha p run} {i : Nat}, sha ∈ s.shas → products[i]? = some p →
      firstCredited products read sha i = some run →
      s.keys.lookup sha = some (s.collected products sha) ∧
        ((s.collected products sha).map ProductTestRunKeys.keys)[i]? = some [run.id] := by
    intro sha p run i hsha hp hrun
    refine ⟨hcollected.keys sha (hcollected.shas.2 ▸ List.mem_toFinset.mpr hsha), ?_⟩
    have hcell := hcollected.collected sha i
    rw [hrun] at hcell
    cases hget : ((s.collected products sha).map ProductTestRunKeys.keys)[i]? with
    | none => rw [hget] at hcell; cases hcell
    | some keys => rw [hget] at hcell; exact congrArg some hcell
  constructor
  · intro h
    refine ⟨fun sha hsha i p hp => ?_, fun shas hnodup hshas => ?_⟩
    · have hmem := (h.listed sha).mpr hsha
      obtain ⟨run, kbp, hnewest, hlookup, hkey⟩ := h.keys sha hmem i p hp
      obtain ⟨first, hrun⟩ := hfirst hmem hp
      obtain ⟨hlookup', hkey'⟩ := hkeys hmem hp hrun
      obtain ⟨hof, hi, _⟩ := runOf_of_firstCredited q hread hp hrun
      rw [Option.some_inj.mp (hlookup'.symm.trans hlookup)] at hkey'
      have hid : first.id = run.id := by simpa using Option.some_inj.mp (hkey'.symm.trans hkey)
      have heq : first = run :=
        List.inj_on_of_nodup_map store.nodup hof.mem hnewest.1.mem hid
      exact ⟨run, hnewest, ((matchingProduct_eq_some_iff hp).mp (heq ▸ hi)).2⟩
    · have hsub : shas ⊆ s.shas := fun sha hsha => (h.listed sha).mpr (hshas sha hsha)
      have hlength := (hnodup.subperm hsub).length_le
      omega
  · rintro ⟨hnewest, hfits⟩
    refine ⟨fun sha => ⟨haligned sha, fun hsha => ?_⟩, fun sha hsha i p hp => ?_⟩
    · rcases hend with heq | hfull
      · rw [hlisted, heq]
        intro i hi
        have hp : products[i]? = some products[i] := List.getElem?_eq_getElem hi
        obtain ⟨run, hrun, hearlier⟩ := hnewest sha hsha i _ hp
        exact firstCredited_isSome q hrun.1
          ((matchingProduct_eq_some_iff hp).mpr ⟨hrun.1.matchesRun, hearlier⟩)
      · -- the list is full, and one more aligned revision would not fit
        by_contra hmissing
        have hmore := hfits (sha :: s.shas) (List.nodup_cons.mpr ⟨hmissing, hcollected.shas.1⟩)
          (List.forall_mem_cons.mpr ⟨hsha, haligned⟩)
        rw [List.length_cons] at hmore
        omega
    · obtain ⟨first, hfirst⟩ := hfirst hsha hp
      obtain ⟨hof, _, hle⟩ := runOf_of_firstCredited q hread hp hfirst
      obtain ⟨run, hrun, hearlier⟩ := hnewest sha (haligned sha hsha) i p hp
      have hi := (matchingProduct_eq_some_iff hp).mpr ⟨hrun.1.matchesRun, hearlier⟩
      obtain ⟨hlookup, hkey⟩ := hkeys hsha hp hfirst
      refine ⟨first, _, ⟨hof, fun run' hrun' => ?_⟩, hlookup, hkey⟩
      exact (hrun.2 run' hrun').trans (hle run hrun.1 hi)

end Alignment

/-- A stable Chrome and a Firefox run of one revision. -/
def exampleRuns : List TestRun :=
  [{ id := 1, browserName := "chrome", revision := "0123456789", timeStart := 2,
     labels := ["stable"] },
   { id := 2, browserName := "firefox", revision := "0123456789", timeStart := 1 }]

def exampleStore : RunStore := ⟨exampleRuns, by decide⟩

def exampleQuery : NewestFirst exampleStore none none none where
  runs := exampleRuns
  perm := by decide
  sorted := by decide

/-- Different browsers are aligned. -/
theorem isAlignment_browsers :
    IsAlignment exampleStore none none none
      [{ browserName := "chrome" }, { browserName := "firefox" }]
      (getAlignedRunSHAs [{ browserName := "chrome" }, { browserName := "firefox" }] none none
        exampleRuns) := by
  have hrevision : ∀ sha, Aligned exampleStore none none none
      [{ browserName := "chrome" }, { browserName := "firefox" }] sha → sha = "0123456789" := by
    intro sha hsha
    obtain ⟨run, hrun⟩ := hsha { browserName := "chrome" } (by simp)
    have hall : ∀ run ∈ exampleRuns, run.revision = "0123456789" := by decide
    rw [← hrun.revision, hall run hrun.mem]
  refine (isAlignment_iff (List.cons_ne_nil _ _) exampleQuery).mpr ⟨?_, ?_⟩
  · intro sha hsha i p hp
    have hnewest : ∀ run' ∈ exampleRuns, (run'.timeStart ≤ 2) ∧
        (ProductSpec.matchesRun { browserName := "firefox" } run' = true → run'.timeStart ≤ 1) := by
      decide
    match i, hp with
    | 0, hp =>
      cases hp
      refine ⟨exampleRuns[0], ⟨⟨by decide, by decide, (hrevision sha hsha).symm, by decide⟩,
        fun run' hrun' => (hnewest run' hrun'.mem).1⟩, ?_⟩
      intro j hj
      omega
    | 1, hp =>
      cases hp
      refine ⟨exampleRuns[1], ⟨⟨by decide, by decide, (hrevision sha hsha).symm, by decide⟩,
        fun run' hrun' => (hnewest run' hrun'.mem).2 hrun'.matchesRun⟩, ?_⟩
      intro j hj q hq
      obtain rfl : j = 0 := by omega
      cases hq
      decide
    | i + 2, hp => cases hp
  · intro shas hnodup hshas
    have hsub : shas ⊆ ["0123456789"] := fun sha hsha => by
      rw [hrevision sha (hshas sha hsha)]
      exact List.mem_singleton_self _
    have hlength : shas.length ≤ 1 := (hnodup.subperm hsub).length_le
    have hmax : maxCountMaxValue = 500 := rfl
    omega

/-- Chrome with and without a label: the run is credited to the first of the two only. -/
theorem not_isAlignment_overlapping :
    ¬ IsAlignment exampleStore none none none
      [{ browserName := "chrome" }, { browserName := "chrome", labels := some {"stable"} }]
      (getAlignedRunSHAs
        [{ browserName := "chrome" }, { browserName := "chrome", labels := some {"stable"} }] none
          none
        exampleQuery.runs) := by
  intro h
  have hnone : "0123456789" ∉ (getAlignedRunSHAs
      [{ browserName := "chrome" }, { browserName := "chrome", labels := some {"stable"} }] none
        none
      exampleQuery.runs).1 := by decide
  refine hnone ((h.listed "0123456789").mpr fun p hp =>
    ⟨exampleRuns[0], by decide, by decide, rfl, ?_⟩)
  simp only [List.mem_cons, List.not_mem_nil, or_false] at hp
  rcases hp with rfl | rfl <;> decide

end WptFyi.Shared
