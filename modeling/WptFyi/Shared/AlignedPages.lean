import WptFyi.Shared.AlignedRuns

/-!
# Pages of aligned runs (`shared/test_run_query.go`)

With an offset the loop of `GetAlignedRunSHAs` counts the revisions that are done,
with a limit those that it lists, and it returns as soon as it has listed enough.

The loop with both is followed beside the one without. They read the same runs; the first of them
may stop earlier, and until then it has collected the same and has listed what the other has, less
the first so many revisions. So the statement about a page needs nothing about what is listed, and
what is listed has been dealt with for the loop without an offset. Which revisions come first is
decided by which is complete first, not by which is newest (`CompletesBefore`).

- `creditRun_offset`, `alignRuns_offset`: beside the loop without offset, after one
  run and after all, it has collected the same and listed the rest;
- `CompletesBefore`: a revision's last product was met before another's;
- `getAlignedRunSHAs_page`: a page is what is left of the full list after the
  offset, up to the limit.
-/

namespace WptFyi.Shared

open Lib

/-! ## When a revision is complete -/

section Complete

variable (products : List ProductSpec)

/-- No product is missing from the runs of the revision. -/
def Completes (seen : List TestRun) (sha : String) : Prop :=
  ∀ i < products.length, (firstCredited products seen sha i).isSome

/-- Reading the runs in order, the last missing product of `sha` is met before that
of `sha'`. -/
def CompletesBefore (runs : List TestRun) (sha sha' : String) : Prop :=
  ∃ seen, seen <+: runs ∧ Completes products seen sha ∧ ¬ Completes products seen sha'

variable {products}

theorem CompletesBefore.mono {runs runs' : List TestRun} {sha sha' : String}
    (hruns : runs <+: runs')
    (h : CompletesBefore products runs sha sha') : CompletesBefore products runs' sha sha' := by
  obtain ⟨seen, hseen, hcomplete⟩ := h
  exact ⟨seen, hseen.trans hruns, hcomplete⟩

end Complete

/-! ## The two loops side by side

The loop with an offset and the loop without one see the same runs. What the first has collected is
what the second has, without the revisions that the offset took. -/

section Offset

variable {products : List ProductSpec}

/-- The state of the loop with an offset, from that of the loop without. -/
def AlignState.afterOffset (offset : Int) (f : AlignState) : AlignState :=
  { f with shas := f.shas.drop offset.toNat }

section Step

variable {bound limit offset : Int} {f : AlignState} {run : TestRun} {i : Nat}

theorem creditRun_zero (s : AlignState) :
    creditRun products bound (some 0) s run i = creditRun products bound none s run i := by
  simp [creditRun]

theorem AlignState.afterOffset_empty (offset : Int) :
    ({} : AlignState).afterOffset offset = {} := by
  simp [AlignState.afterOffset]

/-- What a run can do to the list: nothing, or its revision is complete. -/
theorem creditRun_shas (hbound : (f.shas.length : Int) + 1 < bound) :
    let result := creditRun products bound none f run i
    result.2 = false ∧ (result.1.shas = f.shas ∨
      run.revision ∉ f.done ∧ result.1.shas = f.shas ++ [run.revision]) := by
  unfold creditRun
  simp only [Option.all_none, if_true, AlignState.shas_credit, AlignState.done_credit]
  split_ifs with hmem hcomplete
  · exact ⟨rfl, Or.inl rfl⟩
  · refine ⟨decide_eq_false ?_, Or.inr ⟨hcomplete.2, rfl⟩⟩
    rw [List.length_append, List.length_singleton]
    omega
  · exact ⟨rfl, Or.inl rfl⟩

/-- **One run**, with the offset: the same is collected, and the list is what comes
after the offset. -/
theorem creditRun_offset (hoffset : 0 ≤ offset) (hdone : f.done.card = f.shas.length)
    (hlimit : ((f.afterOffset offset).shas.length : Int) < limit) :
    let full := (creditRun products bound none f run i).1
    creditRun products limit (some offset) (f.afterOffset offset) run i =
      (full.afterOffset offset, decide (limit ≤ (full.afterOffset offset).shas.length)) := by
  have hstay : decide (limit ≤ ((f.afterOffset offset).shas.length : Int)) = false :=
    decide_eq_false (not_le.mpr hlimit)
  have hset : ∀ sha, (f.afterOffset offset).set sha = f.set sha := fun _ => rfl
  have hcredit : (f.afterOffset offset).credit products run i =
      (f.credit products run i).afterOffset offset := rfl
  unfold creditRun
  simp only [hset, hcredit]
  by_cases hmem : i ∈ f.set run.revision
  · rw [if_pos hmem, if_pos hmem]
    exact Prod.ext rfl hstay.symm
  · rw [if_neg hmem, if_neg hmem]
    -- the two states differ in the list only
    have hcond : (((f.credit products run i).afterOffset offset).set run.revision).card =
        products.length ∧ run.revision ∉ ((f.credit products run i).afterOffset offset).done ↔
          ((f.credit products run i).set run.revision).card = products.length ∧
            run.revision ∉ (f.credit products run i).done := Iff.rfl
    by_cases hcomplete : ((f.credit products run i).set run.revision).card = products.length ∧
        run.revision ∉ (f.credit products run i).done
    -- up to the offset the revision is done but not listed, after it both are longer by it
    · have hshas : (if (some offset).all (fun x : Int => decide
            (x ≤ (((f.credit products run i).afterOffset offset).done.card : Int))) = true
          then ((f.credit products run i).afterOffset offset).shas ++ [run.revision]
          else ((f.credit products run i).afterOffset offset).shas) =
            (f.shas ++ [run.revision]).drop offset.toNat := by
        show (if decide (offset ≤ (f.done.card : Int)) = true
          then f.shas.drop offset.toNat ++ [run.revision] else f.shas.drop offset.toNat) = _
        rw [hdone]
        split_ifs with hle
        · have hle := of_decide_eq_true hle
          rw [List.drop_append_of_le_length (by omega)]
        · have hlt : ¬ offset ≤ (f.shas.length : Int) := fun h => hle (decide_eq_true h)
          rw [List.drop_eq_nil_of_le (by omega), List.drop_eq_nil_of_le]
          rw [List.length_append, List.length_singleton]
          omega
      rw [if_pos (hcond.mpr hcomplete), if_pos hcomplete, hshas]
      rfl
    · rw [if_neg (mt hcond.mp hcomplete), if_neg hcomplete]
      exact Prod.ext rfl hstay.symm

/-- The list only grows. -/
theorem prefix_creditRun (limit : Int) (offset : Option Int) (s : AlignState) :
    s.shas <+: (creditRun products limit offset s run i).1.shas := by
  unfold creditRun
  simp only [AlignState.shas_credit]
  split_ifs
  · exact List.prefix_refl _
  · exact List.prefix_append _ _
  · exact List.prefix_refl _
  · exact List.prefix_refl _

end Step

/-- What is listed stays listed. -/
theorem prefix_alignRuns (limit : Int) (offset : Option Int) (runs : List TestRun)
    (s : AlignState) :
    s.shas <+: (alignRuns products limit offset s runs).shas := by
  induction runs generalizing s with
  | nil => exact List.prefix_refl _
  | cons run runs ih =>
    unfold alignRuns
    cases matchingProduct products run with
    | none => exact ih s
    | some i =>
      have hcredit := @prefix_creditRun products run i limit offset s
      simp only
      rcases hresult : creditRun products limit offset s run i with ⟨s', stop⟩
      rw [hresult] at hcredit
      cases stop with
      | true => exact hcredit
      | false => exact hcredit.trans (ih s')

/-- What has been collected and listed of the runs that were read, without an offset. -/
structure Listed (products : List ProductSpec) (seen : List TestRun) (f : AlignState) : Prop
    extends Collected products seen f where
  ordered : f.shas.Pairwise (CompletesBefore products seen)

theorem Listed.card_done {seen : List TestRun} {f : AlignState} (h : Listed products seen f) :
    f.done.card = f.shas.length := by
  rw [← h.shas.2, List.toFinset_card_of_nodup h.shas.1]

/-- A revision that is done was complete before one that is not. -/
theorem Listed.snoc {seen : List TestRun} {f f' : AlignState} {run : TestRun}
    (h : Listed products seen f) (hcollected : Collected products (seen ++ [run]) f')
    (hshas : f'.shas = f.shas ∨ run.revision ∉ f.done ∧ f'.shas = f.shas ++ [run.revision]) :
    Listed products (seen ++ [run]) f' := by
  have hordered : f.shas.Pairwise (CompletesBefore products (seen ++ [run])) :=
    h.ordered.imp fun hbefore => hbefore.mono (List.prefix_append _ _)
  refine ⟨hcollected, ?_⟩
  rcases hshas with heq | ⟨hnot, heq⟩
  · rwa [heq]
  · rw [heq, List.pairwise_append]
    refine ⟨hordered, List.pairwise_singleton _ _, fun sha hsha sha' hsha' => ?_⟩
    obtain rfl := List.mem_singleton.mp hsha'
    have hdone : sha ∈ f.done := h.shas.2 ▸ List.mem_toFinset.mpr hsha
    exact ⟨seen, List.prefix_append _ _, (h.done sha).mp hdone, fun hall =>
      hnot ((h.done _).mpr hall)⟩

/-- **All runs**: the loop with an offset and a limit has read some of them, and lists
of what the other loop has listed by then the part after the offset. -/
theorem alignRuns_offset {bound limit offset : Int} (hoffset : 0 ≤ offset) (runs : List TestRun)
    {seen : List TestRun} {f : AlignState} (h : Listed products seen f)
    (hbound : (f.shas.length : Int) + runs.length < bound)
    (hlimit : ((f.afterOffset offset).shas.length : Int) < limit) :
    ∃ read f', read <+: runs ∧ Listed products (seen ++ read) f' ∧
      alignRuns products limit (some offset) (f.afterOffset offset) runs = f'.afterOffset offset ∧
      f'.shas <+: (alignRuns products bound none f runs).shas ∧
      ((f'.afterOffset offset).shas.length : Int) ≤ limit ∧
      (f' = alignRuns products bound none f runs ∨
        limit ≤ ((f'.afterOffset offset).shas.length : Int)) := by
  induction runs generalizing seen f with
  | nil =>
    exact ⟨[], f, List.prefix_refl _, by rwa [List.append_nil], rfl, List.prefix_refl _, hlimit.le,
      Or.inl rfl⟩
  | cons run runs ih =>
    rw [List.length_cons] at hbound
    push_cast at hbound
    have hread : ∀ {f₁ : AlignState}, Listed products (seen ++ [run]) f₁ →
        (f₁.shas.length : Int) + runs.length < bound →
        ((f₁.afterOffset offset).shas.length : Int) < limit →
        ∃ read f', read <+: run :: runs ∧ Listed products (seen ++ read) f' ∧
          alignRuns products limit (some offset) (f₁.afterOffset offset) runs =
            f'.afterOffset offset ∧
          f'.shas <+: (alignRuns products bound none f₁ runs).shas ∧
          ((f'.afterOffset offset).shas.length : Int) ≤ limit ∧
          (f' = alignRuns products bound none f₁ runs ∨
            limit ≤ ((f'.afterOffset offset).shas.length : Int)) := by
      intro f₁ h₁ hbound₁ hlimit₁
      obtain ⟨read, f', hprefix, hlisted, heq⟩ := ih h₁ hbound₁ hlimit₁
      refine ⟨run :: read, f', List.cons_prefix_cons.mpr ⟨rfl, hprefix⟩, ?_, heq⟩
      rwa [List.append_assoc, List.singleton_append] at hlisted
    unfold alignRuns
    cases hi : matchingProduct products run with
    | none =>
      refine hread ?_ (by omega) hlimit
      refine h.snoc (h.toCollected.congr fun sha i => ?_) (Or.inl rfl)
      rw [firstCredited_snoc, hi, if_neg (by simp), Option.or_none]
    | some i =>
      obtain ⟨hcollected, -, -⟩ :=
        @collected_creditRun products seen f run i bound h.toCollected hi (by omega)
      obtain ⟨hgoes, hshas⟩ := @creditRun_shas products bound f run i (by omega)
      have hpage := @creditRun_offset products bound limit offset f run i hoffset h.card_done hlimit
      simp only at hpage ⊢
      rw [hpage]
      rcases hresult : creditRun products bound none f run i with ⟨f₁, stop⟩
      rw [hresult] at hcollected hgoes hshas
      simp only at hcollected hgoes hshas ⊢
      subst hgoes
      have h₁ := h.snoc hcollected hshas
      have hlength : (f₁.shas.length : Int) + runs.length < bound := by
        rcases hshas with heq | ⟨-, heq⟩ <;> rw [heq]
        · omega
        · rw [List.length_append, List.length_singleton]
          push_cast
          omega
      by_cases hfull : limit ≤ ((f₁.afterOffset offset).shas.length : Int)
      · rw [decide_eq_true hfull]
        refine ⟨[run], f₁, by simp, h₁, rfl, prefix_alignRuns bound none runs f₁, ?_, Or.inr hfull⟩
        -- one run lists one revision at most
        have hone : f₁.shas.length ≤ f.shas.length + 1 := by
          rcases hshas with heq | ⟨-, heq⟩ <;> simp [heq]
        simp only [AlignState.afterOffset, List.length_drop] at hlimit ⊢
        omega
      · rw [decide_eq_false hfull]
        exact hread h₁ hlength (not_le.mp hfull)

theorem alignRuns_zero (bound : Int) (runs : List TestRun) (s : AlignState) :
    alignRuns products bound (some 0) s runs = alignRuns products bound none s runs := by
  induction runs generalizing s with
  | nil => rfl
  | cons run runs ih =>
    unfold alignRuns
    simp only [creditRun_zero, ih]

theorem listed_nil (hne : products ≠ []) : Listed products [] {} :=
  ⟨collected_nil hne, List.Pairwise.nil⟩

/-- Without products nothing is listed. -/
theorem alignRuns_noProducts (limit : Int) (offset : Option Int) (runs : List TestRun)
    (s : AlignState) : alignRuns [] limit offset s runs = s := by
  induction runs with
  | nil => rfl
  | cons run runs ih =>
    unfold alignRuns
    exact ih

/-- Each product has one key, that of the first run of the revision credited to it. -/
theorem Listed.keys_of_mem {seen : List TestRun} {f : AlignState} (h : Listed products seen f)
    {sha : String} (hsha : sha ∈ f.shas) : ∃ kbp, f.keys.lookup sha = some kbp ∧
      kbp.length = products.length ∧ ∀ i < products.length, ∃ run ∈ seen, run.revision = sha ∧
        matchingProduct products run = some i ∧
          (kbp.map ProductTestRunKeys.keys)[i]? = some [run.id] := by
  have hdone : sha ∈ f.done := h.shas.2 ▸ List.mem_toFinset.mpr hsha
  refine ⟨_, h.keys sha hdone, h.length sha, fun i hi => ?_⟩
  obtain ⟨run, hrun⟩ := Option.isSome_iff_exists.mp ((h.done sha).mp hdone i hi)
  have hcredited := List.find?_some hrun
  simp only [Bool.and_eq_true, beq_iff_eq] at hcredited
  refine ⟨run, List.mem_of_find?_eq_some hrun, hcredited.1, hcredited.2, ?_⟩
  have hcell := h.collected sha i
  rw [hrun] at hcell
  cases hget : ((f.collected products sha).map ProductTestRunKeys.keys)[i]? with
  | none => rw [hget] at hcell; cases hcell
  | some keys => rw [hget] at hcell; exact congrArg some hcell

end Offset

/-! ## Pages

A page is a part of the list of all revisions. Pages of one size, one behind the other, are the
list. -/

section Pages

/-- A page of the full list: its revisions, each once and in the order in which they
were complete, with one key for each product. -/
structure IsPage (products : List ProductSpec) (runs : List TestRun) (full : List String)
    (limit offset : Int) (page : List String × GoMap String KeysByProduct) : Prop where
  shas : page.1 = (full.drop offset.toNat).take limit.toNat
  nodup : page.1.Nodup
  ordered : page.1.Pairwise (CompletesBefore products runs)
  keys : ∀ sha ∈ page.1, ∃ kbp, page.2.lookup sha = some kbp ∧ kbp.length = products.length ∧
    ∀ i < products.length, ∃ run ∈ runs, run.revision = sha ∧
      matchingProduct products run = some i ∧
        (kbp.map ProductTestRunKeys.keys)[i]? = some [run.id]

/-- One page, beside the full list. -/
theorem isPage_getAlignedRunSHAs (products : List ProductSpec) (runs : List TestRun)
    {limit offset bound : Int} (hlimit : 1 ≤ limit) (hoffset : 0 ≤ offset)
    (hbound : runs.length < bound) :
    IsPage products runs (getAlignedRunSHAs products (some bound) (some 0) runs).1 limit offset
      (getAlignedRunSHAs products (some limit) (some offset) runs) := by
  unfold getAlignedRunSHAs
  simp only [Option.getD_some, alignRuns_zero]
  by_cases hne : products = []
  · subst hne
    rw [alignRuns_noProducts, alignRuns_noProducts]
    exact ⟨by simp, List.nodup_nil, List.Pairwise.nil, by simp⟩
  · obtain ⟨read, f, hread, hlisted, heq, hprefix, hle, hend⟩ :=
      alignRuns_offset hoffset runs (listed_nil hne) (by simpa using hbound)
        (by rw [AlignState.afterOffset_empty]; exact Int.lt_of_lt_of_le Int.zero_lt_one hlimit)
    rw [List.nil_append] at hlisted
    rw [AlignState.afterOffset_empty] at heq
    rw [heq]
    have hsub : (f.afterOffset offset).shas.Sublist f.shas := List.drop_sublist _ _
    refine ⟨?_, hlisted.shas.1.sublist hsub, ?_, fun sha hsha => ?_⟩
    · rcases hend with hall | hfull
      · -- all runs were read, and the limit does not cut
        rw [← hall, List.take_of_length_le]
        · rfl
        · exact Int.ofNat_le.mp
            (by omega : ((f.afterOffset offset).shas.length : Int) ≤ limit.toNat)
      · obtain ⟨rest, hrest⟩ := hprefix
        have hlength : (f.shas.drop offset.toNat).length = limit.toNat := by
          show (f.afterOffset offset).shas.length = _
          omega
        have hlt : offset.toNat ≤ f.shas.length := by
          rw [List.length_drop] at hlength
          omega
        rw [← hrest, List.drop_append_of_le_length hlt, ← hlength, List.take_left]
        rfl
    · exact (hlisted.ordered.sublist hsub).imp fun hbefore => hbefore.mono hread
    · obtain ⟨kbp, hlookup, hlength, hkeys⟩ := hlisted.keys_of_mem (hsub.subset hsha)
      refine ⟨kbp, hlookup, hlength, fun i hi => ?_⟩
      obtain ⟨run, hrun, hcredited⟩ := hkeys i hi
      exact ⟨run, hread.subset hrun, hcredited⟩

/-- Pages of one size, one after the other. -/
theorem flatMap_pages {α : Type*} (full : List α) (size n : Nat) :
    ((List.range n).flatMap fun k => (full.drop (k * size)).take size) = full.take (n * size) := by
  induction n with
  | zero => simp
  | succ n ih =>
    rw [List.range_succ, List.flatMap_append, ih, List.flatMap_singleton, Nat.succ_mul,
      List.take_add]

/-- **Pages of aligned runs**: each is what is left of the full list after the offset, up
to the limit, and one after the other they partition it. -/
theorem getAlignedRunSHAs_page {store : RunStore} {labels : Option (Finset String)}
    {start stop : Option Int} (products : List ProductSpec)
    (q : NewestFirst store labels start stop) {limit bound : Int} (hlimit : 1 ≤ limit)
    (hbound : q.runs.length < bound) :
    let full := (getAlignedRunSHAs products (some bound) (some 0) q.runs).1
    (∀ offset, 0 ≤ offset → IsPage products q.runs full limit offset
      (getAlignedRunSHAs products (some limit) (some offset) q.runs)) ∧
    ∀ n : Nat, ((List.range n).flatMap fun k : Nat =>
      (getAlignedRunSHAs products (some limit) (some ((k : Int) * limit)) q.runs).1) =
        full.take (n * limit.toNat) := by
  intro full
  have hpage : ∀ offset, 0 ≤ offset → IsPage products q.runs full limit offset
      (getAlignedRunSHAs products (some limit) (some offset) q.runs) := fun offset hoffset =>
    isPage_getAlignedRunSHAs products q.runs hlimit hoffset hbound
  refine ⟨hpage, fun n => ?_⟩
  rw [← flatMap_pages]
  congr 1
  funext k
  have hoffset : (0 : Int) ≤ k * limit := by positivity
  rw [(hpage (k * limit) hoffset).shas, Int.toNat_mul (by omega) (by omega), Int.toNat_natCast]

/-- The one aligned revision of two runs, as a page. -/
theorem isPage_example :
    let products : List ProductSpec := [{ browserName := "chrome" }, { browserName := "firefox" }]
    let full := (getAlignedRunSHAs products (some 3) (some 0) exampleQuery.runs).1
    full = ["0123456789"] ∧ IsPage products exampleQuery.runs full 1 0
      (getAlignedRunSHAs products (some 1) (some 0) exampleQuery.runs) :=
  ⟨by decide, (getAlignedRunSHAs_page _ exampleQuery le_rfl (by decide)).1 0 le_rfl⟩

end Pages

end WptFyi.Shared
