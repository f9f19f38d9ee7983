import WptFyi.Cache.Semantics
import WptFyi.Query.Atoms

/-!
# Binding preserves what a query means

`Holds` says when a search tree holds of a list of runs on a row, by recursion
on the tree and without binding anything. `bindToRuns` simplifies as it goes:
it drops the arguments of an `And` that are `True` and those of an `Or` that are `False`, unwraps
single ones and turns empty lists of arguments into `False`.

A binder is a function from lists of runs to concrete queries, and `bound` reads it as a statement
about such lists. Each node of the tree is handled by a lemma about the loop that binds it, in which
the arguments are any binders with their meanings; the induction on the tree only puts the lemmas
together (`bound_bindToRuns`). Two things about the simplifications need care. `And` drops a
`True` argument, and an `And` or `Or` without arguments left is `False`, so an `And` of nothing but
`True` would change its meaning; a well-formed tree never binds an argument to `True`
(`bindToRuns_ne_trueQ`), which is why that does not happen. And `exists` and `all` bind several
arguments to each run on its own, but a single one to all runs together.

- `Holds`, `meanings`: the meaning of a tree, and of the arguments of a node;
- `bound_bindToRuns`: binding agrees with it for every well-formed tree;
- `asksOnly_bindToRuns`: a bound query asks only about the runs it was bound to;
- `newFilter_bindToRuns`: so the filter accepts exactly the rows on which the
  tree holds of the runs.
-/

namespace WptFyi.Cache

open Lib Query Shared

/-- What a query says of a list of runs. -/
abbrev Meaning := List TestRun → Prop

/-- How many runs satisfy a query, each on its own. -/
noncomputable def countRuns (p : Meaning) (runs : List TestRun) : Nat :=
  open Classical in runs.countP fun run => decide (p [run])

/-- `exists`: a single argument is about all runs together, several are each
about some run. -/
def ExistsHolds (args : List Meaning) (runs : List TestRun) : Prop :=
  match args with
  | [arg] => arg runs
  | args => ∀ arg ∈ args, ∃ run ∈ runs, arg [run]

section Holds

variable (cases : CaseMapping) (fetched : Fetched) (row : Row)

mutual

/-- **The run-list semantics** of a query on a row. -/
def Holds : AbstractQuery → Meaning
  | .trueQ => fun _ => True
  | .testNamePattern pattern => fun _ => row.nameSatisfies (testNamePatternMatches cases pattern)
  | .subtestNamePattern subtest => fun _ =>
    row.nameSatisfies (subtestNamePatternMatches cases subtest)
  | .testPath path => fun _ => row.nameSatisfies (testPathMatches path)
  | .testStatusEq product status => fun runs =>
    ∃ run ∈ runs, productMatches product run ∧ row.result run.id = status
  | .testStatusNeq product status => fun runs =>
    ∃ run ∈ runs, productMatches product run ∧ row.result run.id ≠ status
  | .abstractNot arg => fun runs => ¬ Holds arg runs
  | .abstractOr args => fun runs => ∃ arg ∈ meanings args, arg runs
  | .abstractAnd args => fun runs => ∀ arg ∈ meanings args, arg runs
  | .abstractExists args => ExistsHolds (meanings args)
  | .abstractAll args => fun runs => ∀ arg ∈ meanings args, ∀ run ∈ runs, arg [run]
  | .abstractNone args => fun runs => ¬ ExistsHolds (meanings args) runs
  | .abstractSequential args => fun runs =>
    ∃ window, window <:+: runs ∧ List.Forall₂ (fun arg run => arg [run]) (meanings args) window
  | .abstractCount n arg => fun runs => (countRuns (Holds arg) runs : Int) = n
  | .abstractLessThan n arg => fun runs => (countRuns (Holds arg) runs : Int) < n
  | .abstractMoreThan n arg => fun runs => (countRuns (Holds arg) runs : Int) > n
  | .abstractLink pattern => fun runs =>
    row.nameSatisfies
      (linkMatches pattern (prepareLinkFilter (getMetadataResponse fetched runs true)))
  | .abstractTriaged product => fun runs =>
    ∃ run ∈ runs, productMatches product run ∧
      row.nameSatisfies (triagedMatches (triagedMetadata fetched product run))
  | .abstractTestLabel label => fun _ =>
    row.nameSatisfies
      (testLabelMatches cases label (prepareTestLabelFilter (getMetadataResponse fetched [] true)))
  | .abstractTestWebFeature webFeature => fun _ =>
    row.nameSatisfies (testWebFeatureMatches cases webFeature fetched.webFeatures)
  | .metadataQuality quality => fun _ => row.hasQuality quality

/-- The meanings of a list of arguments. -/
def meanings : List AbstractQuery → List Meaning
  | [] => []
  | q :: qs => Holds q :: meanings qs

end

end Holds

/-! ## What a binder binds to, as a meaning

Each binder gets its arguments bound already. Its lemma says that what it puts together holds of a
row exactly when the meaning of the abstract query does, given that this is so for the arguments
and that there are runs. -/

section Bound

variable (cases : CaseMapping) (row : Row)

/-- When what a binder binds to holds on the row. -/
def bound (arg : Binder) : Meaning := fun runs => holds cases row (arg runs) = true

variable {cases row} {args : List Binder} {runs : List TestRun}

theorem forall_bound_iff {P : Meaning → Prop} :
    (∀ p ∈ args.map (bound cases row), P p) ↔ ∀ arg ∈ args, P (bound cases row arg) := by
  simp

/-- The disjunction that is made of one argument, run by run: a run for which the argument is
`False` is left out, which does not change what the others say. -/
theorem holds_or_byRun (arg : Binder) :
    holds cases row (.or ((runs.map fun run => arg [run]).filter fun q => !q.isFalse)) = true ↔
      ∃ run ∈ runs, bound cases row arg [run] := by
  rw [holds_or]
  constructor
  · rintro ⟨q, hq, hholds⟩
    obtain ⟨run, hrun, rfl⟩ := List.mem_map.mp (List.mem_filter.mp hq).1
    exact ⟨run, hrun, hholds⟩
  · rintro ⟨run, hrun, hholds⟩
    refine ⟨arg [run], List.mem_filter.mpr ⟨List.mem_map_of_mem hrun, ?_⟩, hholds⟩
    -- a `False` that is dropped would not have held
    rw [Bool.not_eq_true', ← Bool.not_eq_true, ConcreteQuery.isFalse_iff]
    intro hfalse
    rw [bound, hfalse] at hholds
    exact absurd hholds (by simp [holds])

/-- A single argument is bound to all runs; of several, each holds on some single run. -/
theorem bound_bindExists :
    bound cases row (bindExists args) runs ↔ ExistsHolds (args.map (bound cases row)) runs := by
  have hseveral : holds cases row (.and (args.map fun arg =>
      .or ((runs.map fun run => arg [run]).filter fun q => !q.isFalse))) = true ↔
        ∀ p ∈ args.map (bound cases row), ∃ run ∈ runs, p [run] := by
    rw [holds_and, forall_bound_iff, List.forall_mem_map]
    exact forall₂_congr fun arg _ => holds_or_byRun arg
  unfold bound bindExists ExistsHolds
  cases args with
  | nil => exact hseveral
  | cons arg args =>
    cases args with
    | nil => exact Iff.rfl
    | cons arg' args => exact hseveral

/-- The conjunction over runs and arguments, in either order. -/
theorem bound_bindAll :
    bound cases row (bindAll args) runs ↔
      ∀ p ∈ args.map (bound cases row), ∀ run ∈ runs, p [run] := by
  rw [bound, bindAll, holds_and, forall_bound_iff, List.forall_mem_map]
  refine forall₂_congr fun arg _ => ?_
  rw [holds_and]
  constructor
  · intro hall run hrun
    by_cases htrue : (arg [run]).isTrue = true
    · rw [bound, ConcreteQuery.isTrue_iff.mp htrue, holds]
    · exact hall _ (List.mem_filter.mpr ⟨List.mem_map_of_mem hrun, by simpa using htrue⟩)
  · intro hall q hq
    obtain ⟨run, hrun, rfl⟩ := List.mem_map.mp (List.mem_filter.mp hq).1
    exact hall run hrun

theorem bound_bindNone :
    bound cases row (bindNone args) runs ↔ ¬ ExistsHolds (args.map (bound cases row)) runs := by
  rw [bound, bindNone, holds_not]
  exact not_congr bound_bindExists

/-- One window: argument by argument, each on its own run. -/
theorem holds_window {window rest : List TestRun} (hlen : args.length = window.length) :
    holds cases row (.and (List.zipWith (fun arg run => arg [run]) args (window ++ rest))) = true ↔
      List.Forall₂ (fun p run => p [run]) (args.map (bound cases row)) window := by
  rw [holds_and]
  induction args generalizing window with
  | nil =>
    obtain rfl : window = [] := List.length_eq_zero_iff.mp hlen.symm
    simp
  | cons arg args ih =>
    cases window with
    | nil => exact absurd hlen (by simp)
    | cons run window =>
      simp only [List.cons_append, List.zipWith_cons_cons, List.forall_mem_cons, List.map_cons,
        List.forall₂_cons]
      exact and_congr Iff.rfl (ih (by simpa using hlen))

/-- The windows of the loop are the segments of the list that are as long as the list of arguments.
-/
theorem bound_bindSequential :
    bound cases row (bindSequential args) runs ↔ ∃ window, window <:+: runs ∧
      List.Forall₂ (fun p run => p [run]) (args.map (bound cases row)) window := by
  rw [bound, bindSequential, holds_or]
  constructor
  · rintro ⟨q, hq, hholds⟩
    obtain ⟨i, hi, rfl⟩ := List.mem_map.mp hq
    rw [List.mem_range] at hi
    -- the window the loop looks at when it has come to `i`
    have hsplit : runs.drop i = (runs.drop i).take args.length ++ (runs.drop i).drop args.length :=
      (List.take_append_drop _ _).symm
    have hlen : args.length = ((runs.drop i).take args.length).length := by
      rw [List.length_take, List.length_drop]
      omega
    rw [hsplit, holds_window hlen] at hholds
    exact ⟨_, (List.take_prefix _ _).isInfix.trans (List.drop_suffix _ _).isInfix, hholds⟩
  · rintro ⟨window, ⟨pre, post, rfl⟩, hwindow⟩
    have hlen : args.length = window.length := by
      simpa using hwindow.length_eq
    refine ⟨_, List.mem_map.mpr ⟨pre.length, ?_, rfl⟩, ?_⟩
    · rw [List.mem_range]
      simp only [List.length_append]
      omega
    · rw [List.append_assoc, List.drop_left, holds_window hlen]
      exact hwindow

theorem countP_bindCount (arg : Binder) :
    (bindCount arg runs).countP (holds cases row) = countRuns (bound cases row arg) runs := by
  rw [bindCount, List.countP_map, countRuns]
  refine List.countP_congr fun run _ => ?_
  simp only [Function.comp_apply, decide_eq_true_eq]
  exact Iff.rfl

/-- The two status atoms, which differ in what they ask of a result. -/
theorem holds_bindStatus {atom : Int → TestStatus → ConcreteQuery} {product : Option ProductSpec}
    {status : TestStatus} {p : ResultID → Prop}
    (hatom : ∀ id, holds cases row (atom id status) = true ↔ p (row.result id)) :
    holds cases row (bindStatus atom product status runs) = true ↔
      ∃ run ∈ runs, productMatches product run = true ∧ p (row.result run.id) := by
  have hids : (∃ run ∈ runs, productMatches product run = true ∧ p (row.result run.id)) ↔
      ∃ id ∈ (runs.filter (productMatches product)).map TestRun.id, p (row.result id) := by
    simp [and_assoc]
  rw [hids, bindStatus]
  rcases (runs.filter (productMatches product)).map TestRun.id with _ | ⟨id, _ | ⟨id', ids⟩⟩
  · simp [holds]
  · simp [hatom]
  · rw [holds_or]
    simp [hatom]

theorem triagedMatches_empty (n : TestName) : triagedMatches ∅ n = false := by
  have hnone : lookupWithWildcards ∅ n.name = none := by simp [lookupWithWildcards]
  rw [triagedMatches, hnone]

theorem not_nameSatisfies_triagedMatches_empty :
    ¬ row.nameSatisfies (triagedMatches ∅) = true := by
  unfold Row.nameSatisfies
  cases row.name with
  | none => exact Bool.false_ne_true
  | some n => exact fun h => Bool.false_ne_true ((triagedMatches_empty n).symm.trans h)

/-- A run without triaged metadata is left out of the disjunction; nothing is triaged in it. -/
theorem holds_or_triaged {fetched : Fetched} {product : Option ProductSpec} :
    holds cases row (.or ((runs.filter fun run =>
      productMatches product run && decide (triagedMetadata fetched product run ≠ ∅)).map fun run =>
        ConcreteQuery.triaged run.id (triagedMetadata fetched product run))) = true ↔
      ∃ run ∈ runs, productMatches product run = true ∧
        row.nameSatisfies (triagedMatches (triagedMetadata fetched product run)) = true := by
  rw [holds_or]
  constructor
  · rintro ⟨q, hq, hholds⟩
    obtain ⟨run, hrun, rfl⟩ := List.mem_map.mp hq
    obtain ⟨hmem, hkeep⟩ := List.mem_filter.mp hrun
    exact ⟨run, hmem, (Bool.and_eq_true_iff.mp hkeep).1, hholds⟩
  · rintro ⟨run, hmem, hproduct, hholds⟩
    refine ⟨_, List.mem_map.mpr ⟨run, List.mem_filter.mpr ⟨hmem, ?_⟩, rfl⟩, hholds⟩
    rw [hproduct, Bool.true_and, decide_eq_true_iff]
    -- without metadata nothing is triaged
    intro hnone
    rw [hnone] at hholds
    exact not_nameSatisfies_triagedMatches_empty hholds

theorem bound_bindTriaged {fetched : Fetched} {product : Option ProductSpec} :
    bound cases row (bindTriaged fetched product) runs ↔
      ∃ run ∈ runs, productMatches product run = true ∧
        row.nameSatisfies (triagedMatches (triagedMetadata fetched product run)) = true := by
  refine Iff.trans ?_ (@holds_or_triaged cases row runs fetched product)
  rw [bound, bindTriaged]
  split
  · next hnil =>
    rw [List.isEmpty_iff.mp hnil, holds_or]
    simp
  · exact Iff.rfl

/-! ### `Or` and `And`, which simplify

`True` and `False` are dropped or end the loop while the arguments are collected, so the result
need not have the shape of an `Or` or `And` any more; that does not change what it means. -/

/-- The loop over the arguments of `Or`: what it has kept and what is to come. -/
theorem holds_bindOrLoop (kept subs : List ConcreteQuery) :
    holds cases row (bindOrLoop kept subs) = true ↔
      ∃ q ∈ kept ++ subs, holds cases row q = true := by
  induction subs generalizing kept with
  | nil =>
    rcases kept with _ | ⟨q, _ | ⟨q', qs⟩⟩
    · simp [bindOrLoop]
    · simp [bindOrLoop]
    · rw [bindOrLoop, holds_or, List.append_nil]
      all_goals simp
  | cons sub subs ih =>
    rw [bindOrLoop]
    split_ifs with htrue hfalse
    · obtain rfl := ConcreteQuery.isTrue_iff.mp htrue
      exact iff_of_true rfl ⟨.trueQ, by simp, rfl⟩
    · obtain rfl := ConcreteQuery.isFalse_iff.mp hfalse
      rw [ih]
      simp only [List.mem_append, List.mem_cons, or_and_right, exists_or, exists_eq_left,
        holds_falseQ, Bool.false_eq_true, false_or]
    · rw [ih, List.append_assoc]
      rfl

/-- Without a `True` to drop, an empty list of arguments stays one. -/
theorem holds_bindAndLoop {kept subs : List ConcreteQuery} (hne : kept ++ subs ≠ [])
    (htrue : ∀ q ∈ subs, q ≠ .trueQ) :
    holds cases row (bindAndLoop kept subs) = true ↔
      ∀ q ∈ kept ++ subs, holds cases row q = true := by
  induction subs generalizing kept with
  | nil =>
    rcases kept with _ | ⟨q, _ | ⟨q', qs⟩⟩
    · exact absurd rfl hne
    · simp [bindAndLoop]
    · rw [bindAndLoop, holds_and, List.append_nil]
      all_goals simp
  | cons sub subs ih =>
    obtain ⟨hsub, hsubs⟩ := List.forall_mem_cons.mp htrue
    have hkeep : ¬ sub.isTrue = true := fun h => hsub (ConcreteQuery.isTrue_iff.mp h)
    rw [bindAndLoop, if_neg hkeep]
    split_ifs with hfalse
    · obtain rfl := ConcreteQuery.isFalse_iff.mp hfalse
      refine iff_of_false (by simp) fun hall => ?_
      exact absurd (hall .falseQ (by simp)) (by simp)
    · rw [ih (by simp) hsubs, List.append_assoc]
      rfl

theorem bound_bindOr :
    bound cases row (bindOr args) runs ↔ ∃ p ∈ args.map (bound cases row), p runs := by
  rw [bound, bindOr, holds_bindOrLoop]
  simp [bound]

theorem bound_bindAnd (hne : args ≠ []) (htrue : ∀ arg ∈ args, arg runs ≠ .trueQ) :
    bound cases row (bindAnd args) runs ↔ ∀ p ∈ args.map (bound cases row), p runs := by
  rw [bound, bindAnd, holds_bindAndLoop (by simpa using hne) (by simpa using htrue)]
  simp [bound]

end Bound

/-! ## Trees

One case for each atom, by the lemma of its binder. A bound tree is never `True` by accident, which
`Or` and `And` rely on when they simplify. -/

section Trees

variable (cases : CaseMapping) (fetched : Fetched) (row : Row)

/-- A disjunction comes out as `True` only if one of its parts did. -/
theorem bindOrLoop_ne_trueQ {kept subs : List ConcreteQuery} (hkept : ∀ q ∈ kept, q ≠ .trueQ)
    (hsubs : ∀ q ∈ subs, q ≠ .trueQ) : bindOrLoop kept subs ≠ .trueQ := by
  induction subs generalizing kept with
  | nil =>
    rcases kept with _ | ⟨q, _ | ⟨q', qs⟩⟩
    · simp [bindOrLoop]
    · simpa [bindOrLoop] using hkept
    · simp [bindOrLoop]
  | cons sub subs ih =>
    obtain ⟨hsub, hsubs⟩ := List.forall_mem_cons.mp hsubs
    rw [bindOrLoop]
    split_ifs
    · exact hsub
    · exact ih hkept hsubs
    · refine ih ?_ hsubs
      simpa [or_imp, forall_and] using ⟨hkept, hsub⟩

/-- So does a conjunction. -/
theorem bindAndLoop_ne_trueQ {kept subs : List ConcreteQuery} (hkept : ∀ q ∈ kept, q ≠ .trueQ)
    (hsubs : ∀ q ∈ subs, q ≠ .trueQ) : bindAndLoop kept subs ≠ .trueQ := by
  induction subs generalizing kept with
  | nil =>
    rcases kept with _ | ⟨q, _ | ⟨q', qs⟩⟩
    · simp [bindAndLoop]
    · simpa [bindAndLoop] using hkept
    · simp [bindAndLoop]
  | cons sub subs ih =>
    obtain ⟨hsub, hsubs⟩ := List.forall_mem_cons.mp hsubs
    rw [bindAndLoop]
    split_ifs
    · simp
    · exact ih hkept hsubs
    · refine ih ?_ hsubs
      simpa [or_imp, forall_and] using ⟨hkept, hsub⟩

theorem bindExists_ne_trueQ {args : List Binder} (hargs : ∀ arg ∈ args, ∀ runs, arg runs ≠ .trueQ)
    (runs : List TestRun) : bindExists args runs ≠ .trueQ := by
  rcases args with _ | ⟨arg, _ | ⟨arg', args⟩⟩
  · simp [bindExists]
  · exact hargs arg (by simp) runs
  · simp [bindExists]

theorem bindStatus_ne_trueQ {atom : Int → TestStatus → ConcreteQuery}
    (hatom : ∀ id status, atom id status ≠ .trueQ) (product : Option ProductSpec)
    (status : TestStatus) (runs : List TestRun) : bindStatus atom product status runs ≠ .trueQ := by
  unfold bindStatus
  split
  · simp
  · exact hatom _ _
  · simp

mutual

/-- **No `True` below the root**: a well-formed tree never binds to `True`. -/
theorem bindToRuns_ne_trueQ : ∀ q : AbstractQuery, q.WellFormed →
    ∀ runs, bindToRuns fetched q runs ≠ .trueQ
  | .trueQ, hq, _ => absurd hq (by simp [AbstractQuery.WellFormed])
  | .testNamePattern _, _, _ => by simp [bindToRuns]
  | .subtestNamePattern _, _, _ => by simp [bindToRuns]
  | .testPath _, _, _ => by simp [bindToRuns]
  | .testStatusEq product status, _, runs => bindStatus_ne_trueQ (by simp) product status runs
  | .testStatusNeq product status, _, runs => bindStatus_ne_trueQ (by simp) product status runs
  | .abstractNot _, _, _ => by simp [bindToRuns]
  | .abstractOr args, hq, runs =>
    bindOrLoop_ne_trueQ (by simp)
      (List.forall_mem_map.mpr fun arg harg => bindArgs_ne_trueQ args hq.2 arg harg runs)
  | .abstractAnd args, hq, runs =>
    bindAndLoop_ne_trueQ (by simp)
      (List.forall_mem_map.mpr fun arg harg => bindArgs_ne_trueQ args hq.2 arg harg runs)
  | .abstractExists args, hq, runs => bindExists_ne_trueQ (bindArgs_ne_trueQ args hq.2) runs
  | .abstractAll _, _, _ => by simp [bindToRuns, bindAll]
  | .abstractNone _, _, _ => by simp [bindToRuns, bindNone]
  | .abstractSequential _, _, _ => by simp [bindToRuns, bindSequential]
  | .abstractCount _ _, _, _ => by simp [bindToRuns]
  | .abstractLessThan _ _, _, _ => by simp [bindToRuns]
  | .abstractMoreThan _ _, _, _ => by simp [bindToRuns]
  | .abstractLink _, _, _ => by simp [bindToRuns, bindLink]
  | .abstractTriaged _, _, _ => by
    rw [bindToRuns, bindTriaged]
    split <;> simp
  | .abstractTestLabel _, _, _ => by simp [bindToRuns, bindTestLabel]
  | .abstractTestWebFeature _, _, _ => by simp [bindToRuns]
  | .metadataQuality _, _, _ => by simp [bindToRuns]

theorem bindArgs_ne_trueQ : ∀ args : List AbstractQuery, AbstractQuery.ArgsWellFormed args →
    ∀ arg ∈ bindArgs fetched args, ∀ runs, arg runs ≠ .trueQ
  | [], _, _, harg => absurd harg List.not_mem_nil
  | q :: qs, hqs, arg, harg => by
    rcases List.mem_cons.mp harg with rfl | harg
    · exact bindToRuns_ne_trueQ q hqs.1
    · exact bindArgs_ne_trueQ qs hqs.2 arg harg

end

theorem bindArgs_ne_nil {args : List AbstractQuery} (hargs : args ≠ []) :
    bindArgs fetched args ≠ [] := by
  simpa [bindArgs_eq_map] using hargs

mutual

/-- **Binding preserves meaning**, for every well-formed tree. -/
theorem bound_bindToRuns : ∀ q : AbstractQuery, q.WellFormed →
    bound cases row (bindToRuns fetched q) = Holds cases fetched row q
  | .trueQ, hq => absurd hq (by simp [AbstractQuery.WellFormed])
  | .testNamePattern _, _ => rfl
  | .subtestNamePattern _, _ => rfl
  | .testPath _, _ => rfl
  | .testStatusEq _ status, _ => funext fun _ => propext <|
    holds_bindStatus (p := fun re => re = status) fun id => by simp [holds]
  | .testStatusNeq _ status, _ => funext fun _ => propext <|
    holds_bindStatus (p := fun re => re ≠ status) fun id => by simp [holds]
  | .abstractNot arg, hq => by
    rw [Holds, ← bound_bindToRuns arg hq]
    exact funext fun _ => propext (holds_not cases row _)
  | .abstractOr args, hq => by
    rw [Holds, ← bound_bindArgs args hq.2]
    exact funext fun _ => propext bound_bindOr
  -- `bindAnd` is false when it has dropped all its arguments, which needs a `True` among them
  | .abstractAnd args, hq => by
    rw [Holds, ← bound_bindArgs args hq.2]
    exact funext fun runs => propext <| bound_bindAnd (bindArgs_ne_nil fetched hq.1)
      fun arg harg => bindArgs_ne_trueQ fetched args hq.2 arg harg runs
  | .abstractExists args, hq => by
    rw [Holds, ← bound_bindArgs args hq.2]
    exact funext fun _ => propext bound_bindExists
  | .abstractAll args, hq => by
    rw [Holds, ← bound_bindArgs args hq.2]
    exact funext fun _ => propext bound_bindAll
  | .abstractNone args, hq => by
    rw [Holds, ← bound_bindArgs args hq.2]
    exact funext fun _ => propext bound_bindNone
  | .abstractSequential args, hq => by
    rw [Holds, ← bound_bindArgs args hq.2]
    exact funext fun _ => propext bound_bindSequential
  | .abstractCount n arg, hq => by
    rw [Holds, ← bound_bindToRuns arg hq]
    funext runs
    simp only [bound, bindToRuns, holds, count_holdsArgs, countP_bindCount, beq_iff_eq]
  | .abstractLessThan n arg, hq => by
    rw [Holds, ← bound_bindToRuns arg hq]
    funext runs
    simp only [bound, bindToRuns, holds, count_holdsArgs, countP_bindCount, decide_eq_true_eq]
  | .abstractMoreThan n arg, hq => by
    rw [Holds, ← bound_bindToRuns arg hq]
    funext runs
    simp only [bound, bindToRuns, holds, count_holdsArgs, countP_bindCount, decide_eq_true_eq]
  | .abstractLink _, _ => rfl
  | .abstractTriaged _, _ => funext fun _ => propext bound_bindTriaged
  | .abstractTestLabel _, _ => rfl
  | .abstractTestWebFeature _, _ => rfl
  | .metadataQuality _, _ => rfl

theorem bound_bindArgs : ∀ args : List AbstractQuery, AbstractQuery.ArgsWellFormed args →
    (bindArgs fetched args).map (bound cases row) = meanings cases fetched row args
  | [], _ => rfl
  | q :: qs, hqs => by
    rw [bindArgs, meanings, List.map_cons, bound_bindToRuns q hqs.1, bound_bindArgs qs hqs.2]

end

end Trees

/-! ## The runs a bound query asks about

A bound query only asks about the runs it was bound to. The shard prepares the results of these
runs alone, so nothing that a filter looks up is missing. -/

section RunIDs

/-- A binder asks only about the runs it is given. -/
def AsksOnly (arg : Binder) : Prop :=
  ∀ runs, ∀ id ∈ (arg runs).runIDs, id ∈ runs.map TestRun.id

variable {args : List Binder} {runs : List TestRun} {id : Int}

theorem AsksOnly.single {arg : Binder} (h : AsksOnly arg) {run : TestRun} (hrun : run ∈ runs)
    (hid : id ∈ (arg [run]).runIDs) : id ∈ runs.map TestRun.id := by
  have hone := h [run] id hid
  rw [List.map_singleton, List.mem_singleton] at hone
  exact hone ▸ List.mem_map_of_mem hrun

/-- A node over arguments each bound to one of the runs. -/
theorem mem_runs_of_byRun (args : List Binder) (hargs : ∀ arg ∈ args, AsksOnly arg)
    {qs : List ConcreteQuery}
    (hqs : ∀ q ∈ qs, ∃ arg ∈ args, ∃ run ∈ runs, q = arg [run])
    (hid : id ∈ ConcreteQuery.runIDsOfArgs qs) : id ∈ runs.map TestRun.id := by
  obtain ⟨q, hq, hid⟩ := ConcreteQuery.mem_runIDsOfArgs.mp hid
  obtain ⟨arg, harg, run, hrun, rfl⟩ := hqs q hq
  exact (hargs arg harg).single hrun hid

/-- The runs that a bound `exists` looks up are among those it was bound to. -/
theorem asksOnly_bindExists (hargs : ∀ arg ∈ args, AsksOnly arg) : AsksOnly (bindExists args) := by
  intro runs id hid
  have hseveral : id ∈ ConcreteQuery.runIDs (.and (args.map fun arg =>
      .or ((runs.map fun run => arg [run]).filter fun q => !q.isFalse))) →
        id ∈ runs.map TestRun.id := by
    intro hid
    obtain ⟨q, hq, hid⟩ := ConcreteQuery.mem_runIDsOfArgs.mp hid
    obtain ⟨arg, harg, rfl⟩ := List.mem_map.mp hq
    refine mem_runs_of_byRun args hargs (fun q hq => ?_) hid
    obtain ⟨run, hrun, rfl⟩ := List.mem_map.mp (List.mem_filter.mp hq).1
    exact ⟨arg, harg, run, hrun, rfl⟩
  rcases args with _ | ⟨arg, _ | ⟨arg', args⟩⟩
  · exact hseveral hid
  · exact hargs arg (by simp) runs id hid
  · exact hseveral hid

theorem asksOnly_bindAll (hargs : ∀ arg ∈ args, AsksOnly arg) : AsksOnly (bindAll args) := by
  intro runs id hid
  obtain ⟨q, hq, hid⟩ := ConcreteQuery.mem_runIDsOfArgs.mp hid
  obtain ⟨arg, harg, rfl⟩ := List.mem_map.mp hq
  refine mem_runs_of_byRun args hargs (fun q hq => ?_) hid
  obtain ⟨run, hrun, rfl⟩ := List.mem_map.mp (List.mem_filter.mp hq).1
  exact ⟨arg, harg, run, hrun, rfl⟩

theorem asksOnly_bindSequential (hargs : ∀ arg ∈ args, AsksOnly arg) :
    AsksOnly (bindSequential args) := by
  intro runs id hid
  obtain ⟨q, hq, hid⟩ := ConcreteQuery.mem_runIDsOfArgs.mp hid
  obtain ⟨i, _, rfl⟩ := List.mem_map.mp hq
  refine mem_runs_of_byRun args hargs (fun q hq => ?_) hid
  obtain ⟨j, hj, rfl⟩ := List.mem_iff_getElem.mp hq
  rw [List.length_zipWith, lt_min_iff] at hj
  rw [List.getElem_zipWith]
  exact ⟨_, List.getElem_mem hj.1, _, List.mem_of_mem_drop (List.getElem_mem hj.2), rfl⟩

theorem mem_runs_of_bindCount {arg : Binder} (harg : AsksOnly arg)
    (hid : id ∈ ConcreteQuery.runIDsOfArgs (bindCount arg runs)) : id ∈ runs.map TestRun.id := by
  refine mem_runs_of_byRun [arg] (by simpa using harg) (fun q hq => ?_) hid
  obtain ⟨run, hrun, rfl⟩ := List.mem_map.mp hq
  exact ⟨arg, by simp, run, hrun, rfl⟩

/-- A status atom looks up the runs that match its product. -/
theorem asksOnly_bindStatus {atom : Int → TestStatus → ConcreteQuery}
    (hatom : ∀ id status, (atom id status).runIDs = [id]) (product : Option ProductSpec)
    (status : TestStatus) : AsksOnly (bindStatus atom product status) := by
  intro runs id hid
  have hids : ∀ id ∈ (runs.filter (productMatches product)).map TestRun.id,
      id ∈ runs.map TestRun.id := by
    intro id hid
    obtain ⟨run, hrun, rfl⟩ := List.mem_map.mp hid
    exact List.mem_map_of_mem (List.mem_filter.mp hrun).1
  unfold bindStatus at hid
  generalize (runs.filter (productMatches product)).map TestRun.id = ids at hids hid
  rcases ids with _ | ⟨a, _ | ⟨b, ids⟩⟩
  · exact absurd hid (by simp [ConcreteQuery.runIDs])
  · rw [hatom] at hid
    exact hids id hid
  · obtain ⟨q, hq, hid⟩ := ConcreteQuery.mem_runIDsOfArgs.mp hid
    obtain ⟨c, hc, rfl⟩ := List.mem_map.mp hq
    rw [hatom, List.mem_singleton] at hid
    exact hids id (hid ▸ hc)

theorem asksOnly_bindTriaged (fetched : Fetched) (product : Option ProductSpec) :
    AsksOnly (bindTriaged fetched product) := by
  intro runs id hid
  simp only [bindTriaged] at hid
  split_ifs at hid
  · exact absurd hid (by simp [ConcreteQuery.runIDs])
  · obtain ⟨q, hq, hid⟩ := ConcreteQuery.mem_runIDsOfArgs.mp hid
    obtain ⟨run, _, rfl⟩ := List.mem_map.mp hq
    exact absurd hid (by simp [ConcreteQuery.runIDs])

/-- The loops keep arguments or drop them. -/
theorem mem_runs_of_bindOrLoop (kept : List ConcreteQuery) {subs : List ConcreteQuery}
    (h : ∀ q ∈ kept ++ subs, id ∈ q.runIDs → id ∈ runs.map TestRun.id)
    (hid : id ∈ (bindOrLoop kept subs).runIDs) : id ∈ runs.map TestRun.id := by
  induction subs generalizing kept with
  | nil =>
    rw [List.append_nil] at h
    rcases kept with _ | ⟨q, _ | ⟨q', qs⟩⟩
    · exact absurd hid (by simp [bindOrLoop, ConcreteQuery.runIDs])
    · exact h q (by simp) hid
    · obtain ⟨q, hq, hid⟩ := ConcreteQuery.mem_runIDsOfArgs.mp hid
      exact h q hq hid
  | cons sub subs ih =>
    rw [bindOrLoop] at hid
    split_ifs at hid
    · exact h sub (by simp) hid
    · exact ih kept (fun q hq => h q (by simp at hq ⊢; tauto)) hid
    · exact ih (kept ++ [sub]) (by simpa using h) hid

/-- The loop over the arguments of `And` adds no runs to those of the arguments. -/
theorem mem_runs_of_bindAndLoop (kept : List ConcreteQuery) {subs : List ConcreteQuery}
    (h : ∀ q ∈ kept ++ subs, id ∈ q.runIDs → id ∈ runs.map TestRun.id)
    (hid : id ∈ (bindAndLoop kept subs).runIDs) : id ∈ runs.map TestRun.id := by
  induction subs generalizing kept with
  | nil =>
    rw [List.append_nil] at h
    rcases kept with _ | ⟨q, _ | ⟨q', qs⟩⟩
    · exact absurd hid (by simp [bindAndLoop, ConcreteQuery.runIDs])
    · exact h q (by simp) hid
    · obtain ⟨q, hq, hid⟩ := ConcreteQuery.mem_runIDsOfArgs.mp hid
      exact h q hq hid
  | cons sub subs ih =>
    rw [bindAndLoop] at hid
    split_ifs at hid
    · exact absurd hid (by simp [ConcreteQuery.runIDs])
    · exact ih kept (fun q hq => h q (by simp at hq ⊢; tauto)) hid
    · exact ih (kept ++ [sub]) (by simpa using h) hid

mutual

/-- **Bound queries are local**: they look up results of the runs they were
bound to, and of no others. -/
theorem asksOnly_bindToRuns (fetched : Fetched) : ∀ q, AsksOnly (bindToRuns fetched q)
  | .trueQ => fun _ _ hid => absurd hid (by simp [bindToRuns, ConcreteQuery.runIDs])
  | .testNamePattern _ => fun _ _ hid => absurd hid (by simp [bindToRuns, ConcreteQuery.runIDs])
  | .subtestNamePattern _ => fun _ _ hid =>
    absurd hid (by simp [bindToRuns, ConcreteQuery.runIDs])
  | .testPath _ => fun _ _ hid => absurd hid (by simp [bindToRuns, ConcreteQuery.runIDs])
  | .testStatusEq product status =>
    asksOnly_bindStatus (by simp [ConcreteQuery.runIDs]) product status
  | .testStatusNeq product status =>
    asksOnly_bindStatus (by simp [ConcreteQuery.runIDs]) product status
  | .abstractNot arg => asksOnly_bindToRuns fetched arg
  | .abstractOr args => fun runs id hid =>
    mem_runs_of_bindOrLoop [] (List.forall_mem_map.mpr fun arg harg hid =>
      asksOnly_bindArgs fetched args arg harg runs id hid) hid
  | .abstractAnd args => fun runs id hid =>
    mem_runs_of_bindAndLoop [] (List.forall_mem_map.mpr fun arg harg hid =>
      asksOnly_bindArgs fetched args arg harg runs id hid) hid
  | .abstractExists args => asksOnly_bindExists (asksOnly_bindArgs fetched args)
  | .abstractAll args => asksOnly_bindAll (asksOnly_bindArgs fetched args)
  | .abstractNone args => asksOnly_bindExists (asksOnly_bindArgs fetched args)
  | .abstractSequential args => asksOnly_bindSequential (asksOnly_bindArgs fetched args)
  | .abstractCount _ arg => fun _ _ hid =>
    mem_runs_of_bindCount (asksOnly_bindToRuns fetched arg) hid
  | .abstractLessThan _ arg => fun _ _ hid =>
    mem_runs_of_bindCount (asksOnly_bindToRuns fetched arg) hid
  | .abstractMoreThan _ arg => fun _ _ hid =>
    mem_runs_of_bindCount (asksOnly_bindToRuns fetched arg) hid
  | .abstractLink _ => fun _ _ hid =>
    absurd hid (by simp [bindToRuns, bindLink, ConcreteQuery.runIDs])
  | .abstractTriaged product => asksOnly_bindTriaged fetched product
  | .abstractTestLabel _ => fun _ _ hid =>
    absurd hid (by simp [bindToRuns, bindTestLabel, ConcreteQuery.runIDs])
  | .abstractTestWebFeature _ => fun _ _ hid =>
    absurd hid (by simp [bindToRuns, ConcreteQuery.runIDs])
  | .metadataQuality _ => fun _ _ hid => absurd hid (by simp [bindToRuns, ConcreteQuery.runIDs])

theorem asksOnly_bindArgs (fetched : Fetched) : ∀ args : List AbstractQuery,
    ∀ arg ∈ bindArgs fetched args, AsksOnly arg
  | [], _, harg => absurd harg List.not_mem_nil
  | q :: qs, arg, harg => by
    rcases List.mem_cons.mp harg with rfl | harg
    · exact asksOnly_bindToRuns fetched q
    · exact asksOnly_bindArgs fetched qs arg harg

end

end RunIDs

/-- **Filters of bound queries**: over any index that has results for the runs,
the filter built from the bound tree does not panic, and accepts a row exactly
when the tree holds of the runs on it. -/
theorem newFilter_bindToRuns (cases : CaseMapping) (fetched : Fetched) (q : AbstractQuery)
    (hq : q.Decoded) (runs : List TestRun) (idx : Index)
    (hruns : ∀ run ∈ runs, run.id ∈ idx.runResults) (t : TestID) :
    ∃ accepted, newFilter cases idx (bindToRuns fetched q runs) t = some accepted ∧
      (accepted = true ↔ Holds cases fetched (idx.row t) q runs) := by
  have hids : ∀ run ∈ (bindToRuns fetched q runs).runIDs, run ∈ idx.runResults := by
    intro id hid
    obtain ⟨run, hrun, rfl⟩ := List.mem_map.mp (asksOnly_bindToRuns fetched q runs id hid)
    exact hruns run hrun
  refine ⟨_, newFilter_eq cases idx t _ hids, ?_⟩
  rcases hq with rfl | hwell
  · rw [bindToRuns, holds_trueQ, Holds]
    exact iff_of_true rfl trivial
  · exact iff_of_eq (congrFun (bound_bindToRuns cases fetched (idx.row t) q hwell) runs)

/-- A Chrome run and a Firefox run. -/
def chromeAndFirefox : List TestRun :=
  [{ id := 1, browserName := "chrome" }, { id := 2, browserName := "firefox" }]

/-- `exists: [chrome:pass, firefox:fail]`. -/
def passesAndFails : AbstractQuery :=
  .abstractExists [.testStatusEq (some { browserName := "chrome" }) TestStatus.pass,
    .testStatusEq (some { browserName := "firefox" }) TestStatus.fail]

/-- The results of a run with one test. -/
def oneResult (status : TestStatus) : RunResults := Finmap.singleton ⟨7, 0⟩ status

/-- One test that passes in Chrome and fails in Firefox. -/
def chromeAndFirefoxIndex : Index where
  tests := Finmap.singleton ⟨7, 0⟩ ⟨"/a.html", none⟩
  runResults := [⟨1, oneResult TestStatus.pass⟩, ⟨2, oneResult TestStatus.fail⟩].toFinmap

/-- The test is found by looking at each run on its own. -/
theorem holds_passesAndFails :
    Holds ⟨id, (· == ·)⟩ {} (chromeAndFirefoxIndex.row ⟨7, 0⟩) passesAndFails chromeAndFirefox := by
  obtain ⟨accepted, hfilter, hiff⟩ := newFilter_bindToRuns ⟨id, (· == ·)⟩ {} passesAndFails
    (Or.inr (by simp [passesAndFails, AbstractQuery.WellFormed, AbstractQuery.ArgsWellFormed]))
    chromeAndFirefox chromeAndFirefoxIndex (by decide) ⟨7, 0⟩
  have haccepts : newFilter ⟨id, (· == ·)⟩ chromeAndFirefoxIndex
      (bindToRuns {} passesAndFails chromeAndFirefox) ⟨7, 0⟩ = some true := by decide
  exact hiff.mp (Option.some_inj.mp (hfilter.symm.trans haccepts))

end WptFyi.Cache
