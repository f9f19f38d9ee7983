import WptFyi.Cache.BindSemantics
import WptFyi.Webapp.StructuredDecoding

/-!
# Several root queries in one search

Root queries are combined by `and`, unless all of them are implicit `exists`
queries: then `Root` makes one `exists` of them, and the server asks of each
argument that some single run satisfies it.

The meaning of a search is taken at its end: the structured query is decoded, bound to runs and
evaluated on a row. `Denotes` says the same by recursion on the structured query, so that
equal parts can be replaced. An implicit `exists` has one argument, and the server binds that
argument to all runs; what is wrapped once or twice means the same (`denotes_unwrap`), which is what
makes the statement one about the root queries themselves.

- `Denotes`: what a structured query means once it is decoded and bound, node by
  node for `and`, `or` and `exists`;
- `denotes_unwrap`: an implicit `exists` means what is in it;
- `root_trueOf_iff`: what a search means in terms of its root queries alone.
-/

namespace WptFyi.Webapp

open Lib Shared Query Cache

namespace StructuredQuery

section Meanings

variable (m : CaseTables) (cases : CaseMapping) (fetched : Fetched) (row : Row)

/-- The server decodes the query, and what it binds to the runs is true on the row. -/
def TrueOf (p : StructuredQuery) (runs : List TestRun) : Prop :=
  ∃ q, unmarshalQ m p.toJson = .value q ∧ holds cases row (bindToRuns fetched q runs) = true

/-- What the query means to the server. -/
def Denotes (p : StructuredQuery) (meaning : Meaning) : Prop :=
  ∃ q, Encodes m q p.toJson ∧ meaning = bound cases row (bindToRuns fetched q)

instance (p : StructuredQuery) (runs : List TestRun) :
    Decidable (TrueOf m cases fetched row p runs) :=
  decidable_of_iff ((match unmarshalQ m p.toJson with
    | .value q => holds cases row (bindToRuns fetched q runs)
    | _ => false) = true) <| by
    unfold TrueOf
    split
    · next q heq => simp [heq]
    · next hne =>
      exact iff_of_false Bool.false_ne_true fun ⟨q, hq, _⟩ => hne q hq

variable {m cases fetched row} {ps : List StructuredQuery} {meaning : Meaning}

theorem trueOf_iff {p : StructuredQuery} {runs : List TestRun} :
    TrueOf m cases fetched row p runs ↔
      ∃ meaning, Denotes m cases fetched row p meaning ∧ meaning runs := by
  constructor
  · rintro ⟨q, hq, hholds⟩
    exact ⟨_, ⟨q, unmarshalQ_toJson_iff.mp hq, rfl⟩, hholds⟩
  · rintro ⟨_, ⟨q, hq, rfl⟩, hholds⟩
    exact ⟨q, unmarshalQ_toJson_iff.mpr hq, hholds⟩

/-- A list of queries means what its members do. -/
theorem forall₂_denotes_iff : ∀ {ps : List StructuredQuery} {meanings : List Meaning},
    List.Forall₂ (Denotes m cases fetched row) ps meanings ↔
      ∃ args, EncodesArgs m args (toJsons ps) ∧
        meanings = (bindArgs fetched args).map (bound cases row)
  | [], meanings => by
    rw [List.forall₂_nil_left_iff]
    constructor
    · rintro rfl
      exact ⟨[], trivial, rfl⟩
    · rintro ⟨args, hargs, rfl⟩
      cases args with
      | nil => rfl
      | cons _ _ => exact absurd hargs (by simp [toJsons, EncodesArgs])
  | p :: ps, meanings => by
    rw [List.forall₂_cons_left_iff]
    constructor
    · rintro ⟨_, _, ⟨q, hq, rfl⟩, hmeanings, rfl⟩
      obtain ⟨args, hargs, rfl⟩ := forall₂_denotes_iff.mp hmeanings
      exact ⟨q :: args, ⟨hq, hargs⟩, rfl⟩
    · rintro ⟨args, hargs, rfl⟩
      cases args with
      | nil => exact absurd hargs (by simp [toJsons, EncodesArgs])
      | cons q args =>
        exact ⟨_, _, ⟨q, hargs.1, rfl⟩, forall₂_denotes_iff.mpr ⟨args, hargs.2, rfl⟩, rfl⟩

/-- What a list of arguments means, once for each kind of node. -/
theorem denotes_list {query : List StructuredQuery → StructuredQuery}
    {atom : List AbstractQuery → AbstractQuery} {combined : List Meaning → Meaning}
    (hencodes : ∀ q, Encodes m q (query ps).toJson ↔ EncodesList m ps atom q)
    (hbound : ∀ args, (atom args).WellFormed → bound cases row (bindToRuns fetched (atom args)) =
      combined ((bindArgs fetched args).map (bound cases row))) :
    Denotes m cases fetched row (query ps) meaning ↔ ps ≠ [] ∧
      ∃ meanings, List.Forall₂ (Denotes m cases fetched row) ps meanings ∧
        meaning = combined meanings := by
  constructor
  · rintro ⟨q, hq, rfl⟩
    have hwf := hq.wellFormed
    obtain ⟨hne, args, rfl, hargs⟩ := (hencodes q).mp hq
    exact ⟨hne, _, forall₂_denotes_iff.mpr ⟨args, hargs, rfl⟩, hbound args hwf⟩
  · rintro ⟨hne, _, hmeanings, rfl⟩
    obtain ⟨args, hargs, rfl⟩ := forall₂_denotes_iff.mp hmeanings
    have hq : Encodes m (atom args) (query ps).toJson := (hencodes _).mpr ⟨hne, args, rfl, hargs⟩
    exact ⟨atom args, hq, (hbound args hq.wellFormed).symm⟩

theorem denotes_and : Denotes m cases fetched row (.and ps) meaning ↔ ps ≠ [] ∧
    ∃ meanings, List.Forall₂ (Denotes m cases fetched row) ps meanings ∧
      meaning = fun runs => ∀ arg ∈ meanings, arg runs :=
  denotes_list (fun _ => encodes_toJson) fun args hwf => funext fun runs => propext <|
    bound_bindAnd (bindArgs_ne_nil fetched hwf.1) fun arg harg =>
      bindArgs_ne_trueQ fetched args hwf.2 arg harg runs

theorem denotes_or : Denotes m cases fetched row (.or ps) meaning ↔ ps ≠ [] ∧
    ∃ meanings, List.Forall₂ (Denotes m cases fetched row) ps meanings ∧
      meaning = fun runs => ∃ arg ∈ meanings, arg runs :=
  denotes_list (fun _ => encodes_toJson) fun _ _ => funext fun _ => propext bound_bindOr

theorem denotes_exists : Denotes m cases fetched row (.exists ps) meaning ↔ ps ≠ [] ∧
    ∃ meanings, List.Forall₂ (Denotes m cases fetched row) ps meanings ∧
      meaning = ExistsHolds meanings :=
  denotes_list (fun _ => encodes_toJson) fun _ _ => funext fun _ => propext bound_bindExists

/-- `exists` of one argument is that argument. -/
theorem denotes_exists_single {p : StructuredQuery} :
    Denotes m cases fetched row (.exists [p]) meaning ↔ Denotes m cases fetched row p meaning := by
  rw [denotes_exists]
  constructor
  · rintro ⟨-, meanings, hmeanings, rfl⟩
    cases hmeanings with
    | cons hp hnil =>
      cases hnil
      exact hp
  · intro hp
    exact ⟨List.cons_ne_nil _ _, [meaning], .cons hp .nil, rfl⟩

mutual

/-- **An implicit `exists` means what is in it**, also below `and` and `or`. -/
theorem denotes_unwrap : ∀ {p : StructuredQuery} {meaning : Meaning}, isImplicitExists p = true →
    (Denotes m cases fetched row (unwrap p) meaning ↔ Denotes m cases fetched row p meaning)
  | .exists [_], _, _ => denotes_exists_single.symm
  | .and ps, _, h => by
    rw [unwrap, denotes_and, denotes_and, unwrapAll_ne_nil_iff]
    simp only [forall₂_denotes_unwrapAll h]
  | .or ps, _, h => by
    rw [unwrap, denotes_or, denotes_or, unwrapAll_ne_nil_iff]
    simp only [forall₂_denotes_unwrapAll h]

theorem forall₂_denotes_unwrapAll : ∀ {ps : List StructuredQuery} {meanings : List Meaning},
    everyImplicitExists ps = true →
      (List.Forall₂ (Denotes m cases fetched row) (unwrapAll ps) meanings ↔
        List.Forall₂ (Denotes m cases fetched row) ps meanings)
  | [], _, _ => Iff.rfl
  | p :: ps, _, h => by
    obtain ⟨hp, hps⟩ := Bool.and_eq_true_iff.mp h
    rw [unwrapAll, List.forall₂_cons_left_iff, List.forall₂_cons_left_iff]
    simp only [denotes_unwrap hp, forall₂_denotes_unwrapAll hps]

end

/-- A search of one root query means that query. -/
theorem denotes_root_single {p : StructuredQuery} :
    Denotes m cases fetched row (root [p]) meaning ↔ Denotes m cases fetched row p meaning := by
  unfold root
  rw [if_neg (List.cons_ne_nil _ _)]
  split_ifs with himplicit
  · rw [unwrapAll, unwrapAll, denotes_exists_single]
    exact denotes_unwrap (Bool.and_eq_true_iff.mp himplicit).1
  · exact Iff.rfl

/-- Choosing a meaning for each member of a list. -/
theorem exists_forall₂_iff {α β : Type*} {R : α → β → Prop} {P : β → Prop} :
    ∀ {as : List α}, (∃ bs, List.Forall₂ R as bs ∧ ∀ b ∈ bs, P b) ↔ ∀ a ∈ as, ∃ b, R a b ∧ P b
  | [] => by simp
  | a :: as => by
    rw [List.forall_mem_cons, ← exists_forall₂_iff]
    constructor
    · rintro ⟨_, hrel, hall⟩
      cases hrel with
      | cons hab hrel =>
        obtain ⟨hb, hbs⟩ := List.forall_mem_cons.mp hall
        exact ⟨⟨_, hab, hb⟩, _, hrel, hbs⟩
    · rintro ⟨⟨b, hab, hb⟩, bs, hrel, hbs⟩
      exact ⟨b :: bs, .cons hab hrel, List.forall_mem_cons.mpr ⟨hb, hbs⟩⟩

theorem trueOf_and {runs : List TestRun} (hne : ps ≠ []) :
    TrueOf m cases fetched row (.and ps) runs ↔
      ∀ p ∈ ps, TrueOf m cases fetched row p runs := by
  simp only [trueOf_iff]
  rw [← exists_forall₂_iff]
  constructor
  · rintro ⟨_, hdenotes, hall⟩
    obtain ⟨-, meanings, hmeanings, rfl⟩ := denotes_and.mp hdenotes
    exact ⟨meanings, hmeanings, hall⟩
  · rintro ⟨meanings, hmeanings, hall⟩
    exact ⟨_, denotes_and.mpr ⟨hne, meanings, hmeanings, rfl⟩, hall⟩

/-- Several arguments of `exists`: each is about some single run. -/
theorem trueOf_exists {runs : List TestRun} (hlen : 2 ≤ ps.length) :
    TrueOf m cases fetched row (.exists ps) runs ↔
      ∀ p ∈ ps, ∃ run ∈ runs, TrueOf m cases fetched row p [run] := by
  have hne : ps ≠ [] := by
    rintro rfl
    exact absurd hlen (by decide)
  -- with a single argument `exists` would pass on all runs
  have hseveral : ∀ {meanings : List Meaning},
      List.Forall₂ (Denotes m cases fetched row) ps meanings →
        (ExistsHolds meanings runs ↔ ∀ arg ∈ meanings, ∃ run ∈ runs, arg [run]) := by
    intro meanings hmeanings
    have hlength := hmeanings.length_eq
    unfold ExistsHolds
    split
    · rw [List.length_singleton] at hlength
      omega
    · exact Iff.rfl
  -- an argument denotes one meaning for all runs
  have hswap : ∀ p, (∃ run ∈ runs, TrueOf m cases fetched row p [run]) ↔
      ∃ meaning, Denotes m cases fetched row p meaning ∧ ∃ run ∈ runs, meaning [run] := by
    intro p
    simp only [trueOf_iff]
    constructor
    · rintro ⟨run, hrun, meaning, hdenotes, hholds⟩
      exact ⟨meaning, hdenotes, run, hrun, hholds⟩
    · rintro ⟨meaning, hdenotes, run, hrun, hholds⟩
      exact ⟨run, hrun, meaning, hdenotes, hholds⟩
  simp only [hswap]
  rw [← exists_forall₂_iff, trueOf_iff]
  constructor
  · rintro ⟨_, hdenotes, hholds⟩
    obtain ⟨-, meanings, hmeanings, rfl⟩ := denotes_exists.mp hdenotes
    exact ⟨meanings, hmeanings, (hseveral hmeanings).mp hholds⟩
  · rintro ⟨meanings, hmeanings, hall⟩
    exact ⟨_, denotes_exists.mpr ⟨hne, meanings, hmeanings, rfl⟩, (hseveral hmeanings).mpr hall⟩

/-- What two or more queries at the root mean, in terms of each alone. -/
theorem trueOf_root_iff {runs : List TestRun} (hlen : 2 ≤ ps.length) :
    TrueOf m cases fetched row (root ps) runs ↔
      if everyImplicitExists ps then
        ∀ p ∈ ps, ∃ run ∈ runs, TrueOf m cases fetched row (root [p]) [run]
      else ∀ p ∈ ps, TrueOf m cases fetched row (root [p]) runs := by
  have halone : ∀ p runs, TrueOf m cases fetched row (root [p]) runs ↔
      TrueOf m cases fetched row p runs := by
    intro p runs
    simp only [trueOf_iff, denotes_root_single]
  have hne : ps ≠ [] := by
    rintro rfl
    exact absurd hlen (by decide)
  simp only [halone]
  unfold root
  rw [if_neg hne]
  split_ifs with himplicit
  · rw [unwrapAll_eq_map, trueOf_exists (by rwa [List.length_map]), List.forall_mem_map]
    refine forall₂_congr fun p hp => ?_
    simp only [trueOf_iff, denotes_unwrap (everyImplicitExists_iff.mp himplicit p hp)]
  · rw [← trueOf_and hne]
    split
    · exact absurd hlen (by simp)
    · exact Iff.rfl

end Meanings

end StructuredQuery

section Roots

variable {m : CaseTables} (cases : CaseMapping) (fetched : Fetched) (row : Row)

open StructuredQuery (TrueOf isImplicitExists)

/-- **Two or more root queries.** Unless all are implicit `exists` queries, each has to
be true of the runs separately; if they are, each has to be true of some single run. -/
theorem root_trueOf_iff (qs : Root m) (hlen : 2 ≤ qs.length) (runs : List TestRun) :
    TrueOf m cases fetched row qs.eval runs ↔
      if ∀ q ∈ qs, isImplicitExists q.eval = true then
        ∀ q ∈ qs, ∃ run ∈ runs, TrueOf m cases fetched row (Root.eval [q]) [run]
      else ∀ q ∈ qs, TrueOf m cases fetched row (Root.eval [q]) runs := by
  rw [Root.eval, OrQ.evals_eq_map, StructuredQuery.trueOf_root_iff (by rwa [List.length_map])]
  simp only [StructuredQuery.everyImplicitExists_iff, List.forall_mem_map]
  rfl

/-! ### Two runs -/

/-- `status:pass and status:fail`. -/
def passAndFail : OrQ ⟨.ascii, .ascii⟩ :=
  .list (.list (.existsImplicit (.fragment (.atom (.statusEq ⟨"pass", "pass", by decide, rfl⟩))))
    [.existsImplicit (.fragment (.atom (.statusEq ⟨"fail", "fail", by decide, rfl⟩)))]) []

/-- `dom`. -/
def domTests : OrQ ⟨.ascii, .ascii⟩ :=
  .list (.list (.existsImplicit (.fragment (.atom (.patternExp ⟨"dom", by decide⟩)))) []) []

/-- `none(status:timeout)`. -/
def noTimeout : OrQ ⟨.ascii, .ascii⟩ :=
  .list (.list (.none [.list (.list (.fragment (.atom
    (.statusEq ⟨"timeout", "timeout", by decide, rfl⟩))) []) []]) []) []

/-- A test that passes in the first run and fails in the second. -/
def mixedRow : Row where
  name := some ⟨"/dom/a.html", none⟩
  result run := if run = 1 then TestStatus.pass else TestStatus.fail
  runs := {1, 2}

def twoRuns : List TestRun :=
  [{ browserName := "chrome", revision := "", id := 1 },
    { browserName := "firefox", revision := "", id := 2 }]

/-- A root query that is not an implicit `exists`: both are asked separately. -/
theorem root_trueOf_iff_noTimeout :
    TrueOf ⟨.ascii, .ascii⟩ ⟨id, (· == ·)⟩ {} mixedRow (Root.eval [passAndFail, noTimeout])
        twoRuns ↔
      if ∀ q ∈ [passAndFail, noTimeout], isImplicitExists q.eval = true then
        ∀ q ∈ [passAndFail, noTimeout], ∃ run ∈ twoRuns,
          TrueOf ⟨.ascii, .ascii⟩ ⟨id, (· == ·)⟩ {} mixedRow (Root.eval [q]) [run]
      else ∀ q ∈ [passAndFail, noTimeout],
        TrueOf ⟨.ascii, .ascii⟩ ⟨id, (· == ·)⟩ {} mixedRow (Root.eval [q]) twoRuns :=
  root_trueOf_iff _ _ _ [passAndFail, noTimeout] (by decide) twoRuns

/-- Two implicit `exists` queries that are true separately and not together: no single
run both passes and fails. -/
theorem not_trueOf_root_separately :
    ¬ ∀ (qs : Root ⟨.ascii, .ascii⟩) (runs : List TestRun) (row : Row), 2 ≤ qs.length →
      (TrueOf ⟨.ascii, .ascii⟩ ⟨id, (· == ·)⟩ {} row qs.eval runs ↔
        ∀ q ∈ qs, TrueOf ⟨.ascii, .ascii⟩ ⟨id, (· == ·)⟩ {} row (Root.eval [q]) runs) := by
  intro h
  have hsame := h [passAndFail, domTests] twoRuns mixedRow (by decide)
  revert hsame
  decide +kernel

end Roots

end WptFyi.Webapp
