import Mathlib

/-!
# Runs of a labelled step function

A component is given by a partial step function `step : σ → α → Option σ`: the
label resolves every choice (which thread moves, which victims an eviction
picks, what a loader returned) and `none` says that the labelled move is not
enabled. A run is a list of labels executed from left to right.

With the choices in the labels the step is a function, so a run can be evaluated, and what holds
for every list of labels holds for every interleaving and every behaviour of the surroundings. A
property of the runs of some kind only is one of the labels and the states before them,
`EachMeets`; such a condition can be decided on a given run and says nothing about the states that
come out.

The rules are packaged once and used by name afterwards:

- `Run.invariant`: what one step preserves, every run preserves;
- `Run.simulates`: a step-wise simulation lifts to whole runs;
- `Reachable.invariant`: the two-goal rule (initial state, one step) for
  reachable states; `ReachableWith.invariant` for runs whose steps meet a
  condition;
- `EachMeets`: each step of a run meets a condition on its label and the state
  before it; `run_of_eachMeets` is the invariant rule for such runs.
-/

namespace WptFyi.Lib

universe u v w

variable {σ : Type u} {α : Type v} {τ : Type w}

/-- Execute a list of labels; `none` as soon as one of them is not enabled. -/
def run (step : σ → α → Option σ) (s : σ) (acts : List α) : Option σ :=
  acts.foldlM step s

@[simp] theorem run_nil (step : σ → α → Option σ) (s : σ) : run step s [] = some s := rfl

@[simp] theorem run_cons (step : σ → α → Option σ) (s : σ) (a : α) (acts : List α) :
    run step s (a :: acts) = (step s a).bind fun s' => run step s' acts := rfl

theorem run_append (step : σ → α → Option σ) (s : σ) (as bs : List α) :
    run step s (as ++ bs) = (run step s as).bind fun s' => run step s' bs := by
  rw [run, List.foldlM_append]
  rfl

theorem run_snoc (step : σ → α → Option σ) (s : σ) (as : List α) (a : α) :
    run step s (as ++ [a]) = (run step s as).bind fun s' => step s' a := by
  rw [run_append]
  congr 1
  funext s'
  show (step s' a).bind some = step s' a
  cases step s' a <;> rfl

/-- A state some run from `s₀` ends in. -/
def Reachable (step : σ → α → Option σ) (s₀ s : σ) : Prop :=
  ∃ acts, run step s₀ acts = some s

namespace Run

/-- **Invariant rule**: a property preserved by each step is preserved by
every run. -/
theorem invariant {step : σ → α → Option σ} {Inv : σ → Prop}
    (hstep : ∀ {s a s'}, Inv s → step s a = some s' → Inv s')
    {acts : List α} {s s' : σ} (h : Inv s) (hrun : run step s acts = some s') : Inv s' := by
  induction acts generalizing s with
  | nil =>
    cases hrun
    exact h
  | cons a acts ih =>
    rw [run_cons] at hrun
    obtain ⟨s₁, hs₁, hrest⟩ := Option.bind_eq_some_iff.mp hrun
    exact ih (hstep h hs₁) hrest

/-- The same for runs whose labels all satisfy a condition. -/
theorem invariant_of_forall {step : σ → α → Option σ} {Inv : σ → Prop} {P : α → Prop}
    (hstep : ∀ {s a s'}, Inv s → P a → step s a = some s' → Inv s')
    {acts : List α} (hacts : ∀ a ∈ acts, P a) {s s' : σ} (h : Inv s)
    (hrun : run step s acts = some s') : Inv s' := by
  induction acts generalizing s with
  | nil =>
    cases hrun
    exact h
  | cons a acts ih =>
    obtain ⟨ha, hacts⟩ := List.forall_mem_cons.mp hacts
    rw [run_cons] at hrun
    obtain ⟨s₁, hs₁, hrest⟩ := Option.bind_eq_some_iff.mp hrun
    exact ih hacts (hstep h ha hs₁) hrest

/-- **Simulation rule**: if every concrete step whose label satisfies the condition is
matched by the abstract step on its image, every concrete run of such labels is matched
by an abstract run. -/
theorem simulates {β : Type*} {step : σ → α → Option σ} {astep : τ → β → Option τ}
    {R : σ → τ → Prop} {P : α → Prop} {g : α → β}
    (hstep : ∀ {s a s' t}, R s t → P a → step s a = some s' →
      ∃ t', astep t (g a) = some t' ∧ R s' t')
    {acts : List α} (hacts : ∀ a ∈ acts, P a) {s s' : σ} {t : τ} (h : R s t)
    (hrun : run step s acts = some s') : ∃ t', run astep t (acts.map g) = some t' ∧ R s' t' := by
  induction acts generalizing s t with
  | nil =>
    cases hrun
    exact ⟨t, rfl, h⟩
  | cons a acts ih =>
    obtain ⟨ha, hacts⟩ := List.forall_mem_cons.mp hacts
    rw [run_cons] at hrun
    obtain ⟨s₁, hs₁, hrest⟩ := Option.bind_eq_some_iff.mp hrun
    obtain ⟨t₁, ht₁, hR⟩ := hstep h ha hs₁
    obtain ⟨t', ht', hR'⟩ := ih hacts hR hrest
    refine ⟨t', ?_, hR'⟩
    rw [List.map_cons, run_cons, ht₁]
    exact ht'

end Run

/-- **Reachability rule**: an initial state and one step suffice. -/
theorem Reachable.invariant {step : σ → α → Option σ} {Inv : σ → Prop} {s₀ s : σ}
    (hinit : Inv s₀) (hstep : ∀ {s a s'}, Inv s → step s a = some s' → Inv s')
    (h : Reachable step s₀ s) : Inv s := by
  obtain ⟨acts, hrun⟩ := h
  exact Run.invariant hstep hinit hrun

/-- A state that a run from `s₀` ends in, each step of which met a condition on the
label and the state before it. -/
inductive ReachableWith (step : σ → α → Option σ) (cond : σ → α → Prop) (s₀ : σ) : σ → Prop where
  | init : ReachableWith step cond s₀ s₀
  | step {s s' : σ} {a : α} : ReachableWith step cond s₀ s → cond s a → step s a = some s' →
      ReachableWith step cond s₀ s'

/-- The same rule, where the step may use the condition. -/
theorem ReachableWith.invariant {step : σ → α → Option σ} {cond : σ → α → Prop} {Inv : σ → Prop}
    {s₀ s : σ} (hinit : Inv s₀)
    (hstep : ∀ {s a s'}, Inv s → cond s a → step s a = some s' → Inv s')
    (h : ReachableWith step cond s₀ s) : Inv s := by
  induction h with
  | init => exact hinit
  | step _ hcond hs ih => exact hstep ih hcond hs

/-- Labels that meet the condition in every state lead on. -/
theorem ReachableWith.run {step : σ → α → Option σ} {cond : σ → α → Prop} {s₀ s s' : σ}
    (h : ReachableWith step cond s₀ s) {acts : List α} (hacts : ∀ a ∈ acts, ∀ s, cond s a)
    (hrun : Lib.run step s acts = some s') : ReachableWith step cond s₀ s' := by
  induction acts generalizing s with
  | nil =>
    cases hrun
    exact h
  | cons a acts ih =>
    obtain ⟨ha, hacts⟩ := List.forall_mem_cons.mp hacts
    rw [run_cons] at hrun
    obtain ⟨s₁, hs₁, hrest⟩ := Option.bind_eq_some_iff.mp hrun
    exact ih (h.step (ha s) hs₁) hacts hrest

/-- Each step of a run meets a condition on its label and the state before it. -/
def EachMeets (step : σ → α → Option σ) (cond : σ → α → Prop) (s : σ) : List α → Prop
  | [] => True
  | a :: acts => cond s a ∧ ∀ s' ∈ step s a, EachMeets step cond s' acts

instance EachMeets.decidable (step : σ → α → Option σ) (cond : σ → α → Prop)
    [∀ s a, Decidable (cond s a)] : ∀ (s : σ) (acts : List α),
      Decidable (EachMeets step cond s acts)
  | _, [] => .isTrue trivial
  | s, a :: acts =>
    have : DecidablePred fun s' => EachMeets step cond s' acts :=
      fun s' => EachMeets.decidable step cond s' acts
    inferInstanceAs (Decidable (cond s a ∧ ∀ s' ∈ step s a, EachMeets step cond s' acts))

/-- A run whose steps meet the condition leads on. -/
theorem ReachableWith.run_of_eachMeets {step : σ → α → Option σ} {cond : σ → α → Prop}
    {s₀ s s' : σ} (h : ReachableWith step cond s₀ s) {acts : List α}
    (hacts : EachMeets step cond s acts) (hrun : Lib.run step s acts = some s') :
    ReachableWith step cond s₀ s' := by
  induction acts generalizing s with
  | nil =>
    cases hrun
    exact h
  | cons a acts ih =>
    obtain ⟨ha, hacts⟩ := hacts
    rw [run_cons] at hrun
    obtain ⟨s₁, hs₁, hrest⟩ := Option.bind_eq_some_iff.mp hrun
    exact ih (h.step ha hs₁) (hacts s₁ hs₁) hrest

/-- A weaker condition lets more be reached. -/
theorem ReachableWith.mono {step : σ → α → Option σ} {cond cond' : σ → α → Prop} {s₀ s : σ}
    (hcond : ∀ s a, cond s a → cond' s a) (h : ReachableWith step cond s₀ s) :
    ReachableWith step cond' s₀ s := by
  induction h with
  | init => exact .init
  | step _ hc hs ih => exact .step ih (hcond _ _ hc) hs

end WptFyi.Lib
