import Mathlib

/-!
# Computations that can fail

Go and Python code stops at the first call that fails. A failure is either an error, which
the caller may report, or nothing at all.

The lemmas are for taking a computation apart that is known to have returned, and for loops. A loop
that carries a state and stops at the first failure is `foldTry`, with the usual rule: what holds at
the start and is kept by each round that returns holds at the end. Where the rounds do not depend on
each other for whether they fail, a loop over a list fails exactly if some round does.

- `bind_eq_ok_iff`: both steps of a computation that returned did;
- `foldTry_induction`: what holds after every step of a loop holds when it returns;
- `mapM_eq_some`, `mapM_eq_none`, `foldlM_eq_none`: loops whose rounds do not depend on each
  other for whether they fail.
-/

namespace WptFyi.Lib

variable {ε α β σ : Type*}

theorem bind_eq_ok_iff {ε α β : Type*} {x : Except ε α} {f : α → Except ε β} {b : β} :
    x.bind f = .ok b ↔ ∃ a, x = .ok a ∧ f a = .ok b := by
  cases x with
  | error err => exact ⟨nofun, nofun⟩
  | ok a => exact ⟨fun h => ⟨a, rfl, h⟩, fun ⟨_, rfl, h⟩ => h⟩

/-- A loop whose every round succeeds. -/
theorem mapM_eq_some {α β : Type} {f : α → Option β} {g : α → β} {as : List α}
    (h : ∀ a ∈ as, f a = some (g a)) : as.mapM f = some (as.map g) := by
  induction as with
  | nil => rfl
  | cons a as ih =>
    obtain ⟨ha, has⟩ := List.forall_mem_cons.mp h
    rw [List.mapM_cons, ha, ih has]
    rfl

/-- One round that fails is enough. -/
theorem mapM_eq_none {α β : Type} {f : α → Option β} {as : List α} {a : α} (ha : a ∈ as)
    (h : f a = none) : as.mapM f = none := by
  induction as with
  | nil => exact absurd ha List.not_mem_nil
  | cons b as ih =>
    rw [List.mapM_cons]
    rcases List.mem_cons.mp ha with rfl | ha
    · rw [h]
      rfl
    · rw [ih ha]
      cases f b <;> rfl

/-- A round that fails whatever the state ends the loop. -/
theorem foldlM_eq_none {α σ : Type} {f : σ → α → Option σ} {as : List α} {a : α} (ha : a ∈ as)
    (h : ∀ s, f s a = none) (s : σ) : as.foldlM f s = none := by
  induction as generalizing s with
  | nil => exact absurd ha List.not_mem_nil
  | cons b as ih =>
    rw [List.foldlM_cons]
    rcases List.mem_cons.mp ha with rfl | ha
    · rw [h]
      rfl
    · cases f s b with
      | none => rfl
      | some s => exact ih ha s

/-- A loop that stops at the first failure. -/
def foldTry (f : σ → α → Except ε σ) : σ → List α → Except ε σ
  | s, [] => .ok s
  | s, a :: as => (f s a).bind fun s => foldTry f s as

theorem foldTry_append (f : σ → α → Except ε σ) (s : σ) (as bs : List α) :
    foldTry f s (as ++ bs) = (foldTry f s as).bind fun s => foldTry f s bs := by
  induction as generalizing s with
  | nil => rfl
  | cons a as ih =>
    rw [List.cons_append, foldTry, foldTry]
    cases f s a with
    | error err => rfl
    | ok s => exact ih s

/-- What every step that returns keeps, of the items done so far, holds when the loop returns. -/
theorem foldTry_induction {f : σ → α → Except ε σ} {P : List α → σ → Prop} {s s' : σ}
    {as : List α} (hnil : P [] s)
    (hstep : ∀ (done : List α) (a : α) (s s' : σ), P done s → f s a = .ok s' → P (done ++ [a]) s')
    (h : foldTry f s as = .ok s') : P as s' := by
  suffices hall : ∀ (done : List α) (s : σ), P done s → foldTry f s as = .ok s' →
      P (done ++ as) s' from hall [] s hnil h
  clear hnil h s
  induction as with
  | nil =>
    intro done s hdone hs
    cases hs
    rwa [List.append_nil]
  | cons a as ih =>
    intro done s hdone hs
    obtain ⟨s₁, hfirst, hrest⟩ := bind_eq_ok_iff.mp hs
    have := ih (done ++ [a]) s₁ (hstep done a s s₁ hdone hfirst) hrest
    rwa [List.append_assoc, List.singleton_append] at this

end WptFyi.Lib
