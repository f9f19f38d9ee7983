import Mathlib

/-!
# Timelines

Values noted one after the other, drawn as bars: each lasts until the next one was noted, the last
one until a common end. A time may be unknown, and a bar with such an end covers nothing.

The notes of a timeline may come from a program that is still adding some. What it has added later
does not change what is drawn over a time in the past: the bar that covers this time begins at the
last note before it, and it only matters that all further notes lie after that time. Notes of one
time among the earlier ones, or among the later ones, do no harm either.

- `eq_of_perm_of_lt`: notes of distinct times have one order, however they are sorted;
- `bars`: the bars of a list of notes; `mapIdx_bars`: as a loop that looks at the next note;
- `covering_bars_append`: when the notes of a prefix are past and all others to come, the bar at
  that time is the one of the last note of the prefix, whatever the order within the two parts.
-/

namespace WptFyi.Lib

universe u v w

/-- A value and the time that it lasted. -/
structure Bar (τ : Type u) (α : Type v) where
  value : α
  start : Option τ
  stop : Option τ

namespace Bar

variable {τ : Type u} {α : Type v} [LinearOrder τ]

/-- The bar is over a time: it does not have its end. -/
def covers (t : τ) (bar : Bar τ α) : Bool :=
  bar.start.any (fun s => decide (s ≤ t)) && bar.stop.any fun s => decide (t < s)

theorem covers_iff {t : τ} {bar : Bar τ α} : bar.covers t = true ↔
    ∃ s s', bar.start = some s ∧ bar.stop = some s' ∧ s ≤ t ∧ t < s' := by
  rw [covers, Bool.and_eq_true, Option.any_eq_true, Option.any_eq_true]
  simp only [decide_eq_true_iff]
  constructor
  · rintro ⟨⟨s, hs, hle⟩, s', hs', hlt⟩
    exact ⟨s, s', hs, hs', hle, hlt⟩
  · rintro ⟨s, s', hs, hs', hle, hlt⟩
    exact ⟨⟨s, hs, hle⟩, s', hs', hlt⟩

end Bar

namespace Timeline

/-- Sorting gives back what is in strict order, also when it does not keep the order of equals. -/
theorem eq_of_perm_of_lt {τ : Type u} {α : Type v} [LinearOrder τ] {time : α → τ}
    {sorted notes : List α} (hperm : sorted.Perm notes)
    (hsorted : sorted.Pairwise fun a b => ¬ time b < time a)
    (hnotes : notes.Pairwise fun a b => time a < time b) : sorted = notes := by
  have hnodup : (sorted.map time).Nodup := by
    rw [(hperm.map time).nodup_iff]
    exact List.pairwise_map.mpr (hnotes.imp fun hlt => hlt.ne)
  have hstrict : sorted.Pairwise fun a b => time a < time b :=
    (hsorted.and (List.pairwise_map.mp hnodup)).imp fun h => (not_lt.mp h.1).lt_of_ne h.2
  exact hperm.eq_of_pairwise (fun a b _ _ hlt hgt => absurd hlt hgt.asymm) hstrict hnotes

variable {τ : Type u} {α : Type v} {β : Type w} (start : α → Option τ) (stop : Option τ)

/-- Where the bar before these notes ends. -/
def stopOf (notes : List α) : Option τ := (notes.head?.map start).getD stop

/-- The bars of the notes. -/
def bars : List α → List (Bar τ α)
  | [] => []
  | note :: notes => ⟨note, start note, stopOf start stop notes⟩ :: bars notes

@[simp] theorem bars_nil : bars start stop [] = [] := rfl

@[simp] theorem bars_cons (note : α) (notes : List α) : bars start stop (note :: notes) =
    ⟨note, start note, stopOf start stop notes⟩ :: bars start stop notes := rfl

@[simp] theorem map_value_bars (notes : List α) :
    (bars start stop notes).map Bar.value = notes := by
  induction notes with
  | nil => rfl
  | cons note notes ih => rw [bars_cons, List.map_cons, ih]

theorem value_mem_of_mem_bars {notes : List α} {bar : Bar τ α} (h : bar ∈ bars start stop notes) :
    bar.value ∈ notes := by
  rw [← map_value_bars start stop notes]
  exact List.mem_map_of_mem h

theorem start_of_mem_bars {notes : List α} {bar : Bar τ α} (h : bar ∈ bars start stop notes) :
    bar.start = start bar.value := by
  induction notes with
  | nil => cases h
  | cons note notes ih =>
    rcases List.mem_cons.mp h with rfl | h
    · rfl
    · exact ih h

/-- A loop over the positions that looks at the next note. -/
theorem mapIdx_bars (f : α → Option τ → β) (notes : List α) :
    (notes.mapIdx fun i note => f note ((notes[i + 1]?.map start).getD stop)) =
      (bars start stop notes).map fun bar => f bar.value bar.stop := by
  induction notes with
  | nil => rfl
  | cons note notes ih =>
    rw [List.mapIdx_cons, bars_cons, List.map_cons]
    refine congrArg₂ _ ?_ ih
    show f note ((notes[0]?.map start).getD stop) = f note (stopOf start stop notes)
    rw [stopOf, List.head?_eq_getElem?]

variable [LinearOrder τ] {start stop} {t : τ}

/-- A bar that starts later is not over the time. -/
theorem covers_eq_false {bar : Bar τ α} (h : ∀ s, bar.start = some s → t < s) :
    bar.covers t = false := by
  rw [← Bool.not_eq_true, Bar.covers_iff]
  rintro ⟨s, -, hs, -, hle, -⟩
  exact absurd (h s hs) (not_lt.mpr hle)

/-- Before all notes there is no bar. -/
theorem covering_bars_of_later {notes : List α}
    (h : ∀ note ∈ notes, ∀ s, start note = some s → t < s) :
    (bars start stop notes).filter (Bar.covers t) = [] := by
  refine List.filter_eq_nil_iff.mpr fun bar hbar => ?_
  have hvalue := value_mem_of_mem_bars start stop hbar
  rw [covers_eq_false fun s hs => h _ hvalue s ((start_of_mem_bars start stop hbar).symm.trans hs)]
  exact Bool.false_ne_true

/-- **The bar at a time** is that of the last note before it. -/
theorem covering_bars_append {past later : List α}
    (hpast : ∀ note ∈ past, ∃ s, start note = some s ∧ s ≤ t)
    (hlater : ∀ note ∈ later, ∃ s, start note = some s ∧ t < s)
    (hstop : ∃ s, stop = some s ∧ t < s) :
    ((bars start stop (past ++ later)).filter (Bar.covers t)).map Bar.value =
      past.getLast?.toList := by
  have hnone : (bars start stop later).filter (Bar.covers t) = [] :=
    covering_bars_of_later fun note hnote s hs => by
      obtain ⟨s', hs', hlt⟩ := hlater note hnote
      cases hs.symm.trans hs'
      exact hlt
  induction past with
  | nil => rw [List.nil_append, hnone]; rfl
  | cons note past ih =>
    obtain ⟨hnote, hpast⟩ := List.forall_mem_cons.mp hpast
    rw [List.cons_append, bars_cons, List.filter_cons]
    cases past with
    | nil =>
      -- the last note of the past: what comes next is later
      obtain ⟨s, hs, hle⟩ := hnote
      have hend : ∃ s, stopOf start stop later = some s ∧ t < s := by
        cases later with
        | nil => exact hstop
        | cons next later => exact hlater next List.mem_cons_self
      obtain ⟨s', hs', hlt⟩ := hend
      rw [if_pos (Bar.covers_iff.mpr ⟨s, s', hs, hs', hle, hlt⟩), List.nil_append, hnone]
      rfl
    | cons next past =>
      -- the next note is past, too
      obtain ⟨s', hs', hle⟩ := hpast next List.mem_cons_self
      have hover : Bar.covers t ⟨note, start note, stopOf start stop (next :: past ++ later)⟩ =
          false := by
        rw [← Bool.not_eq_true, Bar.covers_iff]
        rintro ⟨s, s'', -, hs'', -, hlt⟩
        cases hs'.symm.trans hs''
        exact absurd hlt (not_lt.mpr hle)
      rw [hover, if_neg Bool.false_ne_true, ih hpast]
      rfl

end Timeline

end WptFyi.Lib
