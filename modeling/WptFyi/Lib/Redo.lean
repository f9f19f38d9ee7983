import WptFyi.Lib.GoMap

/-!
# Work that is done again

Pieces of work write into one map, one piece after the other, each the values of
its own keys. A piece may be interrupted when it has written some of them, and work
that was done already may be done again from an earlier piece on.

What the map has then is said for a point between finished and unfinished work:
`Reached` asks for the right values of those keys only that no unfinished piece
writes. So a point that was reached stays reached while the next piece writes, and
every earlier point was reached as well; with nothing left to do it is equality.

This is what makes a restart harmless: the program may be anywhere past the point that it
remembers, with some keys of later pieces written and others not, and all of it is allowed by
`Reached`. Redoing the pieces in their order then overwrites every such key with the value it
should have.

- `workedOff`: what the pieces leave;
- `Reached`: what the map has at a point;
- `Reached.back`, `Reached.advance`: to an earlier point, and to a later one.
-/

namespace WptFyi.Lib

universe u v

namespace Redo

variable {κ : Type u} {ν : Type v} [DecidableEq κ]

/-- What the pieces of work leave, one after the other. -/
def workedOff (base : GoMap κ ν) (works : List (GoMap κ ν)) : GoMap κ ν :=
  works.foldl (fun m work => work ∪ m) base

theorem workedOff_append (base : GoMap κ ν) (works works' : List (GoMap κ ν)) :
    workedOff base (works ++ works') = workedOff (workedOff base works) works' := List.foldl_append

/-- A key that no piece writes keeps its value. -/
theorem lookup_workedOff_of_notMem {base : GoMap κ ν} {works : List (GoMap κ ν)} {k : κ}
    (hk : ∀ work ∈ works, k ∉ work) : (workedOff base works).lookup k = base.lookup k := by
  induction works generalizing base with
  | nil => rfl
  | cons work works ih =>
    obtain ⟨hwork, hworks⟩ := List.forall_mem_cons.mp hk
    show (workedOff (work ∪ base) works).lookup k = base.lookup k
    rw [ih hworks, Finmap.lookup_union_right hwork]

/-- A key has the value of the last piece that writes it, so also any value that all
of these pieces give it. -/
theorem lookup_workedOff_of_mem {base : GoMap κ ν} {works : List (GoMap κ ν)} {k : κ}
    {value : Option ν} (hk : ∃ work ∈ works, k ∈ work)
    (hvalue : ∀ work ∈ works, k ∈ work → work.lookup k = value) :
    (workedOff base works).lookup k = value := by
  induction works using List.reverseRecOn with
  | nil =>
    obtain ⟨work, hwork, -⟩ := hk
    exact absurd hwork List.not_mem_nil
  | append_singleton works last ih =>
    have hlast : last ∈ works ++ [last] := List.mem_append_right _ List.mem_cons_self
    rw [workedOff_append]
    show (last ∪ workedOff base works).lookup k = value
    by_cases hmem : k ∈ last
    · rw [Finmap.lookup_union_left hmem]
      exact hvalue last hlast hmem
    · -- the last piece leaves the key alone, so an earlier one writes it
      obtain ⟨work, hwork, hkwork⟩ := hk
      have hearlier : work ∈ works := by
        rcases List.mem_append.mp hwork with hwork | hwork
        · exact hwork
        · rw [List.mem_singleton.mp hwork] at hkwork
          exact absurd hkwork hmem
      rw [Finmap.lookup_union_right hmem]
      exact ih ⟨work, hearlier, hkwork⟩
        fun w hw => hvalue w (List.mem_append_left _ hw)

/-- **The point between `finished` and `todo` is reached**: a key that no unfinished piece
writes has the value that the finished ones left. -/
def Reached (base : GoMap κ ν) (finished todo : List (GoMap κ ν)) (m : GoMap κ ν) : Prop :=
  ∀ k, (∀ work ∈ todo, k ∉ work) → m.lookup k = (workedOff base finished).lookup k

theorem reached_nil (base : GoMap κ ν) (todo : List (GoMap κ ν)) : Reached base [] todo base :=
  fun _ _ => rfl

variable {base m m' : GoMap κ ν} {finished mid todo : List (GoMap κ ν)}

/-- Writing keys of unfinished work changes nothing. -/
theorem Reached.write (h : Reached base finished todo m)
    (hm : ∀ k, (∀ work ∈ todo, k ∉ work) → m'.lookup k = m.lookup k) :
    Reached base finished todo m' := fun k hk => (hm k hk).trans (h k hk)

/-- **Going back** to an earlier point. -/
theorem Reached.back (h : Reached base (finished ++ mid) todo m) :
    Reached base finished (mid ++ todo) m := by
  intro k hk
  have hmid : ∀ work ∈ mid, k ∉ work := fun work hwork => hk work (List.mem_append_left _ hwork)
  rw [h k fun work hwork => hk work (List.mem_append_right _ hwork), workedOff_append,
    lookup_workedOff_of_notMem hmid]

/-- **Going on** once the keys of the next pieces all have their values. -/
theorem Reached.advance (h : Reached base finished (mid ++ todo) m)
    (hmid : ∀ work ∈ mid, ∀ k ∈ work, m.lookup k = work.lookup k) :
    Reached base (finished ++ mid) todo m := by
  intro k hk
  by_cases hwritten : ∃ work ∈ mid, k ∈ work
  · rw [workedOff_append]
    exact (lookup_workedOff_of_mem hwritten
      fun work hwork hkwork => (hmid work hwork k hkwork).symm).symm
  · have hmidk : ∀ work ∈ mid, k ∉ work := fun work hwork hkwork => hwritten ⟨work, hwork, hkwork⟩
    rw [workedOff_append, lookup_workedOff_of_notMem hmidk]
    refine h k fun work hwork => ?_
    exact (List.mem_append.mp hwork).elim (hmidk work) (hk work)

/-- With nothing left to do the map is what the work leaves. -/
theorem Reached.eq (h : Reached base finished [] m) : m = workedOff base finished :=
  Finmap.ext_lookup fun k => h k fun _ hwork => absurd hwork List.not_mem_nil

end Redo

end WptFyi.Lib
