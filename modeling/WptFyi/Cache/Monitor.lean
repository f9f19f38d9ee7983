import WptFyi.Lib.Runs

/-!
# The monitor of the index (`api/query/cache/monitor/monitor.go`)

Any number of goroutines call `Start` and `Stop` of one monitor and `IngestRun`
of its index. A step is one read or write of `isRunning`, `runIngested` or the
channel that the index was given; a read under the mutex takes it, and the last
write under it releases it. Channels are numbered in the order they are made.

The monitor and the index meet in two unsynchronized variables, so what a loop knows of them is
true only until a `Stop`. The first invariant, `Inv`, says what each place in the code knows: as
long as the monitor runs, a loop past `SetIngestChan` has the index on the channel it will select
(`Current`), which is kept because nobody else is in a loop that could set it, and because only the
holder of the mutex writes `isRunning` or makes a channel. A second loop would break both, hence
the condition that every `Start` that succeeds starts alone. The second invariant, `InvSends`, adds
the calls of `IngestRun`: whoever sends does so on the channel of a loop that is there. A `Stop`
takes that loop away, so it must find nobody sending, and after it nobody may read the channel of
the index before the next loop has set it.

- `step`: what one goroutine does next;
- `Safe`: one loop at a time, which receives from where the index sends;
- `Moves`: what a step can do, one constructor for each read and write;
- `Inv.moves`, `InvSends.moves`: each constructor keeps the invariants;
- `safe_of_careful`, `not_atMostOneLoop_of_step`: the runs in which it holds.

`check`, which evicts runs, uses none of the three and is left out.
-/

namespace WptFyi.Cache.Monitor

open Lib

/-! ## Goroutines

A goroutine is where it stands in `Start`, `Stop`, `IngestRun` or the loop. A send without a
receiver waits, and a channel that nobody reads keeps it waiting. -/

abbrev ThreadID := Nat

abbrev Chan := Nat

/-- Where a goroutine is. -/
inductive Pc where
  | idle
  /-- `start`, at the mutex. -/
  | startRead
  | startWrite
  /-- `m.idx.SetIngestChan(m.runIngested)`: the argument, then the assignment. -/
  | readChan
  | setChan (c : Chan)
  /-- The outer loop, at `if !m.isRunning`. -/
  | loop
  /-- The inner loop, which evaluates the channels of `select` and then waits. -/
  | select (reqs : Nat)
  | waiting (c : Chan) (reqs : Nat)
  /-- `Stop`, at the mutex. -/
  | stopRead
  | stopWrite
  | stopChan
  /-- `IngestRun`, at `if i.c != nil`. -/
  | ingestCheck
  | ingestRead
  /-- Sending on a channel; on nil that never ends. -/
  | sending (c : Option Chan)
deriving DecidableEq

/-- A `Start` whose `start` succeeded and which has not returned. -/
def Pc.Live : Pc → Prop
  | .readChan | .setChan _ | .loop | .select _ | .waiting _ _ => True
  | _ => False

/-- The goroutine holds the mutex. -/
def Pc.Holds : Pc → Prop
  | .startWrite | .stopWrite | .stopChan => True
  | _ => False

instance : DecidablePred Pc.Live := fun p => by unfold Pc.Live; split <;> infer_instance

instance : DecidablePred Pc.Holds := fun p => by unfold Pc.Holds; split <;> infer_instance

structure State where
  isRunning : Bool
  runIngested : Chan
  /-- The channel of the index, nil until it is set. -/
  ingestChan : Option Chan
  locked : Bool
  nextChan : Chan
  pc : ThreadID → Pc

namespace State

def setPc (s : State) (t : ThreadID) (p : Pc) : State :=
  { s with pc := Function.update s.pc t p }

@[simp] theorem setPc_isRunning (s : State) (t : ThreadID) (p : Pc) :
    (s.setPc t p).isRunning = s.isRunning := rfl

@[simp] theorem setPc_runIngested (s : State) (t : ThreadID) (p : Pc) :
    (s.setPc t p).runIngested = s.runIngested := rfl

@[simp] theorem setPc_ingestChan (s : State) (t : ThreadID) (p : Pc) :
    (s.setPc t p).ingestChan = s.ingestChan := rfl

@[simp] theorem setPc_locked (s : State) (t : ThreadID) (p : Pc) :
    (s.setPc t p).locked = s.locked := rfl

theorem setPc_pc (s : State) (t u : ThreadID) (p : Pc) :
    (s.setPc t p).pc u = if u = t then p else s.pc u := by
  simp [setPc, Function.update_apply]

end State

/-- `NewIndexMonitor`, and an index without a channel. -/
def init : State where
  isRunning := false
  runIngested := 0
  ingestChan := none
  locked := false
  nextChan := 1
  pc _ := .idle

/-! ## Steps -/

inductive Action where
  | callStart (t : ThreadID)
  | callStop (t : ThreadID)
  | callIngestRun (t : ThreadID)
  /-- The goroutine's next read or write. -/
  | move (t : ThreadID)
  /-- `case <-timer`. -/
  | timer (t : ThreadID)
  /-- `case <-m.runIngested` of one goroutine receives what another sends. -/
  | receive (t u : ThreadID)

/-- `reqs` after `reqs++`, where it starts again at zero. -/
def countRequest (maxIngestedRuns reqs : Nat) : Nat :=
  let reqs := (reqs + 1) % 2 ^ 64
  if reqs = maxIngestedRuns then 0 else reqs

/-- The next read or write of a goroutine. -/
def move (s : State) (t : ThreadID) : Option State :=
  match s.pc t with
  | .startRead =>
    if s.locked then none
    else if s.isRunning then some (s.setPc t .idle)
    else some ({ s with locked := true }.setPc t .startWrite)
  | .startWrite => some ({ s with isRunning := true, locked := false }.setPc t .readChan)
  | .readChan => some (s.setPc t (.setChan s.runIngested))
  | .setChan c => some ({ s with ingestChan := some c }.setPc t .loop)
  | .loop => some (s.setPc t (if s.isRunning then .select 0 else .idle))
  | .select reqs => some (s.setPc t (.waiting s.runIngested reqs))
  | .stopRead =>
    if s.locked then none
    else if !s.isRunning then some (s.setPc t .idle)
    else some ({ s with locked := true }.setPc t .stopWrite)
  | .stopWrite => some ({ s with isRunning := false }.setPc t .stopChan)
  | .stopChan =>
    some ({ s with runIngested := s.nextChan, nextChan := s.nextChan + 1, locked := false }.setPc t
      .idle)
  | .ingestCheck => some (s.setPc t (if s.ingestChan.isSome then .ingestRead else .idle))
  | .ingestRead => some (s.setPc t (.sending s.ingestChan))
  -- the others wait for a call, a timer or a partner
  | .idle | .waiting _ _ | .sending _ => none

/-- One step. -/
def step (maxIngestedRuns : Nat) (s : State) : Action → Option State
  | .callStart t => if s.pc t = .idle then some (s.setPc t .startRead) else none
  | .callStop t => if s.pc t = .idle then some (s.setPc t .stopRead) else none
  | .callIngestRun t => if s.pc t = .idle then some (s.setPc t .ingestCheck) else none
  | .move t => move s t
  | .timer t =>
    match s.pc t with
    | .waiting _ _ => some (s.setPc t .loop)
    | _ => none
  | .receive t u =>
    match s.pc t with
    | .waiting c reqs =>
      if s.pc u = .sending (some c) then
        let reqs := countRequest maxIngestedRuns reqs
        some ((s.setPc u .idle).setPc t (if reqs = 0 then .loop else .select reqs))
      else none
    | _ => none

/-! ## What should hold -/

/-- While the monitor runs there is one loop at most. -/
def AtMostOneLoop (s : State) : Prop :=
  s.isRunning = true → ∀ t u, (s.pc t).Live → (s.pc u).Live → t = u

/-- A loop that waits while the monitor runs receives from where the index sends. -/
def ReceivesIngests (s : State) : Prop :=
  s.isRunning = true → ∀ t c reqs, s.pc t = .waiting c reqs → s.ingestChan = some c

/-- The loop waits on the channel, or will when it comes back to its `select`. -/
def WillReceive (s : State) (t : ThreadID) (c : Option Chan) : Prop :=
  (∃ c' reqs, s.pc t = .waiting c' reqs ∧ c = some c') ∨
    ((s.pc t).Live ∧ s.isRunning = true ∧ c = some s.runIngested)

/-- Some loop receives from every channel that is sent on. -/
def SendsAreReceived (s : State) : Prop :=
  ∀ u c, s.pc u = .sending c → ∃ t, WillReceive s t c

structure Safe (s : State) : Prop where
  atMostOneLoop : AtMostOneLoop s
  receivesIngests : ReceivesIngests s
  sendsAreReceived : SendsAreReceived s

/-! ## Careful runs -/

/-- `start` succeeds only when no loop is left of an earlier `Start`. -/
def StartsAlone (s : State) : Action → Prop
  | .move t => s.pc t = .startWrite → ∀ u, ¬ (s.pc u).Live
  | _ => True

/-- `Stop` takes effect while no `IngestRun` is sending, and none takes the channel of
the index between a `Stop` and the next `SetIngestChan`. -/
def IngestsBetween (s : State) : Action → Prop
  | .move t => (s.pc t = .stopWrite → ∀ u c, s.pc u ≠ .sending c) ∧
    (s.pc t = .ingestRead → s.isRunning = true ∧ s.ingestChan = some s.runIngested)
  | _ => True

def Careful (s : State) (a : Action) : Prop := StartsAlone s a ∧ IngestsBetween s a

/-! ## What a step can do

Every step in the form in which the invariants need it: who moves, where that goroutine stood, and
what it leaves behind. -/

/-- The steps, one constructor for each read and write of the source. -/
inductive Moves (s : State) : Action → State → Prop where
  | callStart {t : ThreadID} : s.pc t = .idle → Moves s (.callStart t) (s.setPc t .startRead)
  | callStop {t : ThreadID} : s.pc t = .idle → Moves s (.callStop t) (s.setPc t .stopRead)
  | callIngestRun {t : ThreadID} : s.pc t = .idle →
      Moves s (.callIngestRun t) (s.setPc t .ingestCheck)
  | errRunning {t : ThreadID} : s.pc t = .startRead → s.isRunning = true →
      Moves s (.move t) (s.setPc t .idle)
  | startRead {t : ThreadID} : s.pc t = .startRead → s.locked = false → s.isRunning = false →
      Moves s (.move t) ({ s with locked := true }.setPc t .startWrite)
  | startWrite {t : ThreadID} : s.pc t = .startWrite →
      Moves s (.move t) ({ s with isRunning := true, locked := false }.setPc t .readChan)
  | readChan {t : ThreadID} : s.pc t = .readChan →
      Moves s (.move t) (s.setPc t (.setChan s.runIngested))
  | setChan {t : ThreadID} {c : Chan} : s.pc t = .setChan c →
      Moves s (.move t) ({ s with ingestChan := some c }.setPc t .loop)
  | loop {t : ThreadID} : s.pc t = .loop → s.isRunning = true →
      Moves s (.move t) (s.setPc t (.select 0))
  | loopStopped {t : ThreadID} : s.pc t = .loop → s.isRunning = false →
      Moves s (.move t) (s.setPc t .idle)
  | select {t : ThreadID} {reqs : Nat} : s.pc t = .select reqs →
      Moves s (.move t) (s.setPc t (.waiting s.runIngested reqs))
  | errStopped {t : ThreadID} : s.pc t = .stopRead → s.isRunning = false →
      Moves s (.move t) (s.setPc t .idle)
  | stopRead {t : ThreadID} : s.pc t = .stopRead → s.locked = false → s.isRunning = true →
      Moves s (.move t) ({ s with locked := true }.setPc t .stopWrite)
  | stopWrite {t : ThreadID} : s.pc t = .stopWrite →
      Moves s (.move t) ({ s with isRunning := false }.setPc t .stopChan)
  | stopChan {t : ThreadID} : s.pc t = .stopChan → Moves s (.move t)
      ({ s with runIngested := s.nextChan, nextChan := s.nextChan + 1, locked := false }.setPc t
        .idle)
  | ingestNil {t : ThreadID} : s.pc t = .ingestCheck → s.ingestChan = none →
      Moves s (.move t) (s.setPc t .idle)
  | ingestCheck {t : ThreadID} : s.pc t = .ingestCheck → s.ingestChan ≠ none →
      Moves s (.move t) (s.setPc t .ingestRead)
  | ingestRead {t : ThreadID} : s.pc t = .ingestRead →
      Moves s (.move t) (s.setPc t (.sending s.ingestChan))
  | timer {t : ThreadID} {c : Chan} {reqs : Nat} : s.pc t = .waiting c reqs →
      Moves s (.timer t) (s.setPc t .loop)
  | checkNow {t u : ThreadID} {c : Chan} {reqs : Nat} : s.pc t = .waiting c reqs →
      s.pc u = .sending (some c) → Moves s (.receive t u) ((s.setPc u .idle).setPc t .loop)
  | waitOn {t u : ThreadID} {c : Chan} {reqs reqs' : Nat} : s.pc t = .waiting c reqs →
      s.pc u = .sending (some c) →
      Moves s (.receive t u) ((s.setPc u .idle).setPc t (.select reqs'))

/-- What a goroutine's next move is, by where it stands; every guard of the move is part of it. -/
theorem moves_of_move {s s' : State} {t : ThreadID} (h : move s t = some s') :
    Moves s (.move t) s' := by
  unfold move at h
  split at h
  · next hpc =>
    split_ifs at h with hlocked hrunning <;> obtain rfl := Option.some_inj.mp h
    · exact .errRunning hpc hrunning
    · exact .startRead hpc (Bool.not_eq_true _ ▸ hlocked) (Bool.not_eq_true _ ▸ hrunning)
  · next hpc => obtain rfl := Option.some_inj.mp h; exact .startWrite hpc
  · next hpc => obtain rfl := Option.some_inj.mp h; exact .readChan hpc
  · next c hpc => obtain rfl := Option.some_inj.mp h; exact .setChan hpc
  · next hpc =>
    obtain rfl := Option.some_inj.mp h
    split_ifs with hrunning
    · exact .loop hpc hrunning
    · exact .loopStopped hpc (Bool.not_eq_true _ ▸ hrunning)
  · next reqs hpc => obtain rfl := Option.some_inj.mp h; exact .select hpc
  · next hpc =>
    split_ifs at h with hlocked hrunning <;> obtain rfl := Option.some_inj.mp h
    · exact .errStopped hpc (by simpa using hrunning)
    · exact .stopRead hpc (Bool.not_eq_true _ ▸ hlocked) (by simpa using hrunning)
  · next hpc => obtain rfl := Option.some_inj.mp h; exact .stopWrite hpc
  · next hpc => obtain rfl := Option.some_inj.mp h; exact .stopChan hpc
  · next hpc =>
    obtain rfl := Option.some_inj.mp h
    split_ifs with hsome
    · exact .ingestCheck hpc (Option.isSome_iff_ne_none.mp hsome)
    · exact .ingestNil hpc (Option.not_isSome_iff_eq_none.mp hsome)
  · next hpc => obtain rfl := Option.some_inj.mp h; exact .ingestRead hpc
  all_goals cases h

/-- **Every step is one of these.** -/
theorem moves_of_step {max : Nat} {s s' : State} {a : Action} (h : step max s a = some s') :
    Moves s a s' := by
  cases a with
  | callStart t =>
    obtain ⟨hpc, heq⟩ := Option.ite_none_right_eq_some.mp h
    exact Option.some_inj.mp heq ▸ .callStart hpc
  | callStop t =>
    obtain ⟨hpc, heq⟩ := Option.ite_none_right_eq_some.mp h
    exact Option.some_inj.mp heq ▸ .callStop hpc
  | callIngestRun t =>
    obtain ⟨hpc, heq⟩ := Option.ite_none_right_eq_some.mp h
    exact Option.some_inj.mp heq ▸ .callIngestRun hpc
  | move t => exact moves_of_move h
  | timer t =>
    -- the timer fires only for a goroutine that waits in the loop
    simp only [step] at h
    split at h
    · next hpc => exact Option.some_inj.mp h ▸ .timer hpc
    · cases h
  | receive t u =>
    simp only [step] at h
    split at h
    · next hpc =>
      obtain ⟨hsend, heq⟩ := Option.ite_none_right_eq_some.mp h
      obtain rfl := Option.some_inj.mp heq
      split_ifs
      · exact .checkNow hpc hsend
      · exact .waitOn hpc hsend
    · cases h

/-! ## One loop

At most one goroutine is in a loop and at most one holds the lock. While the flag is set, what each
of them knows of the two channels is current. -/

/-- What the place of a goroutine says about the shared variables while the monitor
runs: the loop has set the channel of the index to the monitor's. -/
def Current (s : State) : Pc → Prop
  | .setChan c => c = s.runIngested
  | .loop | .select _ => s.ingestChan = some s.runIngested
  | .waiting c _ => c = s.runIngested ∧ s.ingestChan = some s.runIngested
  -- `Stop` has just written `isRunning`
  | .stopChan => False
  | _ => True

/-- The invariant of runs in which every `Start` starts alone. -/
structure Inv (s : State) : Prop where
  alone : ∀ t u, (s.pc t).Live → (s.pc u).Live → t = u
  exclusive : ∀ t u, (s.pc t).Holds → (s.pc u).Holds → t = u
  locked : ∀ t, (s.pc t).Holds → s.locked = true
  current : s.isRunning = true → ∀ t, Current s (s.pc t)

theorem inv_init : Inv init where
  alone _ _ h := h.elim
  exclusive _ _ h := h.elim
  locked _ h := h.elim
  current h := by cases h

section Steps

variable {s s' : State} {t : ThreadID} {p : Pc}

theorem Inv.current_of_pc (h : Inv s) (hrun : s.isRunning = true) (hpc : s.pc t = p) :
    Current s p := hpc ▸ h.current hrun t

theorem live_setPc {u : ThreadID} (hp : p.Live → (s.pc t).Live)
    (h : ((s.setPc t p).pc u).Live) : (s.pc u).Live := by
  rw [State.setPc_pc] at h
  split_ifs at h with htu
  · exact htu ▸ hp h
  · exact h

theorem holds_setPc {u : ThreadID} (hp : p.Holds → (s.pc t).Holds)
    (h : ((s.setPc t p).pc u).Holds) : (s.pc u).Holds := by
  rw [State.setPc_pc] at h
  split_ifs at h with htu
  · exact htu ▸ hp h
  · exact h

/-- A goroutine that reads and goes on. -/
theorem Inv.setPc (h : Inv s) (hlive : p.Live → (s.pc t).Live) (hholds : p.Holds → (s.pc t).Holds)
    (hcurrent : s.isRunning = true → Current s p) : Inv (s.setPc t p) where
  alone u v hu hv := h.alone u v (live_setPc hlive hu) (live_setPc hlive hv)
  exclusive u v hu hv := h.exclusive u v (holds_setPc hholds hu) (holds_setPc hholds hv)
  locked u hu := h.locked u (holds_setPc hholds hu)
  current hrun u := by
    rw [State.setPc_pc]
    split_ifs
    · exact hcurrent hrun
    · exact h.current hrun u

/-- Taking the mutex. -/
theorem Inv.acquire (h : Inv s) (hfree : s.locked = false) (hlive : ¬ p.Live)
    (hcurrent : s.isRunning = true → Current s p) :
    Inv ({ s with locked := true }.setPc t p) := by
  have hnone : ∀ u, ¬ (s.pc u).Holds := fun u hu => by
    rw [h.locked u hu] at hfree
    cases hfree
  have honly : ∀ u, (({ s with locked := true }.setPc t p).pc u).Holds → u = t := by
    intro u hu
    rw [State.setPc_pc] at hu
    split_ifs at hu with htu
    · exact htu
    · exact absurd hu (hnone u)
  have hwas : ∀ u, (({ s with locked := true }.setPc t p).pc u).Live → (s.pc u).Live := fun u =>
    live_setPc fun hp => absurd hp hlive
  refine ⟨fun u v hu hv => h.alone u v (hwas u hu) (hwas v hv),
    fun u v hu hv => (honly u hu).trans (honly v hv).symm, fun _ _ => rfl, fun hrun u => ?_⟩
  rw [State.setPc_pc]
  split_ifs
  · exact hcurrent hrun
  · exact h.current hrun u

/-- Releasing the mutex with `isRunning` written. -/
theorem Inv.startWrite (h : Inv s) (hpc : s.pc t = .startWrite) (halone : ∀ u, ¬ (s.pc u).Live) :
    Inv ({ s with isRunning := true, locked := false }.setPc t .readChan) := by
  have hothers : ∀ u, u ≠ t → ¬ (s.pc u).Holds := fun u hut hu =>
    hut (h.exclusive u t hu (hpc ▸ trivial))
  have hpc' : ∀ u, ({ s with isRunning := true, locked := false }.setPc t .readChan).pc u =
      if u = t then .readChan else s.pc u := fun u => State.setPc_pc _ t u _
  have honly : ∀ u, (({ s with isRunning := true, locked := false }.setPc t .readChan).pc u).Live →
      u = t := by
    intro u hu
    rw [hpc'] at hu
    split_ifs at hu with htu
    · exact htu
    · exact absurd hu (halone u)
  have hnone : ∀ u,
      ¬ (({ s with isRunning := true, locked := false }.setPc t .readChan).pc u).Holds := by
    intro u hu
    rw [hpc'] at hu
    split_ifs at hu with htu
    · exact hu
    · exact hothers u htu hu
  refine ⟨fun u v hu hv => (honly u hu).trans (honly v hv).symm, fun u _ hu => absurd hu (hnone u),
    fun u hu => absurd hu (hnone u), fun _ u => ?_⟩
  rw [hpc']
  split_ifs with htu
  · trivial
  · -- nobody else is in a loop, or in a `Stop`
    have hlive := halone u
    have hholds := hothers u htu
    cases hu : s.pc u <;> rw [hu] at hlive hholds <;> first
      | trivial
      | exact absurd trivial hlive

/-- Setting the channel of the index. -/
theorem Inv.setChan {c : Chan} (h : Inv s) (hpc : s.pc t = .setChan c) :
    Inv ({ s with ingestChan := some c }.setPc t .loop) := by
  have hlive : ∀ u, (({ s with ingestChan := some c }.setPc t .loop).pc u).Live → (s.pc u).Live :=
    fun u => live_setPc fun _ => hpc ▸ trivial
  have hholds : ∀ u, (({ s with ingestChan := some c }.setPc t .loop).pc u).Holds →
      (s.pc u).Holds := fun u => holds_setPc fun h => h.elim
  refine ⟨fun u v hu hv => h.alone u v (hlive u hu) (hlive v hv),
    fun u v hu hv => h.exclusive u v (hholds u hu) (hholds v hv),
    fun u hu => h.locked u (hholds u hu),
    fun hrun u => ?_⟩
  have hc : c = s.runIngested := h.current_of_pc hrun hpc
  rw [State.setPc_pc]
  split_ifs with htu
  · exact congrArg some hc
  · -- another goroutine is in no loop, so it does not read the channel of the index
    have hnot : ¬ (s.pc u).Live := fun hu => htu (h.alone u t hu (hpc ▸ trivial))
    have hcurrent := h.current hrun u
    cases hu : s.pc u <;> rw [hu] at hnot hcurrent <;> first
      | exact hcurrent
      | exact absurd trivial hnot

theorem Inv.stopWrite (h : Inv s) (hpc : s.pc t = .stopWrite) :
    Inv ({ s with isRunning := false }.setPc t .stopChan) := by
  have hlive : ∀ u, (({ s with isRunning := false }.setPc t .stopChan).pc u).Live → (s.pc u).Live :=
    fun u => live_setPc fun h => h.elim
  have hholds : ∀ u, (({ s with isRunning := false }.setPc t .stopChan).pc u).Holds →
      (s.pc u).Holds := fun u => holds_setPc fun _ => hpc ▸ trivial
  exact ⟨fun u v hu hv => h.alone u v (hlive u hu) (hlive v hv),
    fun u v hu hv => h.exclusive u v (hholds u hu) (hholds v hv),
    fun u hu => h.locked u (hholds u hu),
    fun hrun => by cases hrun⟩

theorem Inv.isRunning_of_stopChan (h : Inv s) (hpc : s.pc t = .stopChan) : s.isRunning = false := by
  cases hrun : s.isRunning with
  | false => rfl
  | true => exact (h.current_of_pc hrun hpc).elim

/-- A new channel, and the mutex released. -/
theorem Inv.stopChan (h : Inv s) (hpc : s.pc t = .stopChan) :
    Inv ({ s with runIngested := s.nextChan, nextChan := s.nextChan + 1, locked := false }.setPc t
      .idle) := by
  have hstopped := h.isRunning_of_stopChan hpc
  generalize hs₁ : { s with
    runIngested := s.nextChan, nextChan := s.nextChan + 1, locked := false } = s₁
  have hsame : s₁.pc = s.pc := by rw [← hs₁]
  have hrunning : s₁.isRunning = false := by rw [← hs₁]; exact hstopped
  have hlive : ∀ u, ((s₁.setPc t .idle).pc u).Live → (s.pc u).Live := fun u hu =>
    hsame ▸ live_setPc (fun hidle : Pc.Live .idle => hidle.elim) hu
  have hnone : ∀ u, ¬ ((s₁.setPc t .idle).pc u).Holds := by
    intro u hu
    rw [State.setPc_pc, hsame] at hu
    split_ifs at hu with htu
    · exact hu
    · exact htu (h.exclusive u t hu (hpc ▸ trivial))
  refine ⟨fun u v hu hv => h.alone u v (hlive u hu) (hlive v hv), fun u _ hu => absurd hu (hnone u),
    fun u hu => absurd hu (hnone u), fun hrun => ?_⟩
  rw [State.setPc_isRunning, hrunning] at hrun
  cases hrun

/-- Receiving leaves the sender idle and the receiver in its loop. -/
theorem Inv.receive {u : ThreadID} {c : Chan} {reqs : Nat} (h : Inv s)
    (hpc : s.pc t = .waiting c reqs) (hsend : s.pc u = .sending (some c)) (hholds : ¬ p.Holds)
    (hcurrent : s.ingestChan = some s.runIngested → Current s p) :
    Inv ((s.setPc u .idle).setPc t p) := by
  have htu : t ≠ u := by
    rintro rfl
    rw [hpc] at hsend
    cases hsend
  have hidle : Inv (s.setPc u .idle) :=
    h.setPc (fun hp => hp.elim) (fun hp => hp.elim) fun _ => trivial
  have hpc' : (s.setPc u .idle).pc t = .waiting c reqs := by
    rw [State.setPc_pc, if_neg htu, hpc]
  exact hidle.setPc (fun _ => hpc' ▸ trivial) (fun hp => absurd hp hholds) fun hrun =>
    hcurrent (h.current_of_pc hrun hpc).2

/-- **One step** keeps the invariant, if a `Start` that succeeds starts alone. -/
theorem Inv.moves {a : Action} (h : Inv s) (hcond : StartsAlone s a) (hstep : Moves s a s') :
    Inv s' := by
  cases hstep with
  | callStart hpc | callStop hpc | callIngestRun hpc | errRunning hpc | loopStopped hpc
  | errStopped hpc | ingestNil hpc | ingestCheck hpc | ingestRead hpc =>
    exact h.setPc (fun hp => hp.elim) (fun hp => hp.elim) fun _ => trivial
  | startRead hpc hlocked _ | stopRead hpc hlocked _ =>
    exact h.acquire hlocked (fun hp => hp.elim) fun _ => trivial
  | startWrite hpc => exact h.startWrite hpc (hcond hpc)
  | readChan hpc => exact h.setPc (fun _ => hpc ▸ trivial) (fun hp => hp.elim) fun _ => rfl
  | setChan hpc => exact h.setChan hpc
  | loop hpc hrunning =>
    refine h.setPc (fun _ => hpc ▸ trivial) (fun hp => hp.elim) fun hrun => ?_
    have hloop := h.current_of_pc hrun hpc
    exact hloop
  | select hpc =>
    refine h.setPc (fun _ => hpc ▸ trivial) (fun hp => hp.elim) fun hrun => ⟨rfl, ?_⟩
    have hselect := h.current_of_pc hrun hpc
    exact hselect
  | stopWrite hpc => exact h.stopWrite hpc
  | stopChan hpc => exact h.stopChan hpc
  | timer hpc =>
    exact h.setPc (fun _ => hpc ▸ trivial) (fun hp => hp.elim) fun hrun =>
      (h.current_of_pc hrun hpc).2
  | checkNow hpc hsend => exact h.receive hpc hsend (fun hp => hp.elim) id
  | waitOn hpc hsend => exact h.receive hpc hsend (fun hp => hp.elim) id

end Steps

theorem Inv.atMostOneLoop {s : State} (h : Inv s) : AtMostOneLoop s := fun _ => h.alone

theorem Inv.receivesIngests {s : State} (h : Inv s) : ReceivesIngests s := by
  intro hrun t c reqs hpc
  obtain ⟨rfl, hchan⟩ := h.current_of_pc hrun hpc
  exact hchan

/-- The converse: a `Start` that succeeds beside a loop makes two of them. -/
theorem not_atMostOneLoop_of_step {max : Nat} {s s' : State} {a : Action}
    (hcond : ¬ StartsAlone s a) (hstep : step max s a = some s') : ¬ AtMostOneLoop s' := by
  cases a with
  | move t =>
    simp only [StartsAlone, Classical.not_imp, not_forall, not_not] at hcond
    obtain ⟨hpc, u, hu⟩ := hcond
    have hut : u ≠ t := by
      rintro rfl
      rw [hpc] at hu
      exact hu
    obtain rfl : { s with isRunning := true, locked := false }.setPc t .readChan = s' := by
      simpa [step, move, hpc] using hstep
    intro hone
    refine hut (hone rfl u t ?_ ?_)
    · rw [State.setPc_pc, if_neg hut]
      exact hu
    · rw [State.setPc_pc, if_pos rfl]
      trivial
  | _ => exact absurd trivial hcond

/-! ## Ingests

While the flag is set there is a loop, and whoever sends does so on its channel. For this a stop
must find nobody sending, and nobody may take the channel before the next loop has set it. -/

/-- The invariant of careful runs: a monitor that runs has a loop, and what is sent
is sent on its channel. -/
structure InvSends (s : State) : Prop extends Inv s where
  hasLoop : s.isRunning = true → ∃ t, (s.pc t).Live
  sends : ∀ u c, s.pc u = .sending c → s.isRunning = true ∧ c = some s.runIngested

theorem invSends_init : InvSends init where
  toInv := inv_init
  hasLoop h := by cases h
  sends _ _ h := by cases h

section Sends

variable {s s' : State} {t : ThreadID} {p : Pc}

/-- A goroutine that goes on without writing `isRunning` or `runIngested`, given that it
stays in the loop and sends on the monitor's channel. -/
theorem InvSends.of_same {s₁ : State} (h : InvSends s) (hinv : Inv (s₁.setPc t p))
    (hpc : s₁.pc = s.pc) (hrun : s₁.isRunning = s.isRunning)
    (hchan : s₁.runIngested = s.runIngested)
    (hloop : s.isRunning = true → (s.pc t).Live → p.Live)
    (hsend : ∀ c, p = .sending c → s.isRunning = true ∧ c = some s.runIngested) :
    InvSends (s₁.setPc t p) where
  toInv := hinv
  hasLoop h₁ := by
    obtain ⟨u, hu⟩ := h.hasLoop (hrun ▸ h₁)
    refine ⟨u, ?_⟩
    rw [State.setPc_pc, hpc]
    split_ifs with hut
    · exact hloop (hrun ▸ h₁) (hut ▸ hu)
    · exact hu
  sends u c hu := by
    rw [State.setPc_pc, hpc] at hu
    rw [State.setPc_isRunning, State.setPc_runIngested, hrun, hchan]
    split_ifs at hu
    · exact hsend c hu
    · exact h.sends u c hu

/-- A send that was received. -/
theorem InvSends.sent {c : Option Chan} (h : InvSends s) (hpc : s.pc t = .sending c) :
    InvSends (s.setPc t .idle) := by
  refine h.of_same ?_ rfl rfl rfl (fun _ hlive => ?_) nofun
  · exact h.toInv.setPc (fun hp => hp.elim) (fun hp => hp.elim) fun _ => trivial
  · rw [hpc] at hlive
    exact hlive.elim

/-- **One step** of a careful run keeps the invariant. -/
theorem InvSends.moves {a : Action} (h : InvSends s) (hcond : Careful s a)
    (hstep : Moves s a s') : InvSends s' := by
  have hinv : Inv s' := h.toInv.moves hcond.1 hstep
  cases hstep with
  | callStart hpc | callStop hpc | callIngestRun hpc | errRunning hpc | errStopped hpc
  | ingestNil hpc | ingestCheck hpc =>
    refine h.of_same hinv rfl rfl rfl (fun _ hlive => ?_) nofun
    rw [hpc] at hlive
    exact hlive.elim
  | startRead hpc | stopRead hpc =>
    refine h.of_same hinv rfl rfl rfl (fun _ hlive => ?_) nofun
    rw [hpc] at hlive
    exact hlive.elim
  | loopStopped hpc hstopped =>
    refine h.of_same hinv rfl rfl rfl (fun hrun => ?_) nofun
    rw [hstopped] at hrun
    cases hrun
  | readChan hpc | loop hpc hrunning | select hpc | timer hpc | setChan hpc =>
    exact h.of_same hinv rfl rfl rfl (fun _ _ => trivial) nofun
  | @startWrite t hpc =>
    refine ⟨hinv, fun _ => ⟨t, by rw [State.setPc_pc, if_pos rfl]; trivial⟩, fun u c hu => ?_⟩
    rw [State.setPc_pc] at hu
    split_ifs at hu
    exact ⟨rfl, (h.sends u c hu).2⟩
  -- a careful run does not stop while a call is sending
  | stopWrite hpc =>
    refine ⟨hinv, nofun, fun u c hu => ?_⟩
    rw [State.setPc_pc] at hu
    split_ifs at hu
    exact absurd hu (hcond.2.1 hpc u c)
  | stopChan hpc =>
    have hstopped := h.isRunning_of_stopChan hpc
    refine ⟨hinv, fun hrun => ?_, fun u c hu => ?_⟩
    · rw [State.setPc_isRunning, hstopped] at hrun
      cases hrun
    · rw [State.setPc_pc] at hu
      split_ifs at hu
      rw [(h.sends u c hu).1] at hstopped
      cases hstopped
  -- the call reads the channel of the loop that is running
  | ingestRead hpc =>
    refine h.of_same hinv rfl rfl rfl (fun _ hlive => ?_) fun c hc => ?_
    · rw [hpc] at hlive
      exact hlive.elim
    · obtain ⟨hrun, hchan⟩ := hcond.2.2 hpc
      cases hc
      exact ⟨hrun, hchan⟩
  | checkNow hpc hsend | waitOn hpc hsend =>
    exact (h.sent hsend).of_same hinv rfl rfl rfl (fun _ _ => trivial) nofun

end Sends

theorem InvSends.sendsAreReceived {s : State} (h : InvSends s) : SendsAreReceived s := by
  intro u c hpc
  obtain ⟨hrun, hc⟩ := h.sends u c hpc
  obtain ⟨t, hlive⟩ := h.hasLoop hrun
  exact ⟨t, Or.inr ⟨hlive, hrun, hc⟩⟩

/-! ## Runs -/

theorem inv_of_startsAlone {max : Nat} {s : State}
    (h : ReachableWith (step max) StartsAlone init s) : Inv s :=
  h.invariant inv_init fun hinv hcond hstep => hinv.moves hcond (moves_of_step hstep)

theorem invSends_of_careful {max : Nat} {s : State}
    (h : ReachableWith (step max) Careful init s) : InvSends s :=
  h.invariant invSends_init fun hinv hcond hstep => hinv.moves hcond (moves_of_step hstep)

/-- **The monitor and the index**: in a careful run there is one loop at most while the
monitor runs, it waits on the channel that the index sends on, and every ingest that
sends has a loop that receives. The first two need only that every `Start` starts
alone, and a `Start` that does not breaks the first. -/
theorem safe_of_careful (max : Nat) :
    (∀ s, ReachableWith (step max) Careful init s → Safe s) ∧
    (∀ s, ReachableWith (step max) StartsAlone init s → AtMostOneLoop s ∧ ReceivesIngests s) ∧
    ∀ s a s', Reachable (step max) init s → step max s a = some s' → ¬ StartsAlone s a →
      ¬ AtMostOneLoop s' := by
  refine ⟨fun s h => ?_, fun s h => ?_, fun s a s' _ hstep hcond => ?_⟩
  · have hinv := invSends_of_careful h
    exact ⟨hinv.atMostOneLoop, hinv.receivesIngests, hinv.sendsAreReceived⟩
  · have hinv := inv_of_startsAlone h
    exact ⟨hinv.atMostOneLoop, hinv.receivesIngests⟩
  · exact not_atMostOneLoop_of_step hcond hstep

/-! ## A run of three goroutines

One goroutine starts the monitor, stops it and starts it again, one ingests, and the loops are the
rest. Whether a step of theirs is careful can be decided by looking at these few. -/

/-- The goroutines of a step are among the first `n`. -/
def Action.Among (n : Nat) : Action → Prop
  | .callStart t | .callStop t | .callIngestRun t | .move t | .timer t => t < n
  | .receive t u => t < n ∧ u < n

def Pc.Sending : Pc → Prop
  | .sending _ => True
  | _ => False

instance : DecidablePred Pc.Sending := fun p => by unfold Pc.Sending; split <;> infer_instance

instance (n : Nat) : DecidablePred (Action.Among n) := fun a => by
  unfold Action.Among; split <;> infer_instance

/-- `Careful`, where only the first `n` goroutines do something. -/
def CarefulAmong (n : Nat) (s : State) (a : Action) : Prop :=
  a.Among n ∧ match a with
    | .move t => (s.pc t = .startWrite → ∀ u < n, ¬ (s.pc u).Live) ∧
        (s.pc t = .stopWrite → ∀ u < n, ¬ (s.pc u).Sending) ∧
        (s.pc t = .ingestRead → s.isRunning = true ∧ s.ingestChan = some s.runIngested)
    | _ => True

instance (n : Nat) (s : State) (a : Action) : Decidable (CarefulAmong n s a) := by
  unfold CarefulAmong; split <;> infer_instance

/-- Goroutines from `n` on do nothing, so only finitely many have to be looked at. -/
theorem CarefulAmong.careful {n : Nat} {s : State} {a : Action}
    (hidle : ∀ u, n ≤ u → s.pc u = .idle) (h : CarefulAmong n s a) : Careful s a := by
  cases a with
  | move t =>
    obtain ⟨-, hstart, hstop, hread⟩ := h
    refine ⟨fun hpc u hlive => ?_, fun hpc u c hsend => ?_, hread⟩
    · rcases Nat.lt_or_ge u n with hu | hu
      · exact hstart hpc u hu hlive
      · rw [hidle u hu] at hlive
        exact hlive
    · rcases Nat.lt_or_ge u n with hu | hu
      · exact hstop hpc u hu (hsend ▸ trivial)
      · rw [hidle u hu] at hsend
        cases hsend
  | _ => exact ⟨trivial, trivial⟩

/-- The other goroutines stay idle. -/
theorem idle_of_moves {n : Nat} {s s' : State} {a : Action}
    (hidle : ∀ u, n ≤ u → s.pc u = .idle) (hamong : a.Among n) (hstep : Moves s a s') (u : ThreadID)
    (hu : n ≤ u) : s'.pc u = .idle := by
  have hset : ∀ {s₁ : State} {t : ThreadID} {p : Pc}, t < n → s₁.pc u = .idle →
      (s₁.setPc t p).pc u = .idle := by
    intro s₁ t p ht hpc
    have hne : u ≠ t := Nat.ne_of_gt (ht.trans_le hu)
    rw [State.setPc_pc, if_neg hne, hpc]
  cases hstep with
  | checkNow _ _ | waitOn _ _ => exact hset hamong.1 (hset hamong.2 (hidle u hu))
  | _ => exact hset hamong (hidle u hu)

theorem careful_of_among {n max : Nat} {s : State}
    (h : ReachableWith (step max) (CarefulAmong n) init s) :
    ReachableWith (step max) Careful init s ∧ ∀ u, n ≤ u → s.pc u = .idle := by
  induction h with
  | init => exact ⟨.init, fun _ _ => rfl⟩
  | step _ hcond hstep ih =>
    exact ⟨.step ih.1 (hcond.careful ih.2) hstep,
      idle_of_moves ih.2 hcond.1 (moves_of_step hstep)⟩

/-- `Start` and an ingest; `Stop`, after which the loop ends; another `Start` and an ingest. -/
def restartActions : List Action :=
  [.callStart 0, .move 0, .move 0, .move 0, .move 0, .move 0, .move 0,
    .callIngestRun 1, .move 1, .move 1, .receive 0 1, .move 0,
    .callStop 1, .move 1, .move 1, .move 1, .timer 0, .move 0,
    .callStart 2, .move 2, .move 2, .move 2, .move 2, .move 2, .move 2,
    .callIngestRun 0, .move 0, .move 0]

/-- The second loop waits where the index sends. -/
theorem safe_waiting : ∃ s, ReachableWith (step 10) Careful init s ∧ s.isRunning = true ∧
    s.pc 0 = .sending (some 1) ∧ s.pc 1 = .idle ∧ s.pc 2 = .waiting 1 0 ∧ Safe s := by
  have hrun : (run (step 10) init restartActions).map
      (fun s => (s.isRunning, s.pc 0, s.pc 1, s.pc 2)) =
        some (true, .sending (some 1), .idle, .waiting 1 0) := by decide +kernel
  obtain ⟨s, hs, heq⟩ := Option.map_eq_some_iff.mp hrun
  have hmeets : EachMeets (step 10) (CarefulAmong 3) init restartActions := by decide +kernel
  obtain ⟨hcareful, -⟩ := careful_of_among (ReachableWith.init.run_of_eachMeets hmeets hs)
  simp only [Prod.mk.injEq] at heq
  exact ⟨s, hcareful, heq.1, heq.2.1, heq.2.2.1, heq.2.2.2, (safe_of_careful 10).1 s hcareful⟩

/-- `Start`, `Stop` and `Start` again, while the first loop waits. -/
theorem not_safe_restart : ¬ ∀ s, Reachable (step 10) init s → Safe s := by
  intro h
  have hrun : (run (step 10) init
      ([.callStart 0, .move 0, .move 0, .move 0, .move 0, .move 0, .move 0,
        .callStop 1, .move 1, .move 1, .move 1,
        .callStart 2, .move 2, .move 2] : List Action)).map
      (fun s => (s.isRunning, s.pc 0, s.pc 2)) = some (true, .waiting 0 0, .readChan) := by decide
  obtain ⟨s, hs, heq⟩ := Option.map_eq_some_iff.mp hrun
  simp only [Prod.mk.injEq] at heq
  obtain ⟨hrunning, hfirst, hsecond⟩ := heq
  have hone := (h s ⟨_, hs⟩).atMostOneLoop hrunning 0 2 (hfirst ▸ trivial) (hsecond ▸ trivial)
  exact absurd hone (by decide)

end WptFyi.Cache.Monitor
