import WptFyi.Lib.GoMap
import WptFyi.Shared.Models

/-!
# Pending test runs (`api/receiver/api.go`, `shared/models.go`)

Several services report on a run that is on its way, in any order and each with some of
the fields. `UpdatePendingTestRun` merges a report into the stored entity inside a
transaction: the stage may only go forward, and a report that would take it back leaves
everything as it was.

A transaction is one step, so a history is a list of reports. What the entity of an ID is after
all of them is said field by field: the stage is the largest that was asked for, a field that a
report may leave out has the value of the last accepted report that does not, and the entity
was created by the first accepted one. Since the stage decides which reports are accepted, its
statement comes first and the others use it.

- `updatePendingTestRun`: one report, with what the clock says;
- `updatePendingTestRun_cases`: it is merged, or nothing happens;
- `stage_updateAll`, `created_updateAll`: the stage and the creation time after any
  number of reports, on any IDs;
- `HashCut`: the invariant on the two revision fields;
- `updatePendingTestRun_history`: all of it, for every sequence of reports.
-/

namespace WptFyi.Receiver

open Lib Shared

/-- A stage is an `int`; zero is none. -/
abbrev PendingTestRunStage := Int

namespace PendingTestRunStage

/-- The named stages, each with its `String`. -/
def stageNames : List (PendingTestRunStage × String) :=
  [(100, "GITHUB_QUEUED"), (200, "GITHUB_IN_PROGRESS"), (300, "CI_RUNNING"), (400, "CI_FINISHED"),
    (500, "GITHUB_SUCCESS"), (550, "GITHUB_FAILURE"), (600, "WPTFYI_RECEIVED"),
    (700, "WPTFYI_PROCESSING"), (800, "VALID"), (850, "INVALID"), (851, "EMPTY"),
    (852, "DUPLICATE")]

def toName (s : PendingTestRunStage) : String := (stageNames.lookup s).getD ""

end PendingTestRunStage

/-- A pending run. The hashes are bytes, since they are cut; `none` is the zero time. -/
structure PendingTestRun (Time : Type) extends Product where
  id : Int := 0
  browserName := ""
  revision : List UInt8 := []
  fullRevisionHash : List UInt8 := []
  checkRunID : Int := 0
  uploader : String := ""
  error : String := ""
  stage : PendingTestRunStage := 0
  created : Option Time := none
  updated : Option Time := none

section Update

variable {Time : Type}

/-- `Transition`. -/
def PendingTestRun.transition (s : PendingTestRun Time) (next : PendingTestRunStage) :
    Except String (PendingTestRun Time) :=
  if next = 0 ∨ s.stage > next then
    .error ("cannot transition from " ++ s.stage.toName ++ " to " ++ next.toName)
  else .ok { s with stage := next }

/-- A field is overwritten where the report has it. -/
def overwrite {α : Type} [DecidableEq α] (zero old new : α) : α := if new ≠ zero then new else old

/-- What the reports say, and the clock: what it shows when `Created` is set, and when
`Updated` is. -/
structure UpdateCall (Time : Type) where
  newRun : PendingTestRun Time
  createdNow : Time
  updatedNow : Time

/-- The mutator of the transaction: the fields after the transition. -/
def UpdateCall.merge (call : UpdateCall Time) (run : PendingTestRun Time) : PendingTestRun Time :=
  let newRun := call.newRun
  { run with
    error := overwrite "" run.error newRun.error
    checkRunID := overwrite 0 run.checkRunID newRun.checkRunID
    uploader := overwrite "" run.uploader newRun.uploader
    browserName := overwrite "" run.browserName newRun.browserName
    browserVersion := overwrite "" run.browserVersion newRun.browserVersion
    osName := overwrite "" run.osName newRun.osName
    osVersion := overwrite "" run.osVersion newRun.osVersion
    revision :=
      if newRun.fullRevisionHash ≠ [] then
        if newRun.fullRevisionHash.length > 10 then newRun.fullRevisionHash.take 10
        else newRun.fullRevisionHash
      else run.revision
    fullRevisionHash := overwrite [] run.fullRevisionHash newRun.fullRevisionHash
    created := if run.created.isNone then some call.createdNow else run.created
    updated := some call.updatedNow }

def UpdateCall.mutator (call : UpdateCall Time) (run : PendingTestRun Time) :
    Except String (PendingTestRun Time) := do
  let run ← if call.newRun.stage ≠ 0 then run.transition call.newRun.stage else .ok run
  return call.merge run

/-- The entities of the kind, by ID. -/
abbrev PendingStore (Time : Type) := GoMap Int (PendingTestRun Time)

/-- `Update` of the datastore: the entity, or a new one, is put back unless the mutator
returns an error. -/
def PendingStore.update (store : PendingStore Time) (key : Int)
    (mutator : PendingTestRun Time → Except String (PendingTestRun Time)) :
    PendingStore Time × Option String :=
  match mutator ((store.lookup key).getD {}) with
  | .error err => (store, some err)
  | .ok dst => (store.insert key dst, none)

/-- `UpdatePendingTestRun`: the store afterwards and the error. -/
def updatePendingTestRun (store : PendingStore Time) (call : UpdateCall Time) :
    PendingStore Time × Option String :=
  store.update call.newRun.id call.mutator

/-- Reports one after the other, each in a transaction of its own. -/
def updateAll (store : PendingStore Time) (calls : List (UpdateCall Time)) : PendingStore Time :=
  calls.foldl (fun store call => (updatePendingTestRun store call).1) store

/-! ## One report

A report overwrites the fields that it has and keeps the others, and it is refused when its stage
would go back. What it is refused for leaves the entity as it was. -/

/-- The entity of an ID, or a new one. -/
def PendingStore.entity (store : PendingStore Time) (id : Int) : PendingTestRun Time :=
  (store.lookup id).getD {}

/-- The entity with the stage that a report asks for, if it does. -/
def PendingTestRun.advance (run : PendingTestRun Time) (next : PendingTestRunStage) :
    PendingTestRun Time :=
  { run with stage := overwrite 0 run.stage next }

variable {store : PendingStore Time} {call : UpdateCall Time} {calls : List (UpdateCall Time)}
  {id : Int}

theorem PendingStore.entity_of_lookup {run : PendingTestRun Time} (h : store.lookup id = some run) :
    store.entity id = run := by
  rw [PendingStore.entity, h, Option.getD_some]

/-- The report would take the stage back and is refused, or it is merged into the entity with the
stage that it asks for. -/
theorem mutator_cases (call : UpdateCall Time) (run : PendingTestRun Time) :
    (call.newRun.stage ≠ 0 ∧ call.newRun.stage < run.stage ∧ ∃ err, call.mutator run = .error err) ∨
    ((call.newRun.stage ≠ 0 → run.stage ≤ call.newRun.stage) ∧
      call.mutator run = .ok (call.merge (run.advance call.newRun.stage))) := by
  by_cases hzero : call.newRun.stage = 0
  · refine Or.inr ⟨fun h => absurd hzero h, ?_⟩
    rw [UpdateCall.mutator, if_neg (not_not_intro hzero), PendingTestRun.advance, overwrite,
      if_neg (not_not_intro hzero)]
    rfl
  · by_cases hback : run.stage > call.newRun.stage
    · refine Or.inl ⟨hzero, hback, ?_⟩
      rw [UpdateCall.mutator, if_pos hzero, PendingTestRun.transition, if_pos (Or.inr hback)]
      exact ⟨_, rfl⟩
    · refine Or.inr ⟨fun _ => not_lt.mp hback, ?_⟩
      have hallowed : ¬ (call.newRun.stage = 0 ∨ run.stage > call.newRun.stage) :=
        not_or.mpr ⟨hzero, hback⟩
      rw [UpdateCall.mutator, if_pos hzero, PendingTestRun.transition, if_neg hallowed,
        PendingTestRun.advance, overwrite, if_pos hzero]
      rfl

/-- A report is rejected because of its stage, and nothing happens, or it is merged. -/
theorem updatePendingTestRun_cases (store : PendingStore Time) (call : UpdateCall Time) :
    (call.newRun.stage ≠ 0 ∧ call.newRun.stage < (store.entity call.newRun.id).stage ∧
      ∃ err, updatePendingTestRun store call = (store, some err)) ∨
    ((call.newRun.stage ≠ 0 → (store.entity call.newRun.id).stage ≤ call.newRun.stage) ∧
      updatePendingTestRun store call = (store.insert call.newRun.id
        (call.merge ((store.entity call.newRun.id).advance call.newRun.stage)), none)) := by
  have hupdate : updatePendingTestRun store call =
      match call.mutator (store.entity call.newRun.id) with
      | .error err => (store, some err)
      | .ok dst => (store.insert call.newRun.id dst, none) := rfl
  rw [hupdate]
  rcases mutator_cases call (store.entity call.newRun.id) with
    ⟨hzero, hback, err, hrun⟩ | ⟨hforward, hrun⟩
  · rw [hrun]
    exact Or.inl ⟨hzero, hback, err, rfl⟩
  · rw [hrun]
    exact Or.inr ⟨hforward, rfl⟩

/-- The other entities are left alone. -/
theorem lookup_updatePendingTestRun_of_ne (h : id ≠ call.newRun.id) :
    (updatePendingTestRun store call).1.lookup id = store.lookup id := by
  rcases updatePendingTestRun_cases store call with ⟨-, -, err, hrun⟩ | ⟨-, hrun⟩
  · rw [hrun]
  · rw [hrun]
    exact Finmap.lookup_insert_of_ne store h

theorem eq_of_rejected (h : (updatePendingTestRun store call).2 ≠ none) :
    (updatePendingTestRun store call).1 = store := by
  rcases updatePendingTestRun_cases store call with ⟨-, -, err, hrun⟩ | ⟨-, hrun⟩
  · rw [hrun]
  · rw [hrun] at h
    exact absurd rfl h

/-! ## Stages -/

theorem entity_updatePendingTestRun_of_ne (h : id ≠ call.newRun.id) :
    (updatePendingTestRun store call).1.entity id = store.entity id := by
  rw [PendingStore.entity, lookup_updatePendingTestRun_of_ne h, PendingStore.entity]

theorem entity_insert (store : PendingStore Time) (id : Int) (run : PendingTestRun Time) :
    PendingStore.entity (store.insert id run) id = run :=
  PendingStore.entity_of_lookup (Finmap.lookup_insert store)

/-- A stage that was never named is no stage to go back to either. -/
theorem stage_updatePendingTestRun (hstored : 0 ≤ (store.entity call.newRun.id).stage) :
    ((updatePendingTestRun store call).1.entity call.newRun.id).stage =
      max (store.entity call.newRun.id).stage call.newRun.stage := by
  rcases updatePendingTestRun_cases store call with ⟨-, hback, err, hrun⟩ | ⟨hforward, hrun⟩
  · rw [hrun]
    exact (max_eq_left hback.le).symm
  · rw [hrun, entity_insert]
    show overwrite 0 (store.entity call.newRun.id).stage call.newRun.stage = _
    by_cases hzero : call.newRun.stage = 0
    · rw [overwrite, if_neg (not_not_intro hzero), hzero, max_eq_left hstored]
    · rw [overwrite, if_pos hzero, max_eq_right (hforward hzero)]

/-- The stages that the reports on a run ask for; a report may ask for none. -/
def requestedStages (id : Int) (calls : List (UpdateCall Time)) : List PendingTestRunStage :=
  (calls.filter fun call => call.newRun.id = id).map fun call => call.newRun.stage

theorem le_foldl_max (stages : List PendingTestRunStage) (s : PendingTestRunStage) :
    s ≤ stages.foldl max s := by
  induction stages generalizing s with
  | nil => exact le_rfl
  | cons next stages ih => exact (le_max_left s next).trans (ih (max s next))

/-- **The stored stage is the largest that was asked for.** -/
theorem stage_updateAll (hstored : 0 ≤ (store.entity id).stage) :
    ((updateAll store calls).entity id).stage =
      (requestedStages id calls).foldl max (store.entity id).stage := by
  induction calls generalizing store with
  | nil => rfl
  | cons call calls ih =>
    show ((updateAll (updatePendingTestRun store call).1 calls).entity id).stage = _
    by_cases hid : call.newRun.id = id
    · subst hid
      have hstep := stage_updatePendingTestRun hstored
      rw [ih (by rw [hstep]; exact le_max_of_le_left hstored), hstep, requestedStages,
        requestedStages,
        List.filter_cons_of_pos (by simp), List.map_cons, List.foldl_cons]
    · have hstep : (updatePendingTestRun store call).1.entity id = store.entity id :=
        entity_updatePendingTestRun_of_ne (Ne.symm hid)
      rw [ih (by rw [hstep]; exact hstored), hstep, requestedStages, requestedStages,
        List.filter_cons_of_neg (by simp [hid])]

/-! ## The other fields

One lemma for all fields: each has the last value other than zero that an accepted report gave
it. -/

/-- The fields that a report may leave out. -/
inductive Field where
  | error | checkRunID | uploader | browserName | browserVersion | osName | osVersion
  | fullRevisionHash

abbrev Field.Value : Field → Type
  | .checkRunID => Int
  | .fullRevisionHash => List UInt8
  | _ => String

instance : (field : Field) → DecidableEq field.Value
  | .error | .uploader | .browserName | .browserVersion | .osName | .osVersion =>
    inferInstanceAs (DecidableEq String)
  | .checkRunID => inferInstanceAs (DecidableEq Int)
  | .fullRevisionHash => inferInstanceAs (DecidableEq (List UInt8))

def Field.zero : (field : Field) → field.Value
  | .error | .uploader | .browserName | .browserVersion | .osName | .osVersion => ""
  | .checkRunID => (0 : Int)
  | .fullRevisionHash => ([] : List UInt8)

def Field.get : (field : Field) → PendingTestRun Time → field.Value
  | .error, run => run.error
  | .checkRunID, run => run.checkRunID
  | .uploader, run => run.uploader
  | .browserName, run => run.browserName
  | .browserVersion, run => run.browserVersion
  | .osName, run => run.osName
  | .osVersion, run => run.osVersion
  | .fullRevisionHash, run => run.fullRevisionHash

theorem Field.get_merge (field : Field) (call : UpdateCall Time) (run : PendingTestRun Time) :
    field.get (call.merge run) = overwrite field.zero (field.get run) (field.get call.newRun) := by
  cases field <;> rfl

theorem Field.get_advance (field : Field) (run : PendingTestRun Time) (next : PendingTestRunStage) :
    field.get (run.advance next) = field.get run := by
  cases field <;> rfl

theorem overwrite_ne_zero {α : Type} [DecidableEq α] {zero old new : α} (h : old ≠ zero) :
    overwrite zero old new ≠ zero := by
  rw [overwrite]
  split_ifs with hnew
  · exact hnew
  · exact h

/-- The short revision is the beginning of the long one. -/
def HashCut (run : PendingTestRun Time) : Prop := run.revision = run.fullRevisionHash.take 10

theorem HashCut.merge {run : PendingTestRun Time} (h : HashCut run) (call : UpdateCall Time) :
    HashCut (call.merge run) := by
  show (if _ then _ else _) =
    (overwrite [] run.fullRevisionHash call.newRun.fullRevisionHash).take 10
  rw [overwrite]
  split_ifs with hnew hlong
  · rfl
  · exact (List.take_of_length_le (not_lt.mp hlong)).symm
  · exact h

/-- The invariant on the two revision fields holds after any number of reports. -/
theorem hashCut_updateAll (hstore : ∀ id run, store.lookup id = some run → HashCut run)
    (calls : List (UpdateCall Time)) {run : PendingTestRun Time}
    (h : (updateAll store calls).lookup id = some run) : HashCut run := by
  induction calls generalizing store with
  | nil => exact hstore id run h
  | cons call calls ih =>
    -- an entity that is not stored yet is the empty one
    have hentity : HashCut (store.entity call.newRun.id) := by
      cases hold : store.lookup call.newRun.id with
      | none =>
        rw [PendingStore.entity, hold]
        rfl
      | some old =>
        rw [PendingStore.entity_of_lookup hold]
        exact hstore _ old hold
    have hstep : ∀ id' run', (updatePendingTestRun store call).1.lookup id' = some run' →
        HashCut run' := by
      intro id' run' hlookup
      rcases updatePendingTestRun_cases store call with ⟨-, -, err, hrun⟩ | ⟨-, hrun⟩
      · rw [hrun] at hlookup
        exact hstore id' run' hlookup
      · rw [hrun, GoMap.lookup_insert_eq_ite] at hlookup
        split_ifs at hlookup with hid
        · obtain rfl := Option.some.inj hlookup
          exact HashCut.merge hentity call
        · exact hstore id' run' hlookup
    exact ih hstep h

/-! ## When it was created -/

/-- The first report on a run that is not rejected. -/
def firstAccepted (id : Int) : PendingStore Time → List (UpdateCall Time) → Option (UpdateCall Time)
  | _, [] => none
  | store, call :: calls =>
    if call.newRun.id = id ∧ (updatePendingTestRun store call).2 = none then some call
    else firstAccepted id (updatePendingTestRun store call).1 calls

/-- Once set, the creation time stays. -/
theorem created_of_some {t : Time} {run : PendingTestRun Time} (hrun : store.lookup id = some run)
    (ht : run.created = some t) :
    ∃ run', (updatePendingTestRun store call).1.lookup id = some run' ∧ run'.created = some t := by
  by_cases hid : id = call.newRun.id
  · subst hid
    rcases updatePendingTestRun_cases store call with ⟨-, -, err, hcall⟩ | ⟨-, hcall⟩
    · rw [hcall]
      exact ⟨run, hrun, ht⟩
    · rw [hcall, PendingStore.entity_of_lookup hrun]
      refine ⟨_, Finmap.lookup_insert store, ?_⟩
      show (if run.created.isNone then some call.createdNow else run.created) = some t
      rw [ht]
      rfl
  · rw [lookup_updatePendingTestRun_of_ne hid]
    exact ⟨run, hrun, ht⟩

theorem created_updateAll_of_some {t : Time} {run : PendingTestRun Time}
    (hrun : store.lookup id = some run) (ht : run.created = some t)
    (calls : List (UpdateCall Time)) :
    ∃ run', (updateAll store calls).lookup id = some run' ∧ run'.created = some t := by
  induction calls generalizing store run with
  | nil => exact ⟨run, hrun, ht⟩
  | cons call calls ih =>
    have hstep : ∃ run', (updatePendingTestRun store call).1.lookup id = some run' ∧
        run'.created = some t := created_of_some hrun ht
    obtain ⟨run', hrun', ht'⟩ := hstep
    exact ih hrun' ht'

/-- **The entity is there from the first accepted report on, with its time.** -/
theorem created_updateAll (hnone : store.lookup id = none) :
    ((updateAll store calls).lookup id).map PendingTestRun.created =
      (firstAccepted id store calls).map fun call => some call.createdNow := by
  induction calls generalizing store with
  | nil =>
    show (store.lookup id).map _ = _
    rw [hnone]
    rfl
  | cons call calls ih =>
    show ((updateAll (updatePendingTestRun store call).1 calls).lookup id).map _ = _
    rw [firstAccepted]
    by_cases hid : call.newRun.id = id
    · subst hid
      rcases updatePendingTestRun_cases store call with ⟨-, -, err, hcall⟩ | ⟨-, hcall⟩
      · rw [hcall, if_neg (by simp)]
        exact ih hnone
      · rw [hcall, if_pos ⟨rfl, rfl⟩]
        -- the first accepted call finds no creation time and writes its own
        have hcreated :
            (call.merge ((store.entity call.newRun.id).advance call.newRun.stage)).created =
            some call.createdNow := by
          rw [PendingStore.entity, hnone]
          rfl
        obtain ⟨run', hrun', ht'⟩ :=
          created_updateAll_of_some (Finmap.lookup_insert store) hcreated calls
        rw [hrun', Option.map_some, ht']
        rfl
    · rw [if_neg (fun h => hid h.1)]
      refine ih ?_
      rw [lookup_updatePendingTestRun_of_ne (Ne.symm hid)]
      exact hnone

/-! ## All reports

The reports of several runs come in any order. Those of one run do not touch the entity of another,
so each is followed by itself. -/

/-- What a report does to the store that it meets. -/
structure ReportKeeps (store : PendingStore Time) (call : UpdateCall Time) : Prop where
  stage_le : ∀ id, (store.entity id).stage ≤ ((updatePendingTestRun store call).1.entity id).stage
  rejected : (updatePendingTestRun store call).2 ≠ none →
    (updatePendingTestRun store call).1 = store
  set : ∀ id (field : Field), field.get (store.entity id) ≠ field.zero →
    field.get ((updatePendingTestRun store call).1.entity id) ≠ field.zero
  created : ∀ id run, store.lookup id = some run →
    ((updatePendingTestRun store call).1.lookup id).map PendingTestRun.created = some run.created

/-- What the reports have made of the entities. -/
structure ReportsStored (calls : List (UpdateCall Time)) (store : PendingStore Time) : Prop where
  stage : ∀ id, (store.entity id).stage = (requestedStages id calls).foldl max 0
  hash : ∀ id run, store.lookup id = some run → HashCut run
  created : ∀ id, (store.lookup id).map PendingTestRun.created =
    (firstAccepted id ∅ calls).map fun call => some call.createdNow

theorem reportsStored_updateAll (calls : List (UpdateCall Time)) :
    ReportsStored calls (updateAll ∅ calls) where
  stage := by
    intro id
    have hnew : (PendingStore.entity (∅ : PendingStore Time) id).stage = 0 := rfl
    rw [stage_updateAll hnew.ge, hnew]
  hash := fun id run h => hashCut_updateAll (by simp) calls h
  created := fun id => created_updateAll (Finmap.lookup_empty id)

theorem set_updatePendingTestRun {field : Field} (h : field.get (store.entity id) ≠ field.zero) :
    field.get ((updatePendingTestRun store call).1.entity id) ≠ field.zero := by
  by_cases hid : id = call.newRun.id
  · subst hid
    rcases updatePendingTestRun_cases store call with ⟨-, -, err, hrun⟩ | ⟨-, hrun⟩
    · rw [hrun]
      exact h
    · rw [hrun, entity_insert, Field.get_merge, Field.get_advance]
      exact overwrite_ne_zero h
  · rw [entity_updatePendingTestRun_of_ne hid]
    exact h

/-- One more report, when what is stored is what the reports so far say. -/
theorem reportKeeps_of_stored (h : ReportsStored calls store) (call : UpdateCall Time) :
    ReportKeeps store call where
  stage_le := by
    intro id
    by_cases hid : id = call.newRun.id
    · subst hid
      have hstored : 0 ≤ (store.entity call.newRun.id).stage := by
        rw [h.stage]
        exact le_foldl_max _ 0
      rw [stage_updatePendingTestRun hstored]
      exact le_max_left _ _
    · rw [entity_updatePendingTestRun_of_ne hid]
  rejected := eq_of_rejected
  set := fun id field hset => set_updatePendingTestRun hset
  created := by
    intro id run hrun
    have hsome := h.created id
    rw [hrun, Option.map_some] at hsome
    obtain ⟨first, -, hfirst⟩ := Option.map_eq_some_iff.mp hsome.symm
    obtain ⟨run', hrun', ht⟩ := created_of_some hrun hfirst.symm
    rw [hrun', Option.map_some, ht, hfirst]

/-- **Every report is merged or leaves everything as it was, and the entities are what
the reports so far say.** -/
theorem updatePendingTestRun_history (calls : List (UpdateCall Time)) :
    ReportsStored calls (updateAll ∅ calls) ∧
      ∀ seen call later, calls = seen ++ call :: later → ReportKeeps (updateAll ∅ seen) call :=
  ⟨reportsStored_updateAll calls,
    fun seen call _ _ => reportKeeps_of_stored (reportsStored_updateAll seen) call⟩

/-- A run is received at the time 5; the report that its job has finished comes late, and keeps
none of what it says. -/
theorem updatePendingTestRun_history_late :
    let received : UpdateCall Nat := ⟨{ id := 1, stage := 600, uploader := "blade" }, 5, 6⟩
    let finished : UpdateCall Nat := ⟨{ id := 1, stage := 400, browserName := "chrome" }, 7, 8⟩
    let store := updateAll ∅ [received, finished]
    (store.entity 1).stage = 600 ∧ (store.entity 1).browserName = "" ∧
      (store.lookup 1).map PendingTestRun.created = some (some 5) := by
  intro received finished store
  obtain ⟨hstored, hkeeps⟩ := updatePendingTestRun_history [received, finished]
  have hlate := hkeeps [received] finished [] rfl
  refine ⟨hstored.stage 1, ?_, hstored.created 1⟩
  have hstore : store = updateAll ∅ [received] := hlate.rejected (by decide)
  rw [hstore]
  decide

end Update

end WptFyi.Receiver
