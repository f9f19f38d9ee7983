import WptFyi.Shared.Models

/-!
# Loading runs by their IDs (`shared/errors.go`, `shared/datastore_cloud.go`,
`shared/datastore_cached.go`, `api/diff.go`)

A batch of runs is loaded from the cloud datastore, whose client answers with one error or
nil for each key, or through the cache, where every key is loaded by a goroutine of its own
and one of the errors survives. `loadDiffRuns` looks into the error for runs that do not
exist.

Errors are Go interface values here, with their dynamic type: an error that is a `MultiError` is
not one that is a pointer to it, and `errors.As` with a target for pointers does not find it. A
batch error of the client has an entry for every key, nil for those that were found, and these
entries are kept when it is turned into a `MultiError`, whose text then calls a method on nil.

- `MultiError.error`: the text of the errors, which calls `Error` on each entry;
- `cloudGetMulti`, `cachedGetMulti`, `loadDiffRuns`: the batch, and who asks for it;
- `cloudGetMulti_spec`, `cachedGetMulti_spec`: how the two datastores answer a batch;
- `Classified`: what becomes of the outcomes of the IDs;
- `loadDiffRuns_iff`: the outcomes of which that is true, in either datastore. A nil entry
  has no text, and `errors.As` looks for a pointer that is not there.
-/

namespace WptFyi.Shared

open Lib Lib.GoStrings

/-! ## Errors -/

/-- The errors of one entity. -/
inductive EntityError where
  | noSuchEntity
  | other (text : String)
deriving DecidableEq

def EntityError.error : EntityError → String
  | noSuchEntity => "datastore: entity not found"
  | other text => text

/-- `MultiError`; a nil entry is `none`. -/
structure MultiError where
  errors : List (Option EntityError)
  when : String
deriving DecidableEq

/-- The loop of `MultiError.Error`. On a nil entry there is no method to call: `none`. -/
def errStrs (errors : List (Option EntityError)) : Option (List String) :=
  errors.mapM fun err => err.map EntityError.error

/-- `MultiError.Error`. -/
def MultiError.error (e : MultiError) : Option String :=
  if e.errors.length = 0 then some ""
  else (errStrs e.errors).map fun errStrs =>
    toString e.errors.length ++ " error(s) occurred when " ++ e.when ++ ":\n" ++ join errStrs '\n'

/-- An error that is not nil, by its dynamic type. -/
inductive ErrorValue where
  | entity (e : EntityError)
  | multiError (e : MultiError)
  | multiErrorPointer (e : MultiError)
deriving DecidableEq

/-- `Error()`, as far as it is defined. -/
def ErrorValue.error : ErrorValue → Option String
  | entity e => some e.error
  | multiError e => e.error
  | multiErrorPointer e => e.error

/-- `errors.As` with a `**MultiError`. -/
def ErrorValue.asMultiErrorPointer : ErrorValue → Option MultiError
  | multiErrorPointer e => some e
  | _ => none

/-- `NewMultiError`, whose result is a value and not a pointer. -/
def newMultiError (errors : List (Option EntityError)) (when : String) : Option ErrorValue :=
  if errors.length = 0 then none else some (.multiError ⟨errors, when⟩)

/-! ## Datastores

The two clients that load runs in a batch: that of the cloud, and the one with a cache in front,
which loads one by one. -/

/-- `Key`. -/
structure Key where
  kind : String
  id : Int
deriving DecidableEq

/-- The errors of one key in the client of the cloud datastore. -/
inductive ClientError where
  | noSuchEntity
  | other (text : String)
deriving DecidableEq

/-- How a batch fails: with the errors of its keys, nil for those that are found, or as a
whole. -/
inductive ClientFailure where
  | multi (errors : List (Option ClientError))
  | other (text : String)
deriving DecidableEq

/-- The error of an outcome, nil for a success. -/
def errorOf {ε α : Type} : Except ε α → Option ε
  | .ok _ => none
  | .error e => some e

/-- The client of the cloud datastore. A batch is found when each of its keys is; it fails
as a whole when the call does, so for every key. -/
structure DatastoreClient where
  get : Key → Except ClientError TestRun
  getMulti : List Key → Except ClientFailure (List TestRun)
  getMulti_spec : ∀ keys,
    (∃ runs, getMulti keys = .ok runs ∧ keys.map get = runs.map .ok) ∨
      (∃ key ∈ keys, (errorOf (get key)).isSome) ∧
        (getMulti keys = .error (.multi (keys.map fun key => errorOf (get key))) ∨
          ∃ text, getMulti keys = .error (.other text) ∧
            ∀ key ∈ keys, ∃ text, get key = .error (.other text))

/-- The client's `ErrNoSuchEntity` becomes the package's. -/
def ClientError.shared : ClientError → EntityError
  | noSuchEntity => .noSuchEntity
  | other text => .other text

/-- `cloudDatastore.Get`. -/
def cloudGet (client : DatastoreClient) (k : Key) : Except EntityError TestRun :=
  (client.get k).mapError ClientError.shared

/-- `cloudDatastore.GetMulti`. -/
def cloudGetMulti (client : DatastoreClient) (keys : List Key) :
    Except ErrorValue (List TestRun) :=
  match client.getMulti keys with
  | .ok runs => .ok runs
  | .error (.other text) => .error (.entity (.other text))
  | .error (.multi errors) =>
    match newMultiError (errors.map (·.map ClientError.shared)) "datastore.GetMulti" with
    | none => .ok []
    | some err => .error err

/-- The order in which the goroutines of a batch end. -/
abbrev Schedule := (keys : List Key) → {ended : List Key // ended.Perm keys}

section Cached

variable (client : DatastoreClient) (cache : Key → Option TestRun)

/-- `cachedDatastore.Get`. The run is asked for twice, and the second answer counts. -/
def cachedGet (k : Key) : Except EntityError TestRun :=
  if k.kind ≠ "TestRun" then cloudGet client k
  else
    match cache k with
    | some run => .ok run
    | none => cloudGet client k

/-- `cachedDatastore.GetMulti`: of several errors the one written last stays. -/
def cachedGetMulti (schedule : Schedule) (keys : List Key) : Except ErrorValue (List TestRun) :=
  if ∃ key ∈ keys, key.kind ≠ "TestRun" then cloudGetMulti client keys
  else
    let err := (schedule keys).1.foldl
      (fun err key => (errorOf (cachedGet client cache key)).or err) none
    match err with
    | some err => .error (.entity err)
    | none => .ok (keys.filterMap fun key => (cachedGet client cache key).toOption)

end Cached

/-! ## Runs for a diff -/

/-- `TestRunIDs.GetKeys`. -/
def getKeys (ids : List Int) : List Key := ids.map fun id => ⟨"TestRun", id⟩

/-- `TestRuns.SetTestRunIDs`. -/
def setTestRunIDs (runs : List TestRun) (ids : List Int) : List TestRun :=
  List.zipWith (fun run id => { run with id := id }) runs ids

/-- `TestRunIDs.LoadTestRuns`. -/
def loadTestRuns (getMulti : List Key → Except ErrorValue (List TestRun)) (ids : List Int) :
    Except ErrorValue (List TestRun) :=
  if ids.length > 0 then (getMulti (getKeys ids)).map fun runs => setTestRunIDs runs ids
  else .ok []

/-- `loadDiffRuns` for the IDs of a request; `byFilters` are the runs it loads by the other
parameters when there is none. -/
def loadDiffRuns (getMulti : List Key → Except ErrorValue (List TestRun))
    (byFilters : Except ErrorValue (Option (List TestRun))) (runIDs : List Int) :
    Except ErrorValue (Option (List TestRun)) :=
  if runIDs.length > 0 then
    match loadTestRuns getMulti runIDs with
    | .ok runs => .ok (some runs)
    | .error err =>
      match err.asMultiErrorPointer with
      | none => .error err
      | some multiError =>
        let all404s := multiError.errors.all fun err => err = some .noSuchEntity
        if all404s then .ok none else .error err
  else byFilters

/-- What becomes of a list of IDs: the error of the batch has a text, and the runs, nil or
an error are returned as the outcomes of the IDs say. -/
structure Classified (outcome : Int → Except EntityError TestRun)
    (getMulti : List Key → Except ErrorValue (List TestRun))
    (byFilters : Except ErrorValue (Option (List TestRun))) (ids : List Int) : Prop where
  renders : ∀ err, getMulti (getKeys ids) = .error err → err.error.isSome
  found : ids ≠ [] → ∀ runs, ids.map outcome = runs.map .ok →
    loadDiffRuns getMulti byFilters ids = .ok (some (setTestRunIDs runs ids))
  notFound : (∃ id ∈ ids, (errorOf (outcome id)).isSome) →
    (∀ id ∈ ids, ∀ err, outcome id = .error err → err = .noSuchEntity) →
    loadDiffRuns getMulti byFilters ids = .ok none
  failed : (∃ id ∈ ids, ∃ text, outcome id = .error (.other text)) →
    ∃ err, loadDiffRuns getMulti byFilters ids = .error err

/-! ## Texts of errors -/

@[simp] theorem errorOf_ok {ε α : Type} (a : α) : errorOf (.ok a : Except ε α) = none := rfl

@[simp] theorem errorOf_error {ε α : Type} (e : ε) : errorOf (.error e : Except ε α) = some e := rfl

/-- The loop calls a method on every entry, so none may be nil. -/
theorem isSome_errStrs_iff (errors : List (Option EntityError)) :
    (errStrs errors).isSome ↔ ∀ err ∈ errors, err.isSome := by
  induction errors with
  | nil => simp [errStrs]
  | cons err errors ih =>
    rw [List.forall_mem_cons, ← ih]
    unfold errStrs
    rw [List.mapM_cons]
    cases err with
    | none => simp
    | some err =>
      cases errors.mapM fun err : Option EntityError => err.map EntityError.error <;> simp

/-- **The text of several errors** needs an error in every place. -/
theorem MultiError.isSome_error_iff (e : MultiError) :
    e.error.isSome ↔ ∀ err ∈ e.errors, err.isSome := by
  unfold MultiError.error
  split
  · next hlength => simp [List.length_eq_zero_iff.mp hlength]
  · rw [Option.isSome_map, isSome_errStrs_iff]

/-! ## What a batch gives

The runs that were found and the errors of the others, as the caller reads them off the answer. -/

/-- A list of which all are found is a list of runs. -/
theorem exists_runs {ε κ : Type} {get : κ → Except ε TestRun} {keys : List κ}
    (h : ∀ key ∈ keys, ∃ run, get key = .ok run) :
    ∃ runs : List TestRun, keys.map get = runs.map .ok := by
  induction keys with
  | nil => exact ⟨[], rfl⟩
  | cons key keys ih =>
    obtain ⟨hkey, hkeys⟩ := List.forall_mem_cons.mp h
    obtain ⟨run, hrun⟩ := hkey
    obtain ⟨runs, hruns⟩ := ih hkeys
    exact ⟨run :: runs, by rw [List.map_cons, List.map_cons, hrun, hruns]⟩

theorem found_of_runs {ε κ : Type} {get : κ → Except ε TestRun} {keys : List κ}
    {runs : List TestRun} (h : keys.map get = runs.map .ok) :
    ∀ key ∈ keys, ∃ run, get key = .ok run := by
  intro key hkey
  have hmem : get key ∈ runs.map .ok := h ▸ List.mem_map_of_mem hkey
  obtain ⟨run, -, hrun⟩ := List.mem_map.mp hmem
  exact ⟨run, hrun.symm⟩

/-- The runs are what is left of the outcomes. -/
theorem filterMap_toOption {ε κ : Type} {get : κ → Except ε TestRun} {keys : List κ}
    {runs : List TestRun} (h : keys.map get = runs.map .ok) :
    keys.filterMap (fun key => (get key).toOption) = runs := by
  have hcomp : (fun key => (get key).toOption) = Except.toOption ∘ get := rfl
  rw [hcomp, ← List.filterMap_map, h, List.filterMap_map]
  exact List.filterMap_some

/-- A run for each key, or an error in one of them. -/
theorem found_or_failed {ε κ : Type} (get : κ → Except ε TestRun) (keys : List κ) :
    (∀ key ∈ keys, ∃ run, get key = .ok run) ∨ ∃ key ∈ keys, ∃ err, get key = .error err := by
  by_cases h : ∃ key ∈ keys, ∃ err, get key = .error err
  · exact Or.inr h
  · refine Or.inl fun key hkey => ?_
    cases hget : get key with
    | ok run => exact ⟨run, rfl⟩
    | error err => exact absurd ⟨key, hkey, err, hget⟩ h

/-- How a batch answers: with the runs when all are found, with an error that is not a
pointer otherwise. -/
structure AnswersBatch (outcome : Int → Except EntityError TestRun)
    (getMulti : List Key → Except ErrorValue (List TestRun)) (ids : List Int) : Prop where
  ok : ∀ runs, ids.map outcome = runs.map .ok → getMulti (getKeys ids) = .ok runs
  error : ∀ id ∈ ids, ∀ err, outcome id = .error err →
    ∃ err, getMulti (getKeys ids) = .error err ∧ err.asMultiErrorPointer = none

section Batch

variable {outcome : Int → Except EntityError TestRun}
  {getMulti : List Key → Except ErrorValue (List TestRun)}
  {byFilters : Except ErrorValue (Option (List TestRun))} {ids : List Int}

theorem loadDiffRuns_of_ok (hids : ids ≠ []) {runs : List TestRun}
    (h : getMulti (getKeys ids) = .ok runs) :
    loadDiffRuns getMulti byFilters ids = .ok (some (setTestRunIDs runs ids)) := by
  have hlength : ids.length > 0 := List.length_pos_iff.mpr hids
  rw [loadDiffRuns, if_pos hlength, loadTestRuns, if_pos hlength, h]
  rfl

/-- **The search for runs that do not exist** never succeeds: the error is returned. -/
theorem loadDiffRuns_of_error (hids : ids ≠ []) {err : ErrorValue}
    (h : getMulti (getKeys ids) = .error err) (hpointer : err.asMultiErrorPointer = none) :
    loadDiffRuns getMulti byFilters ids = .error err := by
  have hlength : ids.length > 0 := List.length_pos_iff.mpr hids
  rw [loadDiffRuns, if_pos hlength, loadTestRuns, if_pos hlength, h]
  show (match err.asMultiErrorPointer with | none => _ | some multiError => _) = _
  rw [hpointer]

/-- So a batch is classified when its error has a text and is not for missing runs only. -/
theorem AnswersBatch.classified_iff (h : AnswersBatch outcome getMulti ids) :
    Classified outcome getMulti byFilters ids ↔
      (∀ err, getMulti (getKeys ids) = .error err → err.error.isSome) ∧
        ((∀ id ∈ ids, ∃ run, outcome id = .ok run) ∨
          ∃ id ∈ ids, ∃ text, outcome id = .error (.other text)) := by
  constructor
  · intro hclassified
    refine ⟨hclassified.renders, ?_⟩
    rcases found_or_failed outcome ids with hfound | ⟨id, hid, err, herr⟩
    · exact Or.inl hfound
    · by_contra hcond
      obtain ⟨-, hother⟩ := not_or.mp hcond
      -- every failure is a missing run, and still an error comes back
      have hmissing : ∀ id ∈ ids, ∀ err, outcome id = .error err → err = .noSuchEntity := by
        intro id hid err herr
        cases err with
        | noSuchEntity => rfl
        | other text => exact absurd ⟨id, hid, text, herr⟩ hother
      have hnil := hclassified.notFound ⟨id, hid, by rw [herr]; rfl⟩ hmissing
      obtain ⟨err, hbatch, hpointer⟩ := h.error id hid err herr
      rw [loadDiffRuns_of_error (List.ne_nil_of_mem hid) hbatch hpointer] at hnil
      cases hnil
  · rintro ⟨hrenders, hcond⟩
    refine ⟨hrenders, ?_, ?_, ?_⟩
    · intro hids runs hruns
      exact loadDiffRuns_of_ok hids (h.ok runs hruns)
    · rintro ⟨id, hid, hfails⟩ hmissing
      rcases hcond with hfound | ⟨id, hid, text, htext⟩
      · obtain ⟨run, hrun⟩ := hfound id hid
        rw [hrun] at hfails
        cases hfails
      · cases hmissing id hid _ htext
    · rintro ⟨id, hid, text, htext⟩
      obtain ⟨err, hbatch, hpointer⟩ := h.error id hid _ htext
      exact ⟨err, loadDiffRuns_of_error (List.ne_nil_of_mem hid) hbatch hpointer⟩

end Batch

/-! ## The two datastores -/

section Datastores

variable (client : DatastoreClient) (cache : Key → Option TestRun)

/-- What the cloud datastore has for an ID. -/
def cloudOutcome (id : Int) : Except EntityError TestRun := cloudGet client ⟨"TestRun", id⟩

/-- What the cached datastore has for an ID. -/
def cachedOutcome (id : Int) : Except EntityError TestRun :=
  cachedGet client cache ⟨"TestRun", id⟩

variable {client cache}

theorem errorOf_cloudGet (k : Key) :
    errorOf (cloudGet client k) = (errorOf (client.get k)).map ClientError.shared := by
  unfold cloudGet
  cases client.get k <;> rfl

/-- **A batch of the cloud datastore**: the runs, the errors of all keys, or one error
when no key was found. -/
theorem cloudGetMulti_spec (client : DatastoreClient) (keys : List Key) :
    (∃ runs, cloudGetMulti client keys = .ok runs ∧ keys.map (cloudGet client) = runs.map .ok) ∨
      (∃ key ∈ keys, (errorOf (cloudGet client key)).isSome) ∧
        (cloudGetMulti client keys = .error (.multiError
            ⟨keys.map fun key => errorOf (cloudGet client key), "datastore.GetMulti"⟩) ∨
          ∃ text, cloudGetMulti client keys = .error (.entity (.other text)) ∧
            ∀ key ∈ keys, (errorOf (cloudGet client key)).isSome) := by
  unfold cloudGetMulti
  rcases client.getMulti_spec keys with ⟨runs, hbatch, hruns⟩ | ⟨⟨key, hkey, hfails⟩, hbatch⟩
  · refine Or.inl ⟨runs, by rw [hbatch], ?_⟩
    have hcloud : cloudGet client = fun key => (client.get key).mapError ClientError.shared := rfl
    have hmap : keys.map (cloudGet client) =
        (keys.map client.get).map fun r => r.mapError ClientError.shared := by
      rw [hcloud, List.map_map]
      rfl
    rw [hmap, hruns, List.map_map]
    rfl
  · refine Or.inr ⟨⟨key, hkey, by rwa [errorOf_cloudGet, Option.isSome_map]⟩, ?_⟩
    rcases hbatch with hbatch | ⟨text, hbatch, hall⟩
    · -- the list is not empty, and so the error is not nil
      have hlength : ((keys.map fun key => errorOf (client.get key)).map
          fun err => err.map ClientError.shared).length ≠ 0 := by
        simpa using List.ne_nil_of_mem hkey
      refine Or.inl ?_
      rw [hbatch]
      show (match newMultiError _ _ with | none => _ | some err => _) = _
      rw [newMultiError, if_neg hlength, List.map_map]
      simp only [errorOf_cloudGet]
      rfl
    · refine Or.inr ⟨text, by rw [hbatch], fun key hkey => ?_⟩
      obtain ⟨text, htext⟩ := hall key hkey
      rw [errorOf_cloudGet, htext]
      rfl

theorem map_getKeys {α : Type} (f : Key → α) (ids : List Int) :
    (getKeys ids).map f = ids.map fun id => f ⟨"TestRun", id⟩ := by
  rw [getKeys, List.map_map]
  rfl

theorem mem_getKeys {ids : List Int} {key : Key} :
    key ∈ getKeys ids ↔ ∃ id ∈ ids, (⟨"TestRun", id⟩ : Key) = key :=
  List.mem_map

/-- The cloud datastore answers with the errors of all keys, as a value. -/
theorem answersBatch_cloud (client : DatastoreClient) (ids : List Int) :
    AnswersBatch (cloudOutcome client) (cloudGetMulti client) ids where
  ok runs hruns := by
    have hkeys : (getKeys ids).map (cloudGet client) = runs.map .ok :=
      (map_getKeys _ ids).trans hruns
    rcases cloudGetMulti_spec client (getKeys ids) with ⟨runs', hbatch, hruns'⟩ | ⟨hfails, -⟩
    · rw [hbatch]
      refine congrArg _ (List.map_injective_iff.mpr ?_ (hruns'.symm.trans hkeys))
      exact fun run run' heq => Except.ok.inj heq
    · obtain ⟨key, hkey, hsome⟩ := hfails
      obtain ⟨run, hrun⟩ := found_of_runs hkeys key hkey
      rw [hrun] at hsome
      cases hsome
  error id hid err herr := by
    have hkey : (⟨"TestRun", id⟩ : Key) ∈ getKeys ids := mem_getKeys.mpr ⟨id, hid, rfl⟩
    rcases cloudGetMulti_spec client (getKeys ids) with ⟨runs, -, hruns⟩ |
      ⟨-, hbatch | ⟨_, hbatch, -⟩⟩
    · obtain ⟨run, hrun⟩ := found_of_runs hruns _ hkey
      cases herr.symm.trans hrun
    · exact ⟨_, hbatch, rfl⟩
    · exact ⟨_, hbatch, rfl⟩

/-- The error of a cloud batch has a text when all keys were found, or none. -/
theorem renders_cloud_iff (client : DatastoreClient) (ids : List Int) :
    (∀ err, cloudGetMulti client (getKeys ids) = .error err → err.error.isSome) ↔
      (∀ id ∈ ids, ∃ run, cloudOutcome client id = .ok run) ∨
        ∀ id ∈ ids, ∃ err, cloudOutcome client id = .error err := by
  have hsome : ∀ key, (errorOf (cloudGet client key)).isSome ↔
      ∃ err, cloudGet client key = .error err := by
    intro key
    cases cloudGet client key <;> simp
  rcases cloudGetMulti_spec client (getKeys ids) with ⟨runs, hbatch, hruns⟩ | ⟨hfails, hbatch⟩
  · -- all are found, and there is no error
    refine iff_of_true (fun err herr => nomatch hbatch.symm.trans herr) (Or.inl fun id hid => ?_)
    exact found_of_runs hruns _ (mem_getKeys.mpr ⟨id, hid, rfl⟩)
  · obtain ⟨key, hkey, hfails⟩ := hfails
    obtain ⟨id, hid, rfl⟩ := mem_getKeys.mp hkey
    have hnot : ¬ ∀ id ∈ ids, ∃ run, cloudOutcome client id = .ok run := by
      intro hfound
      obtain ⟨run, hrun⟩ := hfound id hid
      obtain ⟨err, herr⟩ := (hsome _).mp hfails
      exact nomatch hrun.symm.trans herr
    rw [or_iff_right hnot]
    rcases hbatch with hbatch | ⟨text, hbatch, hall⟩
    · -- each key has its place in the error
      rw [hbatch]
      simp only [Except.error.injEq, forall_eq', ErrorValue.error, MultiError.isSome_error_iff,
        map_getKeys, List.forall_mem_map, hsome, cloudOutcome]
    · refine iff_of_true ?_ fun id hid => (hsome _).mp (hall _ (mem_getKeys.mpr ⟨id, hid, rfl⟩))
      intro err herr
      cases hbatch.symm.trans herr
      rfl

/-! ## The cached datastore

The loads run side by side and the last error is the one that is returned, so what is returned
depends on the order in which they end. -/

/-- The error that stays is that of some key, if any key has one. -/
theorem lastError_spec {ε κ : Type} (get : κ → Except ε TestRun) (ended : List κ) (err : Option ε) :
    ended.foldl (fun err key => (errorOf (get key)).or err) err = err ∧
        (∀ key ∈ ended, ∃ run, get key = .ok run) ∨
      ∃ key ∈ ended, ∃ e, get key = .error e ∧
        ended.foldl (fun err key => (errorOf (get key)).or err) err = some e := by
  induction ended generalizing err with
  | nil => exact Or.inl ⟨rfl, fun key hkey => absurd hkey List.not_mem_nil⟩
  | cons key ended ih =>
    rw [List.foldl_cons]
    rcases ih ((errorOf (get key)).or err) with ⟨hsame, hfound⟩ | ⟨key', hkey', e, he, hlast⟩
    · -- no goroutine after this one writes an error
      rw [hsame]
      cases hget : get key with
      | ok run => exact Or.inl ⟨rfl, List.forall_mem_cons.mpr ⟨⟨run, hget⟩, hfound⟩⟩
      | error e => exact Or.inr ⟨key, List.mem_cons_self, e, hget, rfl⟩
    · exact Or.inr ⟨key', List.mem_cons_of_mem _ hkey', e, he, hlast⟩

/-- The goroutines of a batch, in the order in which they end: the last error that is written
stays. -/
theorem cachedGetMulti_getKeys (client : DatastoreClient) (cache : Key → Option TestRun)
    (schedule : Schedule) (ids : List Int) :
    cachedGetMulti client cache schedule (getKeys ids) =
      match (schedule (getKeys ids)).1.foldl
        (fun err key => (errorOf (cachedGet client cache key)).or err) none with
      | some err => .error (.entity err)
      | none => .ok ((getKeys ids).filterMap fun key => (cachedGet client cache key).toOption) := by
  have hkinds : ¬ ∃ key ∈ getKeys ids, key.kind ≠ "TestRun" := by
    rintro ⟨key, hkey, hkind⟩
    obtain ⟨id, -, rfl⟩ := mem_getKeys.mp hkey
    exact hkind rfl
  rw [cachedGetMulti, if_neg hkinds]

/-- **A batch of the cached datastore**: the runs, or the error of one ID. -/
theorem cachedGetMulti_spec (client : DatastoreClient) (cache : Key → Option TestRun)
    (schedule : Schedule) (ids : List Int) :
    (∃ runs, cachedGetMulti client cache schedule (getKeys ids) = .ok runs ∧
        ids.map (cachedOutcome client cache) = runs.map .ok) ∨
      ∃ id ∈ ids, ∃ err, cachedOutcome client cache id = .error err ∧
        cachedGetMulti client cache schedule (getKeys ids) = .error (.entity err) := by
  rw [cachedGetMulti_getKeys]
  have hperm := (schedule (getKeys ids)).2
  rcases lastError_spec (cachedGet client cache) (schedule (getKeys ids)).1 none with
    ⟨hnil, hfound⟩ | ⟨key, hkey, err, herr, hlast⟩
  · refine Or.inl ⟨_, by rw [hnil], ?_⟩
    obtain ⟨runs, hruns⟩ := exists_runs fun key hkey => hfound key (hperm.mem_iff.mpr hkey)
    rw [filterMap_toOption hruns, ← hruns, map_getKeys]
    rfl
  · obtain ⟨id, hid, rfl⟩ := mem_getKeys.mp (hperm.mem_iff.mp hkey)
    exact Or.inr ⟨id, hid, err, herr, by rw [hlast]⟩

/-- The cached datastore answers with the error of one ID. -/
theorem answersBatch_cached (client : DatastoreClient) (cache : Key → Option TestRun)
    (schedule : Schedule) (ids : List Int) :
    AnswersBatch (cachedOutcome client cache) (cachedGetMulti client cache schedule) ids where
  ok runs hruns := by
    rcases cachedGetMulti_spec client cache schedule ids with
      ⟨runs', hbatch, hruns'⟩ | ⟨id, hid, err, herr, -⟩
    · rw [hbatch]
      refine congrArg _ (List.map_injective_iff.mpr ?_ (hruns'.symm.trans hruns))
      exact fun run run' heq => Except.ok.inj heq
    · obtain ⟨run, hrun⟩ := found_of_runs hruns id hid
      cases hrun.symm.trans herr
  error id hid err herr := by
    rcases cachedGetMulti_spec client cache schedule ids with
      ⟨runs, -, hruns⟩ | ⟨_, -, err', -, hbatch⟩
    · obtain ⟨run, hrun⟩ := found_of_runs hruns id hid
      cases hrun.symm.trans herr
    · exact ⟨_, hbatch, rfl⟩

/-- One error of the cached datastore always has a text. -/
theorem renders_cached (client : DatastoreClient) (cache : Key → Option TestRun)
    (schedule : Schedule) (ids : List Int) (err : ErrorValue)
    (h : cachedGetMulti client cache schedule (getKeys ids) = .error err) : err.error.isSome := by
  rcases cachedGetMulti_spec client cache schedule ids with
    ⟨runs, hbatch, -⟩ | ⟨_, -, err', -, hbatch⟩
  · cases hbatch.symm.trans h
  · cases hbatch.symm.trans h
    rfl

/-! ## Runs for a diff -/

/-- **The outcomes that are classified.** In the cloud datastore: all runs found, or none
and not all of them for lack of an entity; in the cached one: all found, or an error other
than that one. -/
theorem loadDiffRuns_iff (client : DatastoreClient) (cache : Key → Option TestRun)
    (schedule : Schedule) (byFilters : Except ErrorValue (Option (List TestRun)))
    (ids : List Int) :
    (Classified (cloudOutcome client) (cloudGetMulti client) byFilters ids ↔
        (∀ id ∈ ids, ∃ run, cloudOutcome client id = .ok run) ∨
          (∀ id ∈ ids, ∃ err, cloudOutcome client id = .error err) ∧
            ∃ id ∈ ids, ∃ text, cloudOutcome client id = .error (.other text)) ∧
      (Classified (cachedOutcome client cache) (cachedGetMulti client cache schedule) byFilters
          ids ↔
        (∀ id ∈ ids, ∃ run, cachedOutcome client cache id = .ok run) ∨
          ∃ id ∈ ids, ∃ text, cachedOutcome client cache id = .error (.other text)) := by
  constructor
  · rw [(answersBatch_cloud client ids).classified_iff, renders_cloud_iff]
    tauto
  · rw [(answersBatch_cached client cache schedule ids).classified_iff]
    exact and_iff_right fun err => renders_cached client cache schedule ids err

end Datastores

/-- A client whose calls never fail as a whole. -/
def DatastoreClient.ofGet (get : Key → Except ClientError TestRun) : DatastoreClient where
  get := get
  getMulti keys :=
    if ∃ key ∈ keys, (errorOf (get key)).isSome then
      .error (.multi (keys.map fun key => errorOf (get key)))
    else .ok (keys.filterMap fun key => (get key).toOption)
  getMulti_spec keys := by
    split
    · next hfails => exact Or.inr ⟨hfails, Or.inl rfl⟩
    · next hfound =>
      refine Or.inl ⟨_, rfl, ?_⟩
      have hall : ∀ key ∈ keys, ∃ run, get key = .ok run := by
        intro key hkey
        cases hget : get key with
        | ok run => exact ⟨run, rfl⟩
        | error err => exact absurd ⟨key, hkey, by rw [hget]; rfl⟩ hfound
      obtain ⟨runs, hruns⟩ := exists_runs hall
      rw [filterMap_toOption hruns, hruns]

/-- **A missing run** beside one that is found: the cloud datastore's error has no text. And
a missing run alone is an error instead of nil in the cached one. -/
theorem not_classified_missing :
    let client := DatastoreClient.ofGet fun key =>
      if key.id = 1 then .ok { id := 1, browserName := "chrome" } else .error .noSuchEntity
    ¬ Classified (cloudOutcome client) (cloudGetMulti client) (.ok none) [1, 2] ∧
      ¬ Classified (cachedOutcome client fun _ => none)
        (cachedGetMulti client (fun _ => none) fun keys => ⟨keys, .refl _⟩) (.ok none) [2] := by
  refine ⟨fun h => ?_, fun h => ?_⟩
  · have hrenders := h.renders _ rfl
    exact absurd hrenders (by decide)
  · have hmissing : ∀ id ∈ [(2 : Int)], ∀ err,
        cachedOutcome (DatastoreClient.ofGet fun key => if key.id = 1 then
          .ok { id := 1, browserName := "chrome" } else .error .noSuchEntity) (fun _ => none) id =
          .error err → err = .noSuchEntity := by
      intro id hid err herr
      cases List.mem_singleton.mp hid
      cases herr
      rfl
    have hnil := h.notFound ⟨2, by decide, rfl⟩ hmissing
    exact absurd hnil (by decide)

end WptFyi.Shared
