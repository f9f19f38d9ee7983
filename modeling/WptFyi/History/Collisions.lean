import WptFyi.History.Replay

/-!
# Rows that share a key

Several rows of a report can have one key: a subtest is repeated, names become
equal when whitespace is replaced or a long name is cut, and a subtest without a
name has the key of its test. The walk remembers a key only when it wrote an entry
for it, so which row decides depends on the statuses from before.

If the first row has the status that is known already, no entry is written and the key is open for
the next row; the first row that differs decides, and the rows after it are ignored. So the status
after a run is a function of the rows and of the status before (`recordedStatus`), and the same
report processed twice can flip a status each time. It is a function of the report alone exactly
when the rows of each key agree.

- `recordedStatus`: the status a key has after its rows;
- `foldl_applyObservation_lookup`: the walk records just that;
- `StatusesFromReport`: the statuses after a call are a function of the report, and
  the same report again changes nothing;
- `statusesFromReport_iff`: so it is for the reports whose rows with one key agree.
-/

namespace WptFyi.History

open Lib Lib.DeltaLog

/-- The statuses of the rows with a key. -/
def rowsOf (key : TestKey) (obs : List (TestKey × String)) : List String :=
  obs.filterMap fun o => if o.1 = key then some o.2 else none

/-- The rows of a key. -/
theorem mem_rowsOf {key : TestKey} {obs : List (TestKey × String)} {status : String} :
    status ∈ rowsOf key obs ↔ (key, status) ∈ obs := by
  rw [rowsOf, List.mem_filterMap]
  constructor
  · rintro ⟨⟨key', status'⟩, hmem, heq⟩
    split at heq
    · next hkey =>
      obtain rfl : key' = key := hkey
      cases heq
      exact hmem
    · cases heq
  · exact fun hmem => ⟨(key, status), hmem, if_pos rfl⟩

/-- The first row with another status than before decides. -/
def recordedStatus (previous : Option String) (rows : List String) : Option String :=
  (rows.find? fun status => previous ≠ some status).or previous

/-- Rows that agree leave their status. -/
theorem recordedStatus_of_agree {previous : Option String} {rows : List String} {status : String}
    (hrow : status ∈ rows) (hagree : ∀ status' ∈ rows, status' = status) :
    recordedStatus previous rows = some status := by
  by_cases hprevious : previous = some status
  · have hnone : rows.find? (fun status => previous ≠ some status) = none := by
      rw [List.find?_eq_none]
      intro status' hstatus'
      rw [hagree status' hstatus', hprevious]
      simp
    rw [recordedStatus, hnone, Option.none_or, hprevious]
  · cases hfind : rows.find? (fun status => previous ≠ some status) with
    | none =>
      have := List.find?_eq_none.mp hfind status hrow
      simp [hprevious] at this
    | some status' =>
      rw [recordedStatus, hfind, Option.some_or, hagree status' (List.mem_of_find?_eq_some hfind)]

/-- Rows that do not agree leave a status that depends on the one before. -/
theorem recordedStatus_ne {rows : List String} {a b : String} (ha : a ∈ rows) (hb : b ∈ rows)
    (hne : a ≠ b) :
    ∃ p q, recordedStatus (some p) rows ≠ recordedStatus (some q) rows := by
  cases rows with
  | nil => exact absurd ha List.not_mem_nil
  | cons first rest =>
    -- the first row's own status gives way to another row, any other to the first row
    obtain ⟨q, hq, hqfirst⟩ : ∃ q ∈ first :: rest, q ≠ first := by
      by_cases hfirst : a = first
      · exact ⟨b, hb, fun heq => hne (hfirst.trans heq.symm)⟩
      · exact ⟨a, ha, hfirst⟩
    refine ⟨first, q, ?_⟩
    have hother : recordedStatus (some q) (first :: rest) = some first := by
      simp [recordedStatus, hqfirst]
    rw [hother, recordedStatus]
    cases hfind : (first :: rest).find? (fun status => some first ≠ some status) with
    | none =>
      have := List.find?_eq_none.mp hfind q hq
      simp [hqfirst.symm] at this
    | some status =>
      have hstatus := List.find?_some hfind
      rw [Option.some_or]
      exact fun heq => of_decide_eq_true hstatus heq.symm

section Walk

variable (sha256 : String → String) (run : RunMetadata)

theorem applyObservation_of_known {s : RunState} {o : TestKey × String}
    (h : o.1 ∈ s.uniqueEntitiesToWrite ∨ s.prevTestStatuses.lookup o.1 = some o.2) :
    applyObservation sha256 run s o = s := if_pos h

/-- A changed status is recorded, and its key will not be looked at again. -/
theorem applyObservation_of_changed {s : RunState} {o : TestKey × String}
    (h : ¬(o.1 ∈ s.uniqueEntitiesToWrite ∨ s.prevTestStatuses.lookup o.1 = some o.2)) :
    (applyObservation sha256 run s o).prevTestStatuses = s.prevTestStatuses.insert o.1 o.2 ∧
      (applyObservation sha256 run s o).uniqueEntitiesToWrite =
        insert o.1 s.uniqueEntitiesToWrite := by
  rw [applyObservation, if_neg h]
  unfold RunState.push
  dsimp only
  split <;> exact ⟨rfl, rfl⟩

/-- A key that was written keeps its status. -/
theorem foldl_applyObservation_of_written (obs : List (TestKey × String)) {s : RunState}
    {key : TestKey} (hkey : key ∈ s.uniqueEntitiesToWrite) :
    (obs.foldl (applyObservation sha256 run) s).prevTestStatuses.lookup key =
      s.prevTestStatuses.lookup key := by
  induction obs generalizing s with
  | nil => rfl
  | cons o obs ih =>
    rw [List.foldl_cons]
    by_cases hknown : o.1 ∈ s.uniqueEntitiesToWrite ∨ s.prevTestStatuses.lookup o.1 = some o.2
    · rw [applyObservation_of_known sha256 run hknown]
      exact ih hkey
    · obtain ⟨hprev, hunique⟩ := applyObservation_of_changed sha256 run hknown
      have hne : key ≠ o.1 := fun heq => hknown (Or.inl (heq ▸ hkey))
      rw [ih (hunique ▸ Finset.mem_insert_of_mem hkey), hprev, Finmap.lookup_insert_of_ne _ hne]

/-- **The walk over rows**: a key that was not written yet ends with the recorded
status of its rows. -/
theorem foldl_applyObservation_lookup (obs : List (TestKey × String)) {s : RunState}
    {key : TestKey} (hkey : key ∉ s.uniqueEntitiesToWrite) :
    (obs.foldl (applyObservation sha256 run) s).prevTestStatuses.lookup key =
      recordedStatus (s.prevTestStatuses.lookup key) (rowsOf key obs) := by
  induction obs generalizing s with
  | nil => rfl
  | cons o obs ih =>
    rw [List.foldl_cons]
    by_cases hown : o.1 = key
    · subst hown
      have hrows : rowsOf o.1 (o :: obs) = o.2 :: rowsOf o.1 obs := by simp [rowsOf]
      rw [hrows]
      -- a row that says what is known is passed over, and the first other one is written
      by_cases hsame : s.prevTestStatuses.lookup o.1 = some o.2
      · rw [applyObservation_of_known sha256 run (Or.inr hsame), ih hkey, recordedStatus,
          recordedStatus, List.find?_cons_of_neg (by simpa using hsame)]
      · obtain ⟨hprev, hunique⟩ := applyObservation_of_changed sha256 run
          (not_or.mpr ⟨hkey, hsame⟩)
        rw [foldl_applyObservation_of_written sha256 run obs
          (hunique ▸ Finset.mem_insert_self _ _), hprev, Finmap.lookup_insert, recordedStatus,
          List.find?_cons_of_pos (by simpa using hsame), Option.some_or]
    · have hrows : rowsOf key (o :: obs) = rowsOf key obs := by simp [rowsOf, hown]
      rw [hrows]
      by_cases hknown : o.1 ∈ s.uniqueEntitiesToWrite ∨ s.prevTestStatuses.lookup o.1 = some o.2
      · rw [applyObservation_of_known sha256 run hknown]
        exact ih hkey
      · obtain ⟨hprev, hunique⟩ := applyObservation_of_changed sha256 run hknown
        have hfresh : key ∉ (applyObservation sha256 run s o).uniqueEntitiesToWrite := by
          rw [hunique, Finset.mem_insert]
          exact not_or.mpr ⟨Ne.symm hown, hkey⟩
        rw [ih hfresh, hprev, Finmap.lookup_insert_of_ne _ (Ne.symm hown)]

/-- Rows that are all known change nothing. -/
theorem foldl_applyObservation_of_known {obs : List (TestKey × String)} {s : RunState}
    (h : ∀ o ∈ obs, s.prevTestStatuses.lookup o.1 = some o.2) :
    obs.foldl (applyObservation sha256 run) s = s := by
  induction obs with
  | nil => rfl
  | cons o obs ih =>
    rw [List.foldl_cons, applyObservation_of_known sha256 run (Or.inr (h o List.mem_cons_self))]
    exact ih fun o' ho' => h o' (List.mem_cons_of_mem _ ho')

end Walk

/-! ## A whole call -/

/-- The rows of a call are those of the report for a key the report mentions. -/
theorem rowsOf_allObservations_of_mem {order : RangeOrder TestKey} {report : Report}
    {known : Finset TestKey} {key : TestKey} (hkey : key ∈ reportKeys report) :
    rowsOf key (allObservations order report known) = rowsOf key (observations report) := by
  have hmissing : rowsOf key ((order (known \ ((observations report).map Prod.fst).toFinset)).1.map
      fun key => (key, "MISSING")) = [] := by
    rw [List.eq_nil_iff_forall_not_mem]
    intro status hstatus
    obtain ⟨key', hkey', heq⟩ := List.mem_map.mp (mem_rowsOf.mp hstatus)
    cases heq
    rw [mem_rangeOrder, Finset.mem_sdiff, List.mem_toFinset] at hkey'
    exact hkey'.2 hkey
  rw [allObservations, rowsOf, List.filterMap_append, ← rowsOf, ← rowsOf, hmissing,
    List.append_nil]

/-- A key that the report does not mention is missing, if it was known. -/
theorem rowsOf_allObservations_of_notMem {order : RangeOrder TestKey} {report : Report}
    {known : Finset TestKey} {key : TestKey} (hkey : key ∉ reportKeys report) {status : String} :
    status ∈ rowsOf key (allObservations order report known) ↔
      key ∈ known ∧ status = "MISSING" := by
  rw [mem_rowsOf, allObservations, List.mem_append, or_iff_right]
  · rw [List.mem_map]
    constructor
    · rintro ⟨key', hkey', heq⟩
      cases heq
      rw [mem_rangeOrder, Finset.mem_sdiff] at hkey'
      exact ⟨hkey'.1, rfl⟩
    · rintro ⟨hknown, rfl⟩
      refine ⟨key, ?_, rfl⟩
      rw [mem_rangeOrder, Finset.mem_sdiff, List.mem_toFinset]
      exact ⟨hknown, hkey⟩
  · exact fun hmem => hkey (List.mem_map.mpr ⟨(key, status), hmem, rfl⟩)

/-- What the walk leaves in the dict. -/
def walked (sha256 : String → String) (call : RunCall) (report : Report) (statuses : Statuses) :
    RunState :=
  (allObservations call.order report statuses.keys).foldl (applyObservation sha256 call.run)
    (startState statuses)

/-- **A call without an exception**: in the normal mode the cache has the dict that
the walk leaves, and the batches are those of the walk. -/
theorem processSingleRun_walked {sha256 : String → String} {args : Args} {bucket : StatusesBucket}
    {cache cache₁ : StatusesCache} {call : RunCall} {report : Report} {statuses : Statuses}
    (hfetched : call.fetched = some report)
    (hstatuses : populatePreviousStatuses args bucket cache call.run.browserName =
      .ok (statuses, cache₁))
    (hok : (processSingleRun sha256 args bucket cache call).exception = none) :
    let out := processSingleRun sha256 args bucket cache call
    out.cache = (if args.generateNewStatusesJson then cache₁
      else cache₁.insert call.run.browserName
        (walked sha256 call report statuses).prevTestStatuses) ∧
      putBatches out.trace = putBatches (walked sha256 call report statuses).flushRest.trace := by
  unfold processSingleRun at hok ⊢
  rw [hfetched] at hok ⊢
  simp only [hstatuses] at hok ⊢
  rcases processReport_cases sha256 call.run call.order report (startState statuses) with
    ⟨notSeen, hwalk⟩ | ⟨msg, pre, post, notSeen, _, hwalk⟩
  · rw [hwalk]
    refine ⟨?_, rfl⟩
    have hprev := prevTestStatuses_flushRest (walked sha256 call report statuses)
    rw [← hprev]
    rfl
  · rw [hwalk] at hok
    exact absurd hok (Option.some_ne_none msg)

/-- What the cache has after a call in the normal mode. -/
theorem processSingleRun_lookup {sha256 : String → String} {bucket : StatusesBucket}
    {cache cache₁ : StatusesCache} {call : RunCall} {report : Report} {statuses : Statuses}
    (hfetched : call.fetched = some report)
    (hstatuses : populatePreviousStatuses {} bucket cache call.run.browserName =
      .ok (statuses, cache₁))
    (hok : (processSingleRun sha256 {} bucket cache call).exception = none) :
    (processSingleRun sha256 {} bucket cache call).cache.lookup call.run.browserName =
      some (walked sha256 call report statuses).prevTestStatuses := by
  rw [(processSingleRun_walked hfetched hstatuses hok).1, if_neg Bool.false_ne_true,
    Finmap.lookup_insert]

theorem walked_lookup (sha256 : String → String) (call : RunCall) (report : Report)
    (statuses : Statuses) (key : TestKey) :
    (walked sha256 call report statuses).prevTestStatuses.lookup key =
      recordedStatus (statuses.lookup key)
        (rowsOf key (allObservations call.order report statuses.keys)) :=
  foldl_applyObservation_lookup sha256 call.run _ (Finset.notMem_empty key)

/-! ## Calls that raise nothing

Only a key name that is too long for the Datastore raises in the walk. The name has a hash of fixed
length in it, so it is the ID of the run that matters. -/

section Ok

variable {sha256 : String → String} {run : RunMetadata}

/-- A status is written or found unchanged; only a name that is too long for a key would raise. -/
theorem writeIfNeeded_ok
    (hshort : ∀ key : TestKey, (entryKeyName sha256 run.id key.1 key.2).length ≤ maxKeyNameLength)
    (testName subtestName status : String) (s : RunState) :
    ∃ s', writeIfNeeded sha256 run testName subtestName status s = .ok () s' := by
  have hbuild : buildNewTestHistoryEntry sha256 testName subtestName run run.timeStart status =
      .ok (entryFor sha256 run ((testName, subtestName), status)) := by
    rw [buildNewTestHistoryEntry, getEntryKeyName,
      if_neg (not_lt.mpr (hshort (testName, subtestName)))]
    rfl
  have hcreate : ∃ entity s',
      createEntityIfNeeded sha256 run testName subtestName status s = .ok entity s' := by
    show ∃ entity s', (if (testName, subtestName) ∈ s.uniqueEntitiesToWrite then _ else
      if s.prevTestStatuses.lookup (testName, subtestName) ≠ some status then _ else _ : RunM _) s =
        .ok entity s'
    split
    · exact ⟨_, _, rfl⟩
    · split
      · rw [hbuild]
        exact ⟨_, _, rfl⟩
      · exact ⟨_, _, rfl⟩
  obtain ⟨entity, s', hcreate⟩ := hcreate
  rw [writeIfNeeded, bind_of_ok hcreate]
  cases entity with
  | none => exact ⟨_, rfl⟩
  | some entity => exact ⟨_, rfl⟩

theorem forM_ok {α : Type} {f : α → RunM Unit} (hstep : ∀ x s, ∃ s', f x s = .ok () s')
    (xs : List α) (s : RunState) : ∃ s', xs.forM f s = .ok () s' := by
  induction xs generalizing s with
  | nil => exact ⟨s, rfl⟩
  | cons x xs ih =>
    obtain ⟨s', hx⟩ := hstep x s
    obtain ⟨s'', hxs⟩ := ih s'
    exact ⟨s'', (bind_of_ok hx : (x :: xs).forM f s = xs.forM f s').trans hxs⟩

/-- Where no key name is too long, a report is processed without an exception. -/
theorem processReport_ok
    (hshort : ∀ key : TestKey, (entryKeyName sha256 run.id key.1 key.2).length ≤ maxKeyNameLength)
    (order : RangeOrder TestKey) (report : Report) (s : RunState) :
    ∃ s', processReport sha256 run order report s = .ok () s' := by
  have hobserve : ∀ o s, ∃ s', observe sha256 run o s = .ok () s' := by
    intro o s
    obtain ⟨s', hwrite⟩ := writeIfNeeded_ok hshort o.1.1 o.1.2 o.2 s
    exact ⟨_, bind_of_ok hwrite⟩
  obtain ⟨s₁, hwalk⟩ := forM_ok hobserve (observations report) s
  obtain ⟨s₂, hmissing⟩ := forM_ok
    (fun (key : TestKey) s => writeIfNeeded_ok hshort key.1 key.2 "MISSING" s)
    (order s₁.testsNotSeen).1 s₁
  refine ⟨s₂.flushRest, ?_⟩
  rw [processReport, forM_processTest, bind_of_ok hwalk]
  exact bind_of_ok hmissing

/-- A call whose report was fetched and whose key names are short does not raise. -/
theorem processSingleRun_ok {bucket : StatusesBucket} {cache cache₁ : StatusesCache}
    {call : RunCall} {report : Report} {statuses : Statuses}
    (hshort : ∀ key : TestKey,
      (entryKeyName sha256 call.run.id key.1 key.2).length ≤ maxKeyNameLength)
    (hfetched : call.fetched = some report)
    (hstatuses : populatePreviousStatuses {} bucket cache call.run.browserName =
      .ok (statuses, cache₁)) :
    (processSingleRun sha256 {} bucket cache call).exception = none := by
  obtain ⟨s', hprocess⟩ := processReport_ok hshort call.order report (startState statuses)
  unfold processSingleRun
  rw [hfetched]
  simp only [hstatuses, hprocess]

end Ok

/-! ## Statuses that come from the report alone

Of several rows with one key the first that differs from the status before decides. So the statuses
come from the report alone exactly when the rows of each key agree. -/

/-- What is recorded for a key after a call. -/
def Outcome.status (out : Outcome) (browserName : String) (key : TestKey) : Option String :=
  (out.cache.lookup browserName).bind fun statuses => statuses.lookup key

/-- **The statuses after a call are a function of the report**, for the keys it
mentions, and the same report a second time changes nothing. -/
structure StatusesFromReport (sha256 : String → String) (report : Report) : Prop where
  same : ∀ (bucket bucket' : StatusesBucket) (cache cache' cache₁ cache₁' : StatusesCache)
    (call call' : RunCall) (statuses statuses' : Statuses),
    call.fetched = some report → call'.fetched = some report →
    populatePreviousStatuses {} bucket cache call.run.browserName = .ok (statuses, cache₁) →
    populatePreviousStatuses {} bucket' cache' call'.run.browserName = .ok (statuses', cache₁') →
    statuses.keys = statuses'.keys →
    (processSingleRun sha256 {} bucket cache call).exception = none →
    (processSingleRun sha256 {} bucket' cache' call').exception = none →
    ∀ key ∈ reportKeys report,
      (processSingleRun sha256 {} bucket cache call).status call.run.browserName key =
        (processSingleRun sha256 {} bucket' cache' call').status call'.run.browserName key
  again : ∀ (bucket : StatusesBucket) (cache : StatusesCache) (call call' : RunCall),
    call.fetched = some report → call'.fetched = some report →
    call.run.browserName = call'.run.browserName →
    (processSingleRun sha256 {} bucket cache call).exception = none →
    (processSingleRun sha256 {} bucket
      (processSingleRun sha256 {} bucket cache call).cache call').exception = none →
    putBatches (processSingleRun sha256 {} bucket
      (processSingleRun sha256 {} bucket cache call).cache call').trace = []

/-- Rows with the same key have the same status. -/
def RowsAgree (report : Report) : Prop :=
  ∀ key a b, (key, a) ∈ observations report → (key, b) ∈ observations report → a = b

theorem RowsAgree.walked_lookup {report : Report} (h : RowsAgree report) (sha256 : String → String)
    (call : RunCall) (statuses : Statuses) {key : TestKey} {status : String}
    (hmem : (key, status) ∈ observations report) :
    (walked sha256 call report statuses).prevTestStatuses.lookup key = some status := by
  have hkey : key ∈ reportKeys report := List.mem_map.mpr ⟨(key, status), hmem, rfl⟩
  rw [History.walked_lookup, rowsOf_allObservations_of_mem hkey]
  exact recordedStatus_of_agree (mem_rowsOf.mpr hmem)
    fun status' hstatus' => h key status' status (mem_rowsOf.mp hstatus') hmem

/-- A key that the report does not mention is missing afterwards, or was never there. -/
theorem walked_lookup_of_notMem (sha256 : String → String) (call : RunCall) {report : Report}
    (statuses : Statuses) {key : TestKey} (hkey : key ∉ reportKeys report) :
    (walked sha256 call report statuses).prevTestStatuses.lookup key =
      if key ∈ statuses then some "MISSING" else none := by
  rw [walked_lookup]
  have hrows : ∀ status, status ∈ rowsOf key (allObservations call.order report statuses.keys) ↔
      key ∈ statuses.keys ∧ status = "MISSING" :=
    fun _ => rowsOf_allObservations_of_notMem hkey
  split
  · next hknown =>
    exact recordedStatus_of_agree ((hrows "MISSING").mpr ⟨Finmap.mem_keys.mpr hknown, rfl⟩)
      fun status hstatus => ((hrows status).mp hstatus).2
  · next hknown =>
    have hnil : rowsOf key (allObservations call.order report statuses.keys) = [] := by
      rw [List.eq_nil_iff_forall_not_mem]
      exact fun status hstatus => hknown (Finmap.mem_keys.mp ((hrows status).mp hstatus).1)
    rw [hnil, Finmap.lookup_eq_none.mpr hknown]
    rfl

/-- Where rows agree, a second walk finds every status as it is. -/
theorem RowsAgree.walked_again {report : Report} (h : RowsAgree report) (sha256 : String → String)
    (call call' : RunCall) (statuses : Statuses) :
    walked sha256 call' report (walked sha256 call report statuses).prevTestStatuses =
      startState (walked sha256 call report statuses).prevTestStatuses := by
  refine foldl_applyObservation_of_known sha256 call'.run fun o ho => ?_
  rcases List.mem_append.mp ho with hreported | hmissing
  · exact h.walked_lookup sha256 call statuses hreported
  · obtain ⟨key, hkey, rfl⟩ := List.mem_map.mp hmissing
    rw [mem_rangeOrder, Finset.mem_sdiff, List.mem_toFinset, Finmap.mem_keys] at hkey
    have hlookup := walked_lookup_of_notMem sha256 call statuses hkey.2
    by_cases hknown : key ∈ statuses
    · rwa [if_pos hknown] at hlookup
    · rw [if_neg hknown] at hlookup
      exact absurd hkey.1 (Finmap.lookup_eq_none.mp hlookup)

/-- If the rows of a key agree, the statuses after a run are those of its report. -/
theorem statusesFromReport_of_agree (sha256 : String → String) {report : Report}
    (h : RowsAgree report) : StatusesFromReport sha256 report where
  same bucket bucket' cache cache' cache₁ cache₁' call call' statuses statuses' hfetched hfetched'
      hstatuses hstatuses' _ hok hok' key hkey := by
    obtain ⟨⟨_, status⟩, hmem, rfl⟩ := List.mem_map.mp hkey
    rw [Outcome.status, Outcome.status, processSingleRun_lookup hfetched hstatuses hok,
      processSingleRun_lookup hfetched' hstatuses' hok', Option.bind_some, Option.bind_some,
      h.walked_lookup sha256 call statuses hmem, h.walked_lookup sha256 call' statuses' hmem]
  again bucket cache call call' hfetched hfetched' hbrowser hok hok' := by
    obtain ⟨statuses, cache₁, hstatuses⟩ : ∃ statuses cache₁,
        populatePreviousStatuses {} bucket cache call.run.browserName = .ok (statuses, cache₁) := by
      cases hpopulate : populatePreviousStatuses {} bucket cache call.run.browserName with
      | error msg => simp [processSingleRun, hfetched, hpopulate] at hok
      | ok loaded => exact ⟨loaded.1, loaded.2, rfl⟩
    have hcached := processSingleRun_lookup hfetched hstatuses hok
    have hagain : populatePreviousStatuses {} bucket
        (processSingleRun sha256 {} bucket cache call).cache call'.run.browserName =
        .ok ((walked sha256 call report statuses).prevTestStatuses,
          (processSingleRun sha256 {} bucket cache call).cache) := by
      rw [populatePreviousStatuses, if_neg Bool.false_ne_true, ← hbrowser, hcached]
    rw [(processSingleRun_walked hfetched' hagain hok').2,
      h.walked_again sha256 call call' statuses]
    rfl

/-- A run of `chrome`. -/
def chromeCall (report : Report) : RunCall where
  run := { id := "1", browserName := "chrome", timeStart := "2030-01-01T00:00:00Z" }
  fetched := some report
  order := keysInOrder

/-- With rows that do not agree, the statuses depend on what was recorded before. -/
theorem not_statusesFromReport {sha256 : String → String}
    (hsha256 : ∀ s, (sha256 s).length = 64) {report : Report} {key : TestKey} {a b : String}
    (ha : (key, a) ∈ observations report) (hb : (key, b) ∈ observations report) (hne : a ≠ b) :
    ¬StatusesFromReport sha256 report := by
  intro h
  obtain ⟨p, q, hpq⟩ := recordedStatus_ne (mem_rowsOf.mpr ha) (mem_rowsOf.mpr hb) hne
  have hkey : key ∈ reportKeys report := List.mem_map.mpr ⟨(key, a), ha, rfl⟩
  have hshort : ∀ key : TestKey,
      (entryKeyName sha256 (chromeCall report).run.id key.1 key.2).length ≤ maxKeyNameLength := by
    intro key
    rw [entryKeyName, String.length_append, String.length_append, hsha256]
    show "1".length + "_".length + 64 ≤ maxKeyNameLength
    decide
  -- two buckets that know nothing but the key, with the two statuses
  have hpopulate : ∀ status, populatePreviousStatuses {}
      (Finmap.singleton "chrome" (Finmap.singleton key status)) ∅ "chrome" =
      .ok (Finmap.singleton key status,
        Finmap.insert "chrome" (Finmap.singleton key status) ∅) := by
    intro status
    rw [populatePreviousStatuses, if_neg Bool.false_ne_true, Finmap.lookup_empty,
      Finmap.lookup_singleton_eq]
  have hok : ∀ status, (processSingleRun sha256 {}
      (Finmap.singleton "chrome" (Finmap.singleton key status)) ∅
      (chromeCall report)).exception = none :=
    fun status => processSingleRun_ok hshort rfl (hpopulate status)
  have hstatus : ∀ status, (processSingleRun sha256 {}
      (Finmap.singleton "chrome" (Finmap.singleton key status)) ∅
      (chromeCall report)).status "chrome" key =
      recordedStatus (some status) (rowsOf key (observations report)) := by
    intro status
    have hwalked : (processSingleRun sha256 {}
        (Finmap.singleton "chrome" (Finmap.singleton key status)) ∅
        (chromeCall report)).cache.lookup "chrome" =
        some (walked sha256 (chromeCall report) report
          (Finmap.singleton key status)).prevTestStatuses :=
      processSingleRun_lookup rfl (hpopulate status) (hok status)
    rw [Outcome.status, hwalked, Option.bind_some, walked_lookup,
      rowsOf_allObservations_of_mem hkey, Finmap.lookup_singleton_eq]
  have hsame := h.same _ _ _ _ _ _ (chromeCall report) (chromeCall report) _ _ rfl rfl
    (hpopulate p) (hpopulate q) rfl (hok p) (hok q) key hkey
  have hp := hstatus p
  have hq := hstatus q
  exact hpq (hp.symm.trans (hsame.trans hq))

/-- **Exactly the reports whose rows agree** leave statuses that come from the report
alone. -/
theorem statusesFromReport_iff {sha256 : String → String} (hsha256 : ∀ s, (sha256 s).length = 64)
    (report : Report) : StatusesFromReport sha256 report ↔ RowsAgree report := by
  constructor
  · intro h key a b ha hb
    by_contra hne
    exact not_statusesFromReport hsha256 ha hb hne h
  · exact statusesFromReport_of_agree sha256

/-- The digests that these examples need, of the length that all have. -/
def paddedSha256 (s : String) : String :=
  if s = "/a.html\n" then "47293a87b5c4ef095cf534694d7c520b5eee3a103ef543d21fc370e46aa574ee"
  else String.ofList (List.replicate 64 '0')

theorem length_paddedSha256 (s : String) : (paddedSha256 s).length = 64 := by
  rw [paddedSha256]
  split
  · decide
  · rw [String.length_ofList, List.length_replicate]

/-- A report that has one test twice. -/
def repeatedTest (status status' : String) : Report :=
  [{ test := "/a.html", status, subtests := [] },
    { test := "/a.html", status := status', subtests := [] }]

theorem statusesFromReport_repeatedTest :
    StatusesFromReport paddedSha256 (repeatedTest "PASS" "PASS") := by
  refine (statusesFromReport_iff length_paddedSha256 (repeatedTest "PASS" "PASS")).mpr ?_
  intro key a b ha hb
  have hall : ∀ o ∈ observations (repeatedTest "PASS" "PASS"), o.2 = "PASS" := by decide
  exact (hall _ ha).trans (hall _ hb).symm

/-- A subtest without a name has the key of its test, and another status. -/
theorem not_statusesFromReport_namelessSubtest :
    ¬StatusesFromReport paddedSha256
      [{ test := "/a.html", status := "OK", subtests := [{ name := "", status := "FAIL" }] }] :=
  have hrow : ((("/a.html", ""), "OK") : TestKey × String) ∈ observations
      [{ test := "/a.html", status := "OK", subtests := [{ name := "", status := "FAIL" }] }] := by
    decide
  not_statusesFromReport length_paddedSha256 hrow (b := "FAIL") (by decide) (by decide)

end WptFyi.History
