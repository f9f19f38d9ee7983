import WptFyi.History.ProcessRun

/-!
# The history is a delta log of the reports

Runs of one browser, processed in order without an exception, keep two things
in step: the statuses dict and the entries written so far, whose replay it is.

This is the meaning of the history: an entry is a change, and what a test's status was at some time
is what the entries up to then replay to. The library module `DeltaLog` has the general fact for one
round of observations. What has to be added is that the walk of the source makes such a round: it
updates the dict while it compares, it hands entries over in batches, and it marks what the report
does not mention as `MISSING`. The invariant over a list of observations says that the entries
created so far are the deltas of the observations so far and that the dict is their replay
(`applied_spec`); batches are full until the last one, so that none is lost between them
(`BatchesFull`).

- `written`: the entries a call has created so far, in batches put or not;
- `applied_spec`: what applying a list of observations does to dict and entries;
- `processSingleRun_spec`: one call, on the cache;
- `processInOrder`: one call after the other; `processInOrder_agrees`: after
  every run the replay of the entries is the report, with `MISSING` for what it
  does not mention, and each run wrote exactly its changes.
-/

namespace WptFyi.History

open Lib Lib.DeltaLog

/-! ## Entries and batches

Entries are put into a batch that is written when it is full. What has been written is the batches
and, at the end, the rest; the order is the order of the observations. -/

/-- The batches that were put. -/
def putBatches (trace : List Effect) : List (List TestHistoryEntry) :=
  trace.filterMap fun effect =>
    match effect with
    | .putMulti entities => some entities
    | .setStatus _ _ => none

/-- The entries created so far, in order. -/
def RunState.written (s : RunState) : List TestHistoryEntry :=
  (putBatches s.trace).flatten ++ s.entitiesToWrite

/-- Every batch is full, and what is left does not fill one. -/
structure RunState.BatchesFull (s : RunState) : Prop where
  full : ∀ batch ∈ putBatches s.trace, batch.length = batchSize
  rest : s.entitiesToWrite.length < batchSize

theorem putBatches_append (trace trace' : List Effect) :
    putBatches (trace ++ trace') = putBatches trace ++ putBatches trace' := List.filterMap_append

theorem written_flush (s : RunState) : s.flush.written = s.written := by
  show (putBatches (s.trace ++ [.putMulti s.entitiesToWrite])).flatten ++ [] = _
  rw [putBatches_append, List.flatten_append, List.append_nil]
  exact congrArg _ (List.append_nil _)

theorem written_push (s : RunState) (entity : TestHistoryEntry) :
    (s.push entity).written = s.written ++ [entity] := by
  have happend : ({ s with entitiesToWrite := s.entitiesToWrite ++ [entity] } : RunState).written =
      s.written ++ [entity] := (List.append_assoc _ _ _).symm
  unfold RunState.push
  dsimp only
  split
  · rw [written_flush, happend]
  · exact happend

theorem written_flushRest (s : RunState) :
    s.flushRest.written = s.written ∧ s.flushRest.entitiesToWrite = [] := by
  unfold RunState.flushRest
  split
  · exact ⟨written_flush s, rfl⟩
  · rename_i hempty
    exact ⟨rfl, List.length_eq_zero_iff.mp (Nat.eq_zero_of_not_pos hempty)⟩

/-- After the remainder was flushed everything created is in a batch, and no
batch is empty or too large. -/
theorem RunState.BatchesFull.flushRest {s : RunState} (h : s.BatchesFull) :
    (putBatches s.flushRest.trace).flatten = s.written ∧
      ∀ batch ∈ putBatches s.flushRest.trace, batch ≠ [] ∧ batch.length ≤ batchSize := by
  have hfull : ∀ batch ∈ putBatches s.trace, batch ≠ [] ∧ batch.length ≤ batchSize := by
    intro batch hbatch
    have hlength := h.full batch hbatch
    refine ⟨?_, hlength.le⟩
    rintro rfl
    exact absurd hlength (by decide)
  constructor
  · obtain ⟨hwritten, hempty⟩ := written_flushRest s
    rw [← hwritten, RunState.written, hempty, List.append_nil]
  · unfold RunState.flushRest
    split
    · rename_i hrest
      intro batch hbatch
      rw [RunState.flush, putBatches_append, List.mem_append] at hbatch
      rcases hbatch with hbatch | hbatch
      · exact hfull batch hbatch
      · obtain rfl : batch = s.entitiesToWrite := List.mem_singleton.mp hbatch
        exact ⟨List.ne_nil_of_length_pos hrest, h.rest.le⟩
    · exact hfull

theorem batchesFull_startState (statuses : Statuses) : (startState statuses).BatchesFull where
  full batch hbatch := absurd hbatch List.not_mem_nil
  rest := by show 0 < batchSize; decide

theorem prevTestStatuses_flushRest (s : RunState) :
    s.flushRest.prevTestStatuses = s.prevTestStatuses := by
  unfold RunState.flushRest
  split <;> rfl

theorem written_recordStatus (s : RunState) (o : TestKey × String) :
    (recordStatus s o).written = s.written := by
  show (putBatches (s.trace ++ [.setStatus o.1 o.2])).flatten ++ _ = _
  rw [putBatches_append]
  exact congrArg (· ++ s.entitiesToWrite) (congrArg List.flatten (List.append_nil _))

/-- A batch that is full is put aside and another one is started. -/
theorem RunState.BatchesFull.push {s : RunState} (h : s.BatchesFull) (entity : TestHistoryEntry) :
    (s.push entity).BatchesFull := by
  have hlength : (s.entitiesToWrite ++ [entity]).length = s.entitiesToWrite.length + 1 :=
    List.length_append
  have hrest := h.rest
  unfold RunState.push
  dsimp only
  split
  · rename_i hfull
    constructor
    · intro batch hbatch
      rw [RunState.flush, putBatches_append, List.mem_append] at hbatch
      rcases hbatch with hbatch | hbatch
      · exact h.full batch hbatch
      · obtain rfl : batch = s.entitiesToWrite ++ [entity] := List.mem_singleton.mp hbatch
        omega
    · exact Nat.succ_pos _
  · rename_i hfull
    exact ⟨h.full, Nat.lt_of_not_le hfull⟩

section Applied

variable (sha256 : String → String) (run : RunMetadata)

/-- **One observation** of a key that was not written yet: the dict gets the
status, and the entry is created exactly when it is a change. -/
theorem applyObservation_spec {s : RunState} {o : TestKey × String}
    (hfresh : o.1 ∉ s.uniqueEntitiesToWrite) (hfull : s.BatchesFull) :
    let s' := applyObservation sha256 run s o
    s'.prevTestStatuses = s.prevTestStatuses.insert o.1 o.2 ∧
      s'.written = s.written ++ (deltas s.prevTestStatuses [o]).map (entryFor sha256 run) ∧
      s'.uniqueEntitiesToWrite ⊆ insert o.1 s.uniqueEntitiesToWrite ∧ s'.BatchesFull := by
  unfold applyObservation
  -- a status that is known makes no entry
  by_cases hknown : s.prevTestStatuses.lookup o.1 = some o.2
  · have hdeltas : deltas s.prevTestStatuses [o] = [] := by simp [deltas, hknown]
    rw [if_pos (Or.inr hknown), hdeltas, GoMap.insert_of_lookup hknown, List.map_nil,
      List.append_nil]
    exact ⟨rfl, rfl, Finset.subset_insert _ _, hfull⟩
  · have hdeltas : deltas s.prevTestStatuses [o] = [o] := by simp [deltas, hknown]
    have hrecord : (recordStatus s o).BatchesFull := by
      refine ⟨?_, hfull.rest⟩
      intro batch hbatch
      rw [recordStatus, putBatches_append] at hbatch
      exact hfull.full batch (by simpa [putBatches] using hbatch)
    rw [if_neg (not_or.mpr ⟨hfresh, hknown⟩), hdeltas]
    refine ⟨?_, ?_, ?_, hrecord.push _⟩
    · unfold RunState.push
      dsimp only
      split <;> rfl
    · rw [written_push, written_recordStatus]
      rfl
    · unfold RunState.push
      dsimp only
      split <;> exact Finset.Subset.refl _

/-- **A list of observations**, each key once: the dict becomes their replay and
the entries created are their deltas. -/
theorem applied_spec {s : RunState} {obs : List (TestKey × String)}
    (hnodup : (obs.map Prod.fst).Nodup) (hfresh : ∀ o ∈ obs, o.1 ∉ s.uniqueEntitiesToWrite)
    (hfull : s.BatchesFull) :
    let s' := obs.foldl (applyObservation sha256 run) s
    s'.prevTestStatuses = replay s.prevTestStatuses obs ∧
      s'.written = s.written ++ (deltas s.prevTestStatuses obs).map (entryFor sha256 run) ∧
      s'.BatchesFull := by
  induction obs generalizing s with
  | nil => exact ⟨rfl, (List.append_nil _).symm, hfull⟩
  | cons o obs ih =>
    rw [List.map_cons, List.nodup_cons] at hnodup
    obtain ⟨hprev, hwritten, hunique, hfull'⟩ :=
      applyObservation_spec sha256 run (hfresh o List.mem_cons_self) hfull
    have hfresh' : ∀ o' ∈ obs, o'.1 ∉ (applyObservation sha256 run s o).uniqueEntitiesToWrite := by
      intro o' ho' hmem
      rcases Finset.mem_insert.mp (hunique hmem) with heq | hmem
      · exact hnodup.1 (heq ▸ List.mem_map_of_mem ho')
      · exact hfresh o' (List.mem_cons_of_mem _ ho') hmem
    obtain ⟨hprev', hwritten', hfull''⟩ := ih hnodup.2 hfresh' hfull'
    refine ⟨?_, ?_, hfull''⟩
    · rw [List.foldl_cons, hprev', hprev, replay_cons]
    · have hcons : deltas s.prevTestStatuses (o :: obs) = _ :=
        deltas_append s.prevTestStatuses [o] obs
      rw [List.foldl_cons, hwritten', hwritten, hprev, deltas_insert_of_notMem hnodup.1,
        List.append_assoc, ← List.map_append, hcons]

end Applied

/-! ## One call

After a call the replay of its entries on the previous statuses is the dict. If no key is there
twice, these are the statuses of the report, and a key that it does not have is missing. -/

/-- The keys a report mentions. -/
def reportKeys (report : Report) : List TestKey := (observations report).map Prod.fst

/-- The observations of a call mention each key once. -/
theorem nodup_allObservations (order : RangeOrder TestKey) {report : Report}
    (hreport : (reportKeys report).Nodup) (known : Finset TestKey) :
    ((allObservations order report known).map Prod.fst).Nodup := by
  unfold allObservations
  generalize hmissing : order (known \ ((observations report).map Prod.fst).toFinset) = missing
  rw [List.map_append, List.map_map]
  have hkeys : missing.1.map (Prod.fst ∘ fun key => (key, "MISSING")) = missing.1 := List.map_id _
  rw [hkeys]
  refine List.Nodup.append hreport missing.2.1 ?_
  intro key hkey hmiss
  have hset : key ∈ missing.1.toFinset := List.mem_toFinset.mpr hmiss
  rw [missing.2.2, Finset.mem_sdiff, List.mem_toFinset] at hset
  exact hset.2 hkey

/-- What a call leaves behind for a key: the report's status, `MISSING` when the
report does not mention a known key, nothing otherwise. -/
theorem lookup_replay_allObservations (order : RangeOrder TestKey) {report : Report}
    (hreport : (reportKeys report).Nodup) (statuses : Statuses) (key : TestKey) :
    let after := replay statuses (allObservations order report statuses.keys)
    (∀ status, (key, status) ∈ observations report → after.lookup key = some status) ∧
      (key ∉ reportKeys report → key ∈ statuses → after.lookup key = some "MISSING") ∧
      (key ∉ reportKeys report → key ∉ statuses → after.lookup key = none) := by
  have hnodup := nodup_allObservations order hreport statuses.keys
  refine ⟨?_, ?_, ?_⟩
  · intro status hmem
    exact lookup_replay_of_mem hnodup (List.mem_append_left _ hmem)
  · intro hkey hknown
    refine lookup_replay_of_mem hnodup (List.mem_append_right _ (List.mem_map.mpr ⟨key, ?_, rfl⟩))
    rw [mem_rangeOrder, Finset.mem_sdiff, List.mem_toFinset, Finmap.mem_keys]
    exact ⟨hknown, hkey⟩
  · intro hkey hknown
    rw [lookup_replay_of_notMem, Finmap.lookup_eq_none.mpr hknown]
    unfold allObservations
    rw [List.map_append, List.mem_append, List.map_map]
    rintro (hmem | hmem)
    · exact hkey hmem
    · obtain ⟨key', hkey', heq⟩ := List.mem_map.mp hmem
      obtain rfl : key' = key := heq
      rw [mem_rangeOrder, Finset.mem_sdiff, Finmap.mem_keys] at hkey'
      exact hknown hkey'.1

/-- **One call without an exception**: its batches hold the changes of its
observations, each batch full but for the last, and the cached dict is the
replay of all observations. -/
theorem processSingleRun_spec {sha256 : String → String} {args : Args} {bucket : StatusesBucket}
    {cache cache₁ : StatusesCache} {call : RunCall} {report : Report} {statuses : Statuses}
    (hreport : (reportKeys report).Nodup) (hfetched : call.fetched = some report)
    (hstatuses : populatePreviousStatuses args bucket cache call.run.browserName =
      .ok (statuses, cache₁))
    (hok : (processSingleRun sha256 args bucket cache call).exception = none) :
    let out := processSingleRun sha256 args bucket cache call
    let obs := allObservations call.order report statuses.keys
    (putBatches out.trace).flatten = (deltas statuses obs).map (entryFor sha256 call.run) ∧
      (∀ batch ∈ putBatches out.trace, batch ≠ [] ∧ batch.length ≤ batchSize) ∧
      (args.generateNewStatusesJson = false →
        out.cache.lookup call.run.browserName = some (replay statuses obs)) := by
  unfold processSingleRun at hok ⊢
  rw [hfetched] at hok ⊢
  simp only [hstatuses] at hok ⊢
  -- the walk comes to its end, or raises and is excluded here
  rcases processReport_cases sha256 call.run call.order report (startState statuses) with
    ⟨notSeen, hwalk⟩ | ⟨msg, pre, post, notSeen, _, hwalk⟩
  · rw [hwalk]
    obtain ⟨hprev, hwritten, hfull⟩ := applied_spec sha256 call.run (s := startState statuses)
      (nodup_allObservations call.order hreport statuses.keys)
      (fun o _ => Finset.notMem_empty o.1) (batchesFull_startState statuses)
    obtain ⟨hbatches, hsizes⟩ := hfull.flushRest
    refine ⟨?_, hsizes, ?_⟩
    · rw [hwritten] at hbatches
      exact hbatches
    · intro hgenerate
      simp only [hgenerate, Bool.false_eq_true, if_false]
      rw [Finmap.lookup_insert]
      exact congrArg some ((prevTestStatuses_flushRest _).trans hprev)
  · rw [hwalk] at hok
    exact absurd hok (Option.some_ne_none msg)

/-! ## Runs in order

The calls one after the other, each with the statuses that the last one left. The dict always
agrees with the last run of its browser. -/

/-- The statuses that a list of entries stands for. -/
def replayEntries (entries : List TestHistoryEntry) : Statuses :=
  replay ∅ (entries.map fun entry => (entry.key, entry.status))

theorem mem_replayEntries {entries : List TestHistoryEntry} {key : TestKey} :
    key ∈ replayEntries entries ↔ ∃ entry ∈ entries, entry.key = key := by
  rw [replayEntries, mem_replay_iff, List.map_map, List.mem_map]
  exact or_iff_right Finmap.notMem_empty

/-- Entries made from deltas replay as the deltas do. -/
theorem replayEntries_append_entryFor (entries : List TestHistoryEntry) (sha256 : String → String)
    (run : RunMetadata) (obs : List (TestKey × String)) :
    replayEntries (entries ++ obs.map (entryFor sha256 run)) =
      replay (replayEntries entries) obs := by
  rw [replayEntries, List.map_append, replay_append, List.map_map]
  exact congrArg _ (List.map_id _)

/-- Calls of `process_single_run` one after the other, until one raises: the
cache, and the batches that each call put. -/
def processInOrder (sha256 : String → String) (args : Args) (bucket : StatusesBucket) :
    StatusesCache → List RunCall → Option (StatusesCache × List (List (List TestHistoryEntry)))
  | cache, [] => some (cache, [])
  | cache, call :: calls =>
    let out := processSingleRun sha256 args bucket cache call
    match out.exception with
    | some _ => none
    | none => (processInOrder sha256 args bucket out.cache calls).map fun rest =>
      (rest.1, putBatches out.trace :: rest.2)

/-- A key was seen before the `k`-th call: among the statuses at the start, or in
an earlier report. -/
def SeenBefore (statuses : Statuses) (calls : List RunCall) (k : Nat) (key : TestKey) : Prop :=
  key ∈ statuses ∨ ∃ call ∈ calls.take k, ∃ report ∈ call.fetched, key ∈ reportKeys report

/-- **The history agrees with the `k`-th report**, given the entries before the
call and the batches the call put. -/
structure AgreesWithRun (seen : TestKey → Prop) (report : Report) (run : RunMetadata)
    (before : List TestHistoryEntry) (batches : List (List TestHistoryEntry)) : Prop where
  /-- a reported key has its status -/
  reported : ∀ key status, (key, status) ∈ observations report →
    (replayEntries (before ++ batches.flatten)).lookup key = some status
  /-- a key seen earlier that is not reported is missing -/
  missing : ∀ key, key ∉ reportKeys report → seen key →
    (replayEntries (before ++ batches.flatten)).lookup key = some "MISSING"
  /-- a key never seen has no entry -/
  unseen : ∀ key, key ∉ reportKeys report → ¬ seen key →
    ∀ entry ∈ before ++ batches.flatten, entry.key ≠ key
  /-- an entry is written exactly for the changes -/
  written_iff : ∀ key, (∃ entry ∈ batches.flatten, entry.key = key) ↔
    (replayEntries (before ++ batches.flatten)).lookup key ≠ (replayEntries before).lookup key
  /-- each of them once -/
  once : (batches.flatten.map TestHistoryEntry.key).Nodup
  /-- under the run -/
  ofRun : ∀ entry ∈ batches.flatten,
    entry.runID = run.id ∧ entry.browserName = run.browserName ∧ entry.date = run.timeStart
  /-- in batches that Datastore takes -/
  sizes : ∀ batch ∈ batches, batch ≠ [] ∧ batch.length ≤ batchSize

/-- **The step**: a call that starts from the statuses the entries stand for
leaves entries that stand for its report, and caches what they stand for. -/
theorem processSingleRun_agrees {sha256 : String → String} {args : Args} {bucket : StatusesBucket}
    {cache cache₁ : StatusesCache} {call : RunCall} {report : Report} {statuses : Statuses}
    {before : List TestHistoryEntry} {seen : TestKey → Prop}
    (hreport : (reportKeys report).Nodup) (hfetched : call.fetched = some report)
    (hstatuses : populatePreviousStatuses args bucket cache call.run.browserName =
      .ok (statuses, cache₁))
    (hbefore : replayEntries before = statuses) (hseen : ∀ key, seen key ↔ key ∈ statuses)
    (hok : (processSingleRun sha256 args bucket cache call).exception = none) :
    let out := processSingleRun sha256 args bucket cache call
    AgreesWithRun seen report call.run before (putBatches out.trace) ∧
      (args.generateNewStatusesJson = false → out.cache.lookup call.run.browserName =
        some (replayEntries (before ++ (putBatches out.trace).flatten))) := by
  obtain ⟨hflat, hsizes, hcache⟩ := processSingleRun_spec hreport hfetched hstatuses hok
  generalize processSingleRun sha256 args bucket cache call = out at hflat hsizes hcache ⊢
  have hnodup := nodup_allObservations call.order hreport statuses.keys
  have hlookup := lookup_replay_allObservations call.order hreport statuses
  generalize allObservations call.order report statuses.keys = obs at *
  -- reading the entries back gives the walk over the observations
  have hafter : replayEntries (before ++ (putBatches out.trace).flatten) = replay statuses obs := by
    rw [hflat, replayEntries_append_entryFor, hbefore, replay_deltas _ hnodup]
  -- the entries are those of the observations that change a status
  have hkeys : (putBatches out.trace).flatten.map TestHistoryEntry.key =
      (deltas statuses obs).map Prod.fst := by
    rw [hflat, List.map_map]
    rfl
  refine ⟨?_, ?_⟩
  · constructor
    · intro key status hmem
      rw [hafter]
      exact (hlookup key).1 status hmem
    · intro key hkey hkeyseen
      rw [hafter]
      exact (hlookup key).2.1 hkey ((hseen key).mp hkeyseen)
    · intro key hkey hkeyseen entry hentry heq
      have hmem := mem_replayEntries.mpr ⟨entry, hentry, heq⟩
      rw [hafter] at hmem
      exact Finmap.lookup_eq_none.mp
        ((hlookup key).2.2 hkey (mt (hseen key).mpr hkeyseen)) hmem
    · intro key
      rw [hafter, hbefore, ← mem_keys_deltas_iff statuses hnodup key, ← hkeys, List.mem_map]
    · rw [hkeys]
      exact nodup_deltas statuses hnodup
    · intro entry hentry
      rw [hflat] at hentry
      obtain ⟨o, -, rfl⟩ := List.mem_map.mp hentry
      exact ⟨rfl, rfl, rfl⟩
    · exact hsizes
  · intro hgenerate
    rw [hcache hgenerate, hafter]

/-- The keys with an entry after a call are those seen before and those of the
report. -/
theorem AgreesWithRun.mem_after_iff {seen : TestKey → Prop} {report : Report} {run : RunMetadata}
    {before : List TestHistoryEntry} {batches : List (List TestHistoryEntry)}
    (h : AgreesWithRun seen report run before batches) (key : TestKey) :
    key ∈ replayEntries (before ++ batches.flatten) ↔ seen key ∨ key ∈ reportKeys report := by
  by_cases hkey : key ∈ reportKeys report
  · obtain ⟨⟨_, status⟩, hmem, rfl⟩ := List.mem_map.mp hkey
    exact iff_of_true (Finmap.mem_of_lookup_eq_some (h.reported _ status hmem)) (Or.inr hkey)
  · by_cases hseen : seen key
    · exact iff_of_true (Finmap.mem_of_lookup_eq_some (h.missing key hkey hseen)) (Or.inl hseen)
    · refine iff_of_false ?_ (not_or.mpr ⟨hseen, hkey⟩)
      intro hmem
      obtain ⟨entry, hentry, heq⟩ := mem_replayEntries.mp hmem
      exact h.unseen key hkey hseen entry hentry heq

/-- **Every run of a browser**: runs processed in order without an exception, from
statuses that agree with the stored entries, leave a history that agrees with
each of their reports. -/
theorem processInOrder_agrees (sha256 : String → String) (args : Args) (bucket : StatusesBucket)
    {cache cache₁ cache' : StatusesCache} {browserName : String} {calls : List RunCall}
    {stored : List TestHistoryEntry} {batches : List (List (List TestHistoryEntry))}
    (hbrowser : ∀ call ∈ calls, call.run.browserName = browserName)
    (hreports : ∀ call ∈ calls, ∀ report ∈ call.fetched, (reportKeys report).Nodup)
    (hgenerate : args.generateNewStatusesJson = true → calls.length ≤ 1)
    (hstatuses : populatePreviousStatuses args bucket cache browserName =
      .ok (replayEntries stored, cache₁))
    (hrun : processInOrder sha256 args bucket cache calls = some (cache', batches)) :
    ∀ k call, calls[k]? = some call → ∃ report, call.fetched = some report ∧
      AgreesWithRun (SeenBefore (replayEntries stored) calls k) report call.run
        (stored ++ (batches.take k).flatten.flatten) (batches.getD k []) := by
  induction calls generalizing cache cache₁ stored batches with
  | nil =>
    intro k call hk
    exact absurd hk (by simp)
  | cons call calls ih =>
    intro k call' hk
    rw [processInOrder] at hrun
    cases hexception : (processSingleRun sha256 args bucket cache call).exception with
    | some msg => simp [hexception] at hrun
    | none =>
      simp only [hexception] at hrun
      obtain ⟨⟨cache₂, batches'⟩, hrest, heq⟩ := Option.map_eq_some_iff.mp hrun
      cases heq
      have hcall := hbrowser call List.mem_cons_self
      obtain ⟨report, hfetched⟩ : ∃ report, call.fetched = some report := by
        cases hfetched : call.fetched with
        | none => simp [processSingleRun, hfetched] at hexception
        | some report => exact ⟨report, rfl⟩
      have hseen : ∀ key, SeenBefore (replayEntries stored) (call :: calls) 0 key ↔
          key ∈ replayEntries stored := by
        intro key
        simp [SeenBefore]
      obtain ⟨hagrees, hcache⟩ := processSingleRun_agrees
        (hreports call List.mem_cons_self report hfetched) hfetched (hcall ▸ hstatuses) rfl hseen
        hexception
      -- the first call is done; its result is all that the others see
      generalize processSingleRun sha256 args bucket cache call = out at *
      cases k with
      | zero =>
        obtain rfl : call = call' := by simpa using hk
        refine ⟨report, hfetched, ?_⟩
        simpa using hagrees
      | succ k =>
        have hk' : calls[k]? = some call' := by simpa using hk
        -- in the generating mode there is no second call
        have hmode : args.generateNewStatusesJson = false := by
          by_contra hmode
          have hlength := hgenerate (by simpa using hmode)
          obtain ⟨hlt, -⟩ := List.getElem?_eq_some_iff.mp hk'
          rw [List.length_cons] at hlength
          omega
        have hnext := hcache hmode
        -- the next call finds in the cache what the entries stand for
        have hagain : populatePreviousStatuses args bucket out.cache browserName =
            .ok (replayEntries (stored ++ (putBatches out.trace).flatten), out.cache) := by
          rw [populatePreviousStatuses, hmode, if_neg Bool.false_ne_true, ← hcall, hnext]
        obtain ⟨report', hfetched', hagrees'⟩ :=
          ih (fun c hc => hbrowser c (List.mem_cons_of_mem _ hc))
            (fun c hc => hreports c (List.mem_cons_of_mem _ hc))
            (fun hmode' => absurd hmode (by simp [hmode'])) hagain hrest k call' hk'
        refine ⟨report', hfetched', ?_⟩
        have hseen' : SeenBefore (replayEntries
            (stored ++ (putBatches out.trace).flatten)) calls k =
            SeenBefore (replayEntries stored) (call :: calls) (k + 1) := by
          funext key
          rw [SeenBefore, SeenBefore, hagrees.mem_after_iff, hseen, List.take_succ_cons]
          simp only [List.exists_mem_cons_iff, hfetched, Option.mem_some_iff, exists_eq_left',
            or_assoc]
        rw [hseen'] at hagrees'
        simpa [List.append_assoc] using hagrees'

/-- The digests of the two names below. -/
def exampleSha256 (s : String) : String :=
  if s = "/a.html\n" then "47293a87b5c4ef095cf534694d7c520b5eee3a103ef543d21fc370e46aa574ee"
  else if s = "/b.html\n" then "8d305fb7552012820775aa5fdde561e316c409e9206554218d919e0e2980c353"
  else ""

/-- The keys from the least on. -/
def keysInOrder : RangeOrder TestKey := sortedOrder toLex toLex.injective

/-- A run of `chrome` with one passing test. -/
def exampleCall (id timeStart test : String) : RunCall where
  run := { id, browserName := "chrome", timeStart }
  fetched := some [{ test, status := "PASS", subtests := [] }]
  order := keysInOrder

/-- `/a.html` passes, then disappears while `/b.html` comes in. -/
def exampleCalls : List RunCall :=
  [exampleCall "1" "2030-01-01T00:00:00Z" "/a.html",
    exampleCall "2" "2030-01-02T00:00:00Z" "/b.html"]

/-- The batches these two runs put. -/
def exampleBatches : List (List (List TestHistoryEntry)) :=
  let entry (call : RunCall) := entryFor exampleSha256 call.run
  [[[entry (exampleCall "1" "2030-01-01T00:00:00Z" "/a.html") (("/a.html", ""), "PASS")]],
    [[entry (exampleCall "2" "2030-01-02T00:00:00Z" "/b.html") (("/b.html", ""), "PASS"),
      entry (exampleCall "2" "2030-01-02T00:00:00Z" "/b.html") (("/a.html", ""), "MISSING")]]]

theorem processInOrder_exampleCalls :
    ∃ report, (exampleCall "2" "2030-01-02T00:00:00Z" "/b.html").fetched = some report ∧
      AgreesWithRun (SeenBefore (replayEntries []) exampleCalls 1) report
        (exampleCall "2" "2030-01-02T00:00:00Z" "/b.html").run
        ([] ++ (exampleBatches.take 1).flatten.flatten) (exampleBatches.getD 1 []) :=
  @processInOrder_agrees exampleSha256 {} (Finmap.singleton "chrome" ∅) ∅ _
    (Finmap.singleton "chrome" (replayEntries exampleBatches.flatten.flatten)) "chrome" _ _ _
    (by decide) (by decide) (by decide) rfl (by decide) 1 _ rfl

end WptFyi.History
