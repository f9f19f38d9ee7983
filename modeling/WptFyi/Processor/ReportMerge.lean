import WptFyi.Processor.Summaries

/-!
# The order of chunks does not count

The order in which the chunks of a run are loaded is that of their URLs. A load writes an equal
value over one that is there and leaves `None` where the two are not equal, after which it raises
unless the property is one of `IGNORED_CONFLICTS`; the times are merged with `min` and `max`. So
the outcome is one of sets: the set of values of each property and the multiset of results.

The proof follows the loads one by one. `Loaded` says, of the report so far, what it has of the
chunks so far, each property by `Settled` and each time by `Extremal` from the library, and one
more load either raises or makes it `Loaded` for one chunk more. Two orders of the same chunks then
end in reports that are merged from the same values. These are the same only up to Python's `==`:
of `1` and `True` in two chunks the report keeps the one that was loaded later.

- `Loaded`: what the loads before a raise have made of the report; `Loaded.addChunk`
  says what one more load does;
- `loadReport_spec`: when some load raises, and what all loads make of the report;
- `MergedFrom`: what a report merged from a multiset of chunks has to be;
- `loadReport_order`: every order of the same chunks fails, or every order ends in
  the same report.
-/

namespace WptFyi.Processor

open Lib

/-! ## One chunk

A chunk is added property by property. Two values that differ leave `None` behind, and they are a
conflict unless the property is one of those that may differ between chunks. -/

/-- What a chunk says about a property. -/
def Chunk.value (key : String) (chunk : Chunk) : Option PyValue :=
  chunk.runInfo.bind fun runInfo => runInfo.entries.lookup key

/-- What a `run_info` has for a key. -/
theorem RunInfo.lookup_eq_some_iff (runInfo : RunInfo) {key : String} {v : PyValue} :
    runInfo.entries.lookup key = some v ↔ (key, v) ∈ runInfo.entries := by
  obtain ⟨entries, hnodup⟩ := runInfo
  show entries.lookup key = some v ↔ (key, v) ∈ entries
  induction entries with
  | nil => simp
  | cons entry entries ih =>
    obtain ⟨k, w⟩ := entry
    obtain ⟨hk, hnodup⟩ := List.nodup_cons.mp hnodup
    by_cases h : key = k
    · subst h
      have hlater : (key, v) ∉ entries := fun hmem => hk (List.mem_map.mpr ⟨(key, v), hmem, rfl⟩)
      simp [hlater, eq_comm]
    · have hne : (key, v) ≠ (k, w) := fun heq => h (congrArg Prod.fst heq)
      rw [List.lookup_cons, beq_eq_false_iff_ne.mpr h, List.mem_cons, or_iff_right hne]
      exact ih hnodup

/-- Merging a property is settling it. -/
theorem updateProperty_fst {V K : Type} [DecidableEq K] {eq : V → V → Bool} {canon : V → K}
    (heq : ∀ v w, eq v w = true ↔ canon v = canon w) (conflictFunc : V → V → V)
    (source target : Option V) :
    (updateProperty eq conflictFunc source target).1 =
      source.elim target fun v => settle canon conflictFunc target v := by
  cases source with
  | none => rfl
  | some v =>
    cases target with
    | none => rfl
    | some w =>
      by_cases h : canon v = canon w
      · simp [updateProperty, settle, h, (heq v w).mpr h]
      · have hne : eq v w = false := by
          rw [← Bool.not_eq_true, heq]
          exact h
        simp [updateProperty, settle, h, hne]

/-- One merged property; a conflict leaves `None`. -/
abbrev settleValue : Option PyValue → PyValue → Option PyValue :=
  settle PyValue.canon fun _ _ => .none

/-- A turn over the `run_info` settles its own property and leaves the others. -/
theorem mergeEntry_lookup (target : GoMap String PyValue) (conflicts : List Conflict)
    (key key' : String) (source : PyValue) :
    (mergeEntry (target, conflicts) (key, source)).1.lookup key' =
      if key' = key then settleValue (target.lookup key) source else target.lookup key' := by
  have hupdated := updateProperty_fst (fun v w => PyValue.eq_iff (v := v) (w := w))
    (fun _ _ => PyValue.none) (some source) (target.lookup key)
  have hsome : ∃ v, settleValue (target.lookup key) source = some v := by
    cases target.lookup key with
    | none => exact ⟨source, rfl⟩
    | some w =>
      rw [settleValue, settle]
      split
      · exact ⟨_, rfl⟩
      · exact ⟨_, rfl⟩
  obtain ⟨v, hv⟩ := hsome
  show ((updateProperty PyValue.eq (fun _ _ => .none) (some source) (target.lookup key)).1.elim
    target (target.insert key)).lookup key' = _
  rw [hupdated, show (some source).elim (target.lookup key) (settleValue (target.lookup key)) =
    some v from hv, hv]
  exact GoMap.lookup_insert_eq_ite target key key' v

/-- A property that is not ignored and has another value already. -/
def Clashes (target : GoMap String PyValue) (entry : String × PyValue) : Prop :=
  entry.1 ∉ ignoredConflicts ∧
    ∃ w, target.lookup entry.1 = some w ∧ entry.2.canon ≠ w.canon

/-- It adds a conflict where the property clashes. -/
theorem mergeEntry_conflicts (target : GoMap String PyValue) (conflicts : List Conflict)
    (entry : String × PyValue) :
    (mergeEntry (target, conflicts) entry).2 = [] ↔ conflicts = [] ∧ ¬Clashes target entry := by
  obtain ⟨key, source⟩ := entry
  -- a conflict is a key that is there with another value
  have hconflict : (updateProperty PyValue.eq (fun _ _ => .none) (some source)
      (target.lookup key)).2 = true ↔ ∃ w, target.lookup key = some w ∧ source.canon ≠ w.canon := by
    cases target.lookup key with
    | none => simp [updateProperty]
    | some w =>
      by_cases h : source.canon = w.canon
      · simp [updateProperty, PyValue.eq, h]
      · simp [updateProperty, PyValue.eq, h]
  show (if
    (updateProperty PyValue.eq (fun _ _ => .none) (some source) (target.lookup key)).2 = true ∧
    key ∉ ignoredConflicts then _ else conflicts) = [] ↔ _
  split
  · next h =>
    have hclash : Clashes target (key, source) := ⟨h.2, hconflict.mp h.1⟩
    simp [hclash]
  · next h =>
    have hno : ¬Clashes target (key, source) := fun ⟨hkey, hw⟩ => h ⟨hconflict.mpr hw, hkey⟩
    simp [hno]

/-- The loop over a `run_info`: each of its properties is merged once. -/
theorem foldl_mergeEntry_lookup {entries : List (String × PyValue)}
    (hnodup : (entries.map Prod.fst).Nodup) (state : GoMap String PyValue × List Conflict)
    (key : String) :
    (entries.foldl mergeEntry state).1.lookup key =
      (entries.lookup key).elim (state.1.lookup key) (settleValue (state.1.lookup key)) := by
  induction entries generalizing state with
  | nil => rfl
  | cons entry entries ih =>
    obtain ⟨k, source⟩ := entry
    obtain ⟨hk, hnodup⟩ := List.nodup_cons.mp hnodup
    rw [List.foldl_cons, ih hnodup, mergeEntry_lookup]
    by_cases h : key = k
    · subst h
      have hlater : entries.lookup key = none :=
        List.lookup_eq_none_iff.mpr fun p hp => by
          rw [bne_iff_ne]
          rintro rfl
          exact hk (List.mem_map.mpr ⟨p, hp, rfl⟩)
      rw [hlater, if_pos rfl, List.lookup_cons_self]
      rfl
    · rw [if_neg h, List.lookup_cons, beq_eq_false_iff_ne.mpr h]

/-- As the keys of a chunk are distinct, each property is compared with what was there before the
chunk. -/
theorem foldl_mergeEntry_conflicts {entries : List (String × PyValue)}
    (hnodup : (entries.map Prod.fst).Nodup) (state : GoMap String PyValue × List Conflict) :
    (entries.foldl mergeEntry state).2 = [] ↔
      state.2 = [] ∧ ∀ entry ∈ entries, ¬Clashes state.1 entry := by
  induction entries generalizing state with
  | nil => simp
  | cons entry entries ih =>
    obtain ⟨hk, hnodup⟩ := List.nodup_cons.mp hnodup
    rw [List.foldl_cons, ih hnodup, mergeEntry_conflicts]
    have hlater : ∀ e ∈ entries, (Clashes (mergeEntry state entry).1 e ↔ Clashes state.1 e) := by
      intro e he
      have hne : e.1 ≠ entry.1 := fun h => hk (h ▸ List.mem_map_of_mem he)
      rw [Clashes, Clashes, mergeEntry_lookup, if_neg hne]
    rw [List.forall_mem_cons, and_assoc]
    exact and_congr_right fun _ => and_congr_right fun _ =>
      forall₂_congr fun e he => not_congr (hlater e he)

/-- The properties after a chunk, conflict or not. -/
theorem mergeRunInfo_lookup (target : GoMap String PyValue) (chunk : Chunk) (key : String) :
    (mergeRunInfo target chunk.runInfo).1.lookup key =
      (chunk.value key).elim (target.lookup key) (settleValue (target.lookup key)) := by
  cases h : chunk.runInfo with
  | none => simp [mergeRunInfo, Chunk.value, h]
  | some runInfo =>
    rw [mergeRunInfo, foldl_mergeEntry_lookup runInfo.nodup, Chunk.value, h]
    rfl

/-- The conflicts are the clashes of the chunk's properties. -/
theorem mergeRunInfo_conflicts (target : GoMap String PyValue) (chunk : Chunk) :
    (mergeRunInfo target chunk.runInfo).2 = [] ↔
      ∀ key v, chunk.value key = some v → ¬Clashes target (key, v) := by
  cases h : chunk.runInfo with
  | none => simp [mergeRunInfo, Chunk.value, h]
  | some runInfo =>
    rw [mergeRunInfo, foldl_mergeEntry_conflicts runInfo.nodup]
    constructor
    · rintro ⟨-, hall⟩ key v hv
      rw [Chunk.value, h] at hv
      exact hall (key, v) (runInfo.lookup_eq_some_iff.mp hv)
    · refine fun hall => ⟨rfl, fun entry hentry => hall entry.1 entry.2 ?_⟩
      rw [Chunk.value, h]
      exact runInfo.lookup_eq_some_iff.mpr hentry

/-- The whole merge of a chunk that raises nothing. -/
theorem addChunk_of_no_conflict {report : Report} {chunk : Chunk}
    (h : (mergeRunInfo report.runInfo chunk.runInfo).2 = []) :
    addChunk report chunk =
      ({ report with
          results := report.results ++ chunk.results
          runInfo := (mergeRunInfo report.runInfo chunk.runInfo).1
          timeStart := chunk.timeStart.elim report.timeStart (settle id pyMin report.timeStart)
          timeEnd := chunk.timeEnd.elim report.timeEnd
            (settle OrderDual.toDual pyMax report.timeEnd) }, none) := by
  have hstart : (updateProperty (· == ·) pyMin chunk.timeStart report.timeStart).1 =
      chunk.timeStart.elim report.timeStart (settle id pyMin report.timeStart) :=
    updateProperty_fst (fun v w => beq_iff_eq) pyMin chunk.timeStart report.timeStart
  have hend : (updateProperty (· == ·) pyMax chunk.timeEnd report.timeEnd).1 =
      chunk.timeEnd.elim report.timeEnd (settle OrderDual.toDual pyMax report.timeEnd) :=
    updateProperty_fst (fun v w => beq_iff_eq) pyMax chunk.timeEnd report.timeEnd
  rw [addChunk]
  simp only [h]
  rw [if_neg (not_not_intro rfl), hstart, hend]

/-- A chunk with a conflict raises. -/
theorem addChunk_of_conflict {report : Report} {chunk : Chunk}
    (h : (mergeRunInfo report.runInfo chunk.runInfo).2 ≠ []) :
    ∃ conflicts, (addChunk report chunk).2 = some conflicts := by
  refine ⟨(mergeRunInfo report.runInfo chunk.runInfo).2, ?_⟩
  rw [addChunk]
  exact congrArg Prod.snd (if_pos h)

/-! ## The chunks so far

After some chunks the report holds their results, one list behind the other, and the settled values
of each property. A call raises exactly when there is a conflict among them. -/

/-- The values that chunks have for something, in their order. -/
def valuesOf {V : Type} (read : Chunk → Option V) (chunks : List Chunk) : List V :=
  chunks.filterMap read

theorem valuesOf_snoc {V : Type} (read : Chunk → Option V) (chunks : List Chunk) (chunk : Chunk) :
    valuesOf read (chunks ++ [chunk]) = valuesOf read chunks ++ (read chunk).toList := by
  rw [valuesOf, List.filterMap_append]
  cases h : read chunk <;> simp [valuesOf, h]

/-- The next chunk's value is settled if it has one. -/
theorem settleAll_valuesOf_snoc {V K : Type} [DecidableEq K] (canon : V → K)
    (resolve : V → V → V) (read : Chunk → Option V) (chunks : List Chunk) (chunk : Chunk) :
    settleAll canon resolve (valuesOf read (chunks ++ [chunk])) =
      (read chunk).elim (settleAll canon resolve (valuesOf read chunks))
        (settle canon resolve (settleAll canon resolve (valuesOf read chunks))) := by
  rw [valuesOf_snoc]
  cases read chunk with
  | none => rw [Option.toList_none, List.append_nil]; rfl
  | some v => exact settleAll_snoc canon resolve _ v

/-- What loading chunks one after the other makes of an empty report. -/
structure Loaded (chunks : List Chunk) (report : Report) : Prop where
  results : report.results = chunks.flatMap Chunk.results
  runInfo : ∀ key, report.runInfo.lookup key =
    settleAll PyValue.canon (fun _ _ => .none) (valuesOf (Chunk.value key) chunks)
  timeStart : report.timeStart = settleAll id pyMin (valuesOf Chunk.timeStart chunks)
  timeEnd : report.timeEnd = settleAll OrderDual.toDual pyMax (valuesOf Chunk.timeEnd chunks)
  summary : report.summary = ∅

theorem loaded_nil : Loaded [] {} := ⟨rfl, fun _ => rfl, rfl, rfl, rfl⟩

/-- Two values of a property that are not equal. -/
def ConflictsOn (chunks : Multiset Chunk) (key : String) : Prop :=
  ∃ chunk ∈ chunks, ∃ chunk' ∈ chunks, ∃ v w, chunk.value key = some v ∧
    chunk'.value key = some w ∧ PyValue.eq v w = false

/-- Some property outside `IGNORED_CONFLICTS` has two values. -/
def Conflicting (chunks : Multiset Chunk) : Prop :=
  ∃ key, key ∉ ignoredConflicts ∧ ConflictsOn chunks key

/-- **One more load**: it ends with a report loaded from one more chunk, unless a property clashes.
-/
theorem Loaded.addChunk {chunks : List Chunk} {report : Report} {chunk : Chunk}
    (h : Loaded chunks report) (hok : (mergeRunInfo report.runInfo chunk.runInfo).2 = []) :
    ∃ report', Processor.addChunk report chunk = (report', none) ∧
      Loaded (chunks ++ [chunk]) report' := by
  refine ⟨_, addChunk_of_no_conflict hok, ?_, ?_, ?_, ?_, h.summary⟩
  · show report.results ++ chunk.results = _
    rw [h.results, List.flatMap_append, List.flatMap_singleton]
  · intro key
    rw [settleAll_valuesOf_snoc, ← h.runInfo key]
    exact mergeRunInfo_lookup report.runInfo chunk key
  · rw [settleAll_valuesOf_snoc, ← h.timeStart]
  · rw [settleAll_valuesOf_snoc, ← h.timeEnd]

/-- The keys of a property's values have two members when two values are not equal. -/
theorem conflictsOn_iff (chunks : List Chunk) (key : String) :
    ConflictsOn chunks key ↔
      (keysOf PyValue.canon (valuesOf (Chunk.value key) chunks)).Nontrivial := by
  constructor
  · rintro ⟨c, hc, c', hc', v, w, hv, hw, hne⟩
    refine ⟨v.canon, ⟨v, List.mem_filterMap.mpr ⟨c, hc, hv⟩, rfl⟩, w.canon,
      ⟨w, List.mem_filterMap.mpr ⟨c', hc', hw⟩, rfl⟩, fun heq => ?_⟩
    rw [PyValue.eq_iff.mpr heq] at hne
    cases hne
  · rintro ⟨_, ⟨v, hv, rfl⟩, _, ⟨w, hw, rfl⟩, hne⟩
    obtain ⟨c, hc, hv⟩ := List.mem_filterMap.mp hv
    obtain ⟨c', hc', hw⟩ := List.mem_filterMap.mp hw
    exact ⟨c, hc, c', hc', v, w, hv, hw, decide_eq_false hne⟩

theorem Loaded.settled {chunks : List Chunk} {report : Report} (h : Loaded chunks report)
    (key : String) : Settled PyValue.none.canon
      (keysOf PyValue.canon (valuesOf (Chunk.value key) chunks))
      ((report.runInfo.lookup key).map PyValue.canon) := by
  rw [h.runInfo key]
  exact settled_settleAll (fun _ _ => rfl) _

theorem Conflicting.mono {chunks chunks' : Multiset Chunk} (hsub : chunks ⊆ chunks')
    (h : Conflicting chunks) : Conflicting chunks' := by
  obtain ⟨key, hkey, c, hc, c', hc', hvalues⟩ := h
  exact ⟨key, hkey, c, hsub hc, c', hsub hc', hvalues⟩

/-- One more chunk clashes with what was merged exactly when the chunks conflict. -/
theorem Loaded.conflicts_iff {chunks : List Chunk} {report : Report} (h : Loaded chunks report)
    (hagree : ¬Conflicting chunks) (chunk : Chunk) :
    (mergeRunInfo report.runInfo chunk.runInfo).2 ≠ [] ↔
      Conflicting ((chunks ++ [chunk] : List Chunk) : Multiset Chunk) := by
  have hbefore : ∀ key, key ∉ ignoredConflicts →
      ¬(keysOf PyValue.canon (valuesOf (Chunk.value key) chunks)).Nontrivial :=
    fun key hkey hconflict => hagree ⟨key, hkey, (conflictsOn_iff chunks key).mpr hconflict⟩
  rw [ne_eq, mergeRunInfo_conflicts]
  constructor
  · intro hclash
    push Not at hclash
    obtain ⟨key, v, hv, hkey, w, hw, hne⟩ := hclash
    refine ⟨key, hkey, (conflictsOn_iff _ key).mpr ?_⟩
    rw [valuesOf_snoc, hv, Option.toList_some, keysOf_snoc]
    have hsettled := h.settled key
    rw [hw] at hsettled
    -- what the report has is the key of an earlier value, as those agree
    have hmem : w.canon ∈ keysOf PyValue.canon (valuesOf (Chunk.value key) chunks) := by
      rcases Set.eq_empty_or_nonempty (keysOf PyValue.canon (valuesOf (Chunk.value key) chunks))
        with hempty | ⟨k, hk⟩
      · cases hsettled.absent.mpr hempty
      · rwa [Option.some_inj.mp (hsettled.eq_of_mem (hbefore key hkey) hk)]
    exact ⟨v.canon, Set.mem_insert _ _, w.canon, Set.mem_insert_of_mem _ hmem, hne⟩
  · rintro ⟨key, hkey, hconflict⟩ hnone
    rw [conflictsOn_iff, valuesOf_snoc] at hconflict
    cases hv : chunk.value key with
    | none =>
      rw [hv, Option.toList_none, List.append_nil] at hconflict
      exact hbefore key hkey hconflict
    | some v =>
      rw [hv, Option.toList_some, keysOf_snoc] at hconflict
      obtain ⟨k, hk, hkv⟩ := hconflict.exists_ne v.canon
      have hk := Set.mem_of_mem_insert_of_ne hk hkv
      have hsome := (h.settled key).eq_of_mem (hbefore key hkey) hk
      obtain ⟨w, hw, hwk⟩ := Option.map_eq_some_iff.mp hsome
      exact hnone key v hv ⟨hkey, w, hw, fun heq => hkv (hwk.symm.trans heq.symm)⟩

/-- **All loads**: they raise exactly when the chunks conflict, and otherwise have
loaded them all. -/
theorem loadReport_spec {chunks : List Chunk} {report : Report} (h : Loaded chunks report)
    (hagree : ¬Conflicting chunks) (rest : List Chunk) :
    ((loadReport report rest).2 ≠ none ↔
      Conflicting ((chunks ++ rest : List Chunk) : Multiset Chunk)) ∧
      ((loadReport report rest).2 = none → Loaded (chunks ++ rest) (loadReport report rest).1) := by
  induction rest generalizing chunks report with
  | nil =>
    rw [List.append_nil]
    exact ⟨iff_of_false (not_not_intro rfl) hagree, fun _ => h⟩
  | cons chunk rest ih =>
    rw [List.append_cons]
    by_cases hok : (mergeRunInfo report.runInfo chunk.runInfo).2 = []
    · obtain ⟨report', hadd, hloaded⟩ := h.addChunk hok
      have hagree' := fun hconflict => ((h.conflicts_iff hagree chunk).mpr hconflict) hok
      rw [loadReport, hadd]
      exact ih hloaded hagree'
    · obtain ⟨conflicts, hraise⟩ := addChunk_of_conflict hok
      -- the chunk raises, so the rest is not loaded
      have hload : (loadReport report (chunk :: rest)).2 = some conflicts := by
        rw [loadReport]
        cases hadd : addChunk report chunk with
        | mk report' raised =>
          rw [hadd] at hraise
          subst hraise
          rfl
      have hconflict := (h.conflicts_iff hagree chunk).mp hok
      rw [hload]
      refine ⟨iff_of_true (by simp) (hconflict.mono ?_), fun hnone => nomatch hnone⟩
      exact Multiset.coe_subset.mpr (List.subset_append_left _ _)

/-! ## The merged report -/

/-- What a report merged from these chunks is, whatever their order. -/
structure MergedFrom (chunks : Multiset Chunk) (report : Report) : Prop where
  /-- the results of all chunks -/
  results : (report.results : Multiset TestResult) =
    chunks.bind fun chunk => (chunk.results : Multiset TestResult)
  /-- properties that no chunk has -/
  absent : ∀ key, report.runInfo.lookup key = none ↔ ∀ chunk ∈ chunks, chunk.value key = none
  /-- the common value of a property -/
  common : ∀ key, ¬ConflictsOn chunks key → ∀ chunk ∈ chunks, ∀ v, chunk.value key = some v →
    ∃ w, report.runInfo.lookup key = some w ∧ PyValue.eq v w = true
  /-- a property with two values -/
  cleared : ∀ key, ConflictsOn chunks key → report.runInfo.lookup key = some .none
  /-- the earliest start -/
  timeStart : ∀ t, report.timeStart = some t → IsLeast {t | ∃ c ∈ chunks, c.timeStart = some t} t
  noTimeStart : report.timeStart = none ↔ ∀ c ∈ chunks, c.timeStart = none
  /-- the latest end -/
  timeEnd : ∀ t, report.timeEnd = some t → IsGreatest {t | ∃ c ∈ chunks, c.timeEnd = some t} t
  noTimeEnd : report.timeEnd = none ↔ ∀ c ∈ chunks, c.timeEnd = none

/-- The values of a property, as a set. -/
theorem keysOf_valuesOf {V K : Type} {canon : V → K} {read : Chunk → Option V}
    {chunks : List Chunk} :
    keysOf canon (valuesOf read chunks) =
      {k | ∃ chunk ∈ chunks, (read chunk).map canon = some k} := by
  ext k
  constructor
  · rintro ⟨v, hv, rfl⟩
    obtain ⟨chunk, hchunk, hread⟩ := List.mem_filterMap.mp hv
    exact ⟨chunk, hchunk, by rw [hread]; rfl⟩
  · rintro ⟨chunk, hchunk, hread⟩
    obtain ⟨v, hv, rfl⟩ := Option.map_eq_some_iff.mp hread
    exact ⟨v, List.mem_filterMap.mpr ⟨chunk, hchunk, hv⟩, rfl⟩

/-- There are none when no chunk has the property. -/
theorem keysOf_valuesOf_eq_empty {V K : Type} {canon : V → K} {read : Chunk → Option V}
    {chunks : List Chunk} :
    keysOf canon (valuesOf read chunks) = ∅ ↔ ∀ chunk ∈ chunks, read chunk = none := by
  rw [keysOf_valuesOf, Set.eq_empty_iff_forall_notMem]
  constructor
  · intro hempty chunk hchunk
    cases hv : read chunk with
    | none => rfl
    | some v => exact absurd ⟨chunk, hchunk, by rw [hv]; rfl⟩ (hempty (canon v))
  · rintro hall k ⟨chunk, hchunk, hread⟩
    rw [hall chunk hchunk] at hread
    cases hread

theorem Loaded.extremal_timeStart {chunks : List Chunk} {report : Report}
    (h : Loaded chunks report) :
    Extremal (keysOf id (valuesOf Chunk.timeStart chunks)) (report.timeStart.map id) := by
  rw [h.timeStart]
  refine extremal_settleAll (fun v w => ?_) _
  rw [id, id, id, pyMin, min_def]
  split_ifs with h₁ h₂ h₂
  · exact absurd h₂ (not_le.mpr h₁)
  · rfl
  · rfl
  · exact absurd (le_of_not_gt h₁) h₂

/-- The end is the greatest, that is the least in the opposite order. -/
theorem Loaded.extremal_timeEnd {chunks : List Chunk} {report : Report}
    (h : Loaded chunks report) :
    Extremal (keysOf OrderDual.toDual (valuesOf Chunk.timeEnd chunks))
      (report.timeEnd.map OrderDual.toDual) := by
  rw [h.timeEnd]
  refine extremal_settleAll (fun v w => ?_) _
  show OrderDual.toDual (pyMax v w) = OrderDual.toDual (max v w)
  rw [pyMax, max_def]
  split_ifs with h₁ h₂ h₂
  · rfl
  · exact absurd h₁.le h₂
  · rw [le_antisymm h₂ (le_of_not_gt h₁)]
  · rfl

/-- What was loaded in some order is merged from the chunks, whatever their order. -/
theorem Loaded.mergedFrom {chunks : List Chunk} {report : Report} (h : Loaded chunks report) :
    MergedFrom chunks report where
  results := by
    rw [h.results, Multiset.coe_bind]
  absent key := by
    rw [← Option.map_eq_none_iff (f := PyValue.canon), (h.settled key).absent]
    exact keysOf_valuesOf_eq_empty
  common key hagree chunk hchunk v hv := by
    rw [conflictsOn_iff] at hagree
    have hmem : v.canon ∈ keysOf PyValue.canon (valuesOf (Chunk.value key) chunks) :=
      ⟨v, List.mem_filterMap.mpr ⟨chunk, hchunk, hv⟩, rfl⟩
    obtain ⟨w, hw, hcanon⟩ := Option.map_eq_some_iff.mp ((h.settled key).eq_of_mem hagree hmem)
    exact ⟨w, hw, PyValue.eq_iff.mpr hcanon.symm⟩
  cleared key hconflict := by
    rw [conflictsOn_iff] at hconflict
    obtain ⟨w, hw, hcanon⟩ := Option.map_eq_some_iff.mp ((h.settled key).conflicting hconflict)
    rw [hw, PyValue.eq_none_of_canon hcanon]
  timeStart t ht := by
    have hleast := h.extremal_timeStart.least t (by rw [ht]; rfl)
    rw [keysOf_valuesOf] at hleast
    obtain ⟨⟨chunk, hchunk, hread⟩, hlower⟩ := hleast
    refine ⟨⟨chunk, hchunk, by rwa [Option.map_id] at hread⟩, ?_⟩
    rintro t' ⟨c, hc, ht'⟩
    exact hlower ⟨c, hc, by rw [ht']; rfl⟩
  noTimeStart := by
    rw [← Option.map_eq_none_iff (f := id), h.extremal_timeStart.absent]
    exact keysOf_valuesOf_eq_empty
  timeEnd t ht := by
    have hleast := h.extremal_timeEnd.least (OrderDual.toDual t) (by rw [ht]; rfl)
    rw [keysOf_valuesOf] at hleast
    obtain ⟨⟨chunk, hchunk, hread⟩, hlower⟩ := hleast
    refine ⟨⟨chunk, hchunk, ?_⟩, ?_⟩
    · obtain ⟨v, hv, heq⟩ := Option.map_eq_some_iff.mp hread
      rw [hv, OrderDual.toDual.injective heq]
    · rintro t' ⟨c, hc, ht'⟩
      exact hlower ⟨c, hc, by rw [ht']; rfl⟩
  noTimeEnd := by
    rw [← Option.map_eq_none_iff (f := OrderDual.toDual), h.extremal_timeEnd.absent]
    exact keysOf_valuesOf_eq_empty

/-! ## All orders

Two orders of the same chunks fail together or give the same report up to the order of the
results. -/

/-- The same report for Python's `==`, with results in some other order. -/
structure SameReport (report report' : Report) : Prop where
  runInfo : ∀ key,
    (report.runInfo.lookup key).map PyValue.canon = (report'.runInfo.lookup key).map PyValue.canon
  timeStart : report.timeStart = report'.timeStart
  timeEnd : report.timeEnd = report'.timeEnd
  results : report.results.Perm report'.results
  summary : SameOutcome (summarize report).2 (summarize report').2

/-- Two orders of the same chunks give the same report. -/
theorem Loaded.same {order order' : List Chunk} {report report' : Report}
    (h : Loaded order report) (h' : Loaded order' report') (hperm : order.Perm order') :
    SameReport report report' := by
  -- everything that is kept is a function of the set of values that the chunks give a key
  have hkeys : ∀ {V K : Type} (canon : V → K) (read : Chunk → Option V),
      keysOf canon (valuesOf read order) = keysOf canon (valuesOf read order') := by
    intro V K canon read
    rw [keysOf_valuesOf, keysOf_valuesOf]
    ext k
    exact exists_congr fun chunk => and_congr_left fun _ => hperm.mem_iff
  have hresults : report.results.Perm report'.results := by
    rw [h.results, h'.results]
    exact hperm.flatMap_right _
  refine ⟨fun key => ?_, ?_, ?_, hresults, summarize_perm h.summary h'.summary hresults⟩
  · have hsettled := h.settled key
    rw [hkeys] at hsettled
    exact hsettled.unique (h'.settled key)
  · have hstart := h.extremal_timeStart
    rw [hkeys] at hstart
    exact Option.map_injective Function.injective_id (hstart.unique h'.extremal_timeStart)
  · have hend := h.extremal_timeEnd
    rw [hkeys] at hend
    exact Option.map_injective OrderDual.toDual.injective (hend.unique h'.extremal_timeEnd)

/-- **The order of the chunks does not count**: every order raises exactly when the
chunks conflict, and otherwise every order ends in a report merged from the chunks,
the same for all. -/
theorem loadReport_order (chunks : Multiset Chunk) :
    (∀ order : List Chunk, (order : Multiset Chunk) = chunks →
      ((loadReport {} order).2 ≠ none ↔ Conflicting chunks)) ∧
    (¬Conflicting chunks →
      ∀ order order' : List Chunk, (order : Multiset Chunk) = chunks →
        (order' : Multiset Chunk) = chunks →
        MergedFrom chunks (loadReport {} order).1 ∧
          SameReport (loadReport {} order).1 (loadReport {} order').1) := by
  have hempty : ¬Conflicting (([] : List Chunk) : Multiset Chunk) := by
    rintro ⟨key, -, chunk, hchunk, -⟩
    exact Multiset.notMem_zero chunk hchunk
  refine ⟨?_, ?_⟩
  · rintro order rfl
    exact (loadReport_spec loaded_nil hempty order).1
  · rintro hagree order order' rfl horder'
    have hloaded : ∀ order'' : List Chunk, (order'' : Multiset Chunk) = order →
        Loaded order'' (loadReport {} order'').1 := by
      intro order'' heq
      have hspec := loadReport_spec loaded_nil hempty order''
      refine hspec.2 (not_not.mp fun hraise => hagree ?_)
      rw [← heq]
      exact hspec.1.mp hraise
    have hperm : order.Perm order' := Multiset.coe_eq_coe.mp horder'.symm
    exact ⟨(hloaded order rfl).mergedFrom, (hloaded order rfl).same (hloaded order' horder') hperm⟩

/-- Two chunks of one product, in both orders: they differ in a property that may. -/
theorem loadReport_order_chrome :
    let first : Chunk :=
      { results := [⟨some "/a", some "OK", some []⟩], timeStart := some 2
        runInfo := some ⟨[("product", .str "chrome"), ("os_build", .str "22621")], by decide⟩ }
    let second : Chunk :=
      { results := [⟨some "/b", some "OK", some []⟩], timeStart := some 1
        runInfo := some ⟨[("product", .str "chrome"), ("os_build", .str "22631")], by decide⟩ }
    SameReport (loadReport {} [first, second]).1 (loadReport {} [second, first]).1 ∧
      MergedFrom [first, second] (loadReport {} [first, second]).1 := by
  intro first second
  obtain ⟨hraises, hmerged⟩ := loadReport_order [first, second]
  have hagree : ¬ Conflicting ([first, second] : List Chunk) := fun h =>
    (hraises [first, second] rfl).mpr h rfl
  obtain ⟨hfrom, hsame⟩ := hmerged hagree [first, second] [second, first] rfl
    (Multiset.coe_eq_coe.mpr (List.Perm.swap _ _ _))
  exact ⟨hsame, hfrom⟩

end WptFyi.Processor
