import WptFyi.Cache.Filter
import WptFyi.Lib.RangeOrder
import WptFyi.Shared.RunDiff

/-!
# Searching summaries (`api/query/search.go`)

An unstructured search goes over the summary files of its runs, one after the other, and
gathers the entries whose file name has the pattern in it. The loops are over maps, so the
order of each is a parameter; an index out of range panics, which is `none` here.

The results are gathered in a map from names, and each has a list with one place for every run,
which is filled when the loop comes to that run. `Gathered` says what the map is after some of the
summaries, in terms of the summaries alone: a name is in it if one of them has it, and its list has
the entry of each of those runs and nothing for the others. One entry, one summary and all
summaries keep it, and the order of an inner loop drops out with the second of these.

- `prepareSearchResponse`: the response for a pattern;
- `Gathered`: what was gathered from some summaries;
- `prepareSearchResponse_spec`: it has a result for each matching name in some summary,
  with the entry of every run in its place.
-/

namespace WptFyi.Search

open Lib Lib.GoStrings Shared

/-- `SummaryResult`: an entry of a summary file. -/
structure SummaryResult where
  status : String
  counts : List Nat
deriving DecidableEq

/-- `summary`: a summary file. -/
abbrev SummaryFile := GoMap String SummaryResult

/-- What the response says of an entry, whose counts are passes and total. -/
def legacyResult (testInfo : SummaryResult) : Option LegacySearchRunResult := do
  let passes ← testInfo.counts[0]?
  let total ← testInfo.counts[1]?
  return { passes, total, status := testInfo.status, newAggProcess := true }

section Response

variable (toLower : String → String) (q : String)

/-- The file name has the pattern in it. -/
def nameMatches (filename : String) : Bool := contains (toLower filename) (toLower q)

/-- One entry of the summary at `i`. -/
def addEntry (numRuns i : Nat) (resMap : GoMap String SearchResult) (filename : String)
    (testInfo : SummaryResult) : Option (GoMap String SearchResult) :=
  if !nameMatches toLower q filename then some resMap
  else do
    let r := (resMap.lookup filename).getD
      { test := filename, legacyStatus := some (List.replicate numRuns {}) }
    let legacyStatus ← r.legacyStatus
    let result ← legacyResult testInfo
    if i < legacyStatus.length then
      return resMap.insert filename { r with legacyStatus := some (legacyStatus.set i result) }
    else none

/-- The loop over the entries of the summary at `i`, in some order. -/
def addSummary (numRuns i : Nat) (s : SummaryFile) (filenames : List String)
    (resMap : GoMap String SearchResult) : Option (GoMap String SearchResult) :=
  filenames.foldlM (fun resMap filename =>
    match s.lookup filename with
    | none => some resMap
    | some testInfo => addEntry toLower q numRuns i resMap filename testInfo) resMap

/-- The loop over the summaries. -/
def addSummaries (orders : Nat → RangeOrder String) (numRuns : Nat) (summaries : List SummaryFile) :
    Option (GoMap String SearchResult) :=
  summaries.zipIdx.foldlM (fun resMap (s, i) =>
    addSummary toLower q numRuns i s (orders i s.keys).1 resMap) ∅

/-- `prepareSearchResponse`: the results of the response, sorted by name. -/
def prepareSearchResponse (orders : Nat → RangeOrder String) (order : RangeOrder String)
    (testRuns : List TestRun) (summaries : List SummaryFile) : Option (List SearchResult) :=
  (addSummaries toLower q orders testRuns.length summaries).map fun resMap =>
    ((order resMap.keys).1.filterMap resMap.lookup).insertionSort fun a b => a.test ≤ b.test

end Response

/-! ## What the loops gather

The inner loop goes over a map. Each entry fills the place of its run in the list of its name, so
the order of the entries does not show in what is gathered. -/

/-- What a run says of a name; nothing if its summary has no such entry. -/
def column (name : String) (s : SummaryFile) : LegacySearchRunResult :=
  ((s.lookup name).bind legacyResult).getD {}

/-- The columns for a name after some summaries. -/
def columns (numRuns : Nat) (summaries : List SummaryFile) (name : String) :
    List LegacySearchRunResult :=
  (List.range numRuns).map fun i => (summaries[i]?).elim {} (column name)

/-- Every entry has the two counts. -/
def HasCounts (s : SummaryFile) : Prop :=
  ∀ name info, s.lookup name = some info → ∃ result, legacyResult info = some result

section Loops

variable {toLower : String → String} {q : String} {numRuns : Nat}

/-- The results after some summaries. -/
structure Gathered (toLower : String → String) (q : String) (numRuns : Nat)
    (summaries : List SummaryFile) (resMap : GoMap String SearchResult) : Prop where
  mem_iff : ∀ name, name ∈ resMap ↔
    nameMatches toLower q name = true ∧ ∃ s ∈ summaries, name ∈ s
  lookup : ∀ name r, resMap.lookup name = some r →
    r = { test := name, legacyStatus := some (columns numRuns summaries name) }

/-- A name that no summary has leaves its places empty. -/
theorem columns_of_forall_notMem {summaries : List SummaryFile} {name : String}
    (h : ∀ s ∈ summaries, name ∉ s) :
    columns numRuns summaries name = List.replicate numRuns {} := by
  rw [columns, List.eq_replicate_iff]
  refine ⟨by simp, fun result hresult => ?_⟩
  obtain ⟨i, -, rfl⟩ := List.mem_map.mp hresult
  cases hs : summaries[i]? with
  | none => rfl
  | some s =>
    have hnone := Finmap.lookup_eq_none.mpr (h s (List.mem_of_getElem? hs))
    show column name s = {}
    rw [column, hnone]
    rfl

/-- What an entry finds in the results, or puts there. -/
theorem Gathered.getD {summaries : List SummaryFile} {resMap : GoMap String SearchResult}
    (h : Gathered toLower q numRuns summaries resMap) {name : String}
    (hmatch : nameMatches toLower q name = true) :
    (resMap.lookup name).getD { test := name, legacyStatus := some (List.replicate numRuns {}) } =
      { test := name, legacyStatus := some (columns numRuns summaries name) } := by
  cases hr : resMap.lookup name with
  | some r => exact h.lookup name r hr
  | none =>
    have hnone : ∀ s ∈ summaries, name ∉ s := fun s hs hname =>
      Finmap.lookup_eq_none.mp hr ((h.mem_iff name).mpr ⟨hmatch, s, hs, hname⟩)
    rw [columns_of_forall_notMem hnone]
    rfl

/-- Before its first entry, a summary is an empty one. -/
theorem Gathered.snoc_empty {summaries : List SummaryFile} {resMap : GoMap String SearchResult}
    (h : Gathered toLower q numRuns summaries resMap) :
    Gathered toLower q numRuns (summaries ++ [∅]) resMap where
  mem_iff name := by
    rw [h.mem_iff]
    simp [or_and_right, exists_or, Finmap.notMem_empty]
  lookup name r hr := by
    rw [h.lookup name r hr]
    congr 2
    unfold columns
    refine List.map_congr_left fun i _ => ?_
    rw [List.getElem?_append]
    split
    · rfl
    · next hi =>
      rw [List.getElem?_eq_none (Nat.le_of_not_lt hi), List.getElem?_singleton]
      split <;> rfl

theorem column_insert (name k : String) (info : SummaryResult) (s : SummaryFile) :
    column name (s.insert k info) =
      if name = k then (legacyResult info).getD {} else column name s := by
  unfold column
  rw [GoMap.lookup_insert_eq_ite]
  split_ifs <;> rfl

/-- One more entry of the last summary. -/
theorem columns_snoc_insert (summaries : List SummaryFile) (part : SummaryFile)
    (name k : String) (info : SummaryResult) :
    columns numRuns (summaries ++ [part.insert k info]) name =
      if name = k then (columns numRuns (summaries ++ [part]) name).set summaries.length
        ((legacyResult info).getD {})
      else columns numRuns (summaries ++ [part]) name := by
  -- only the column of the last run is the one of the new part
  have hplace : ∀ (s : SummaryFile) (i : Nat), ((summaries ++ [s])[i]?).elim {} (column name) =
      if summaries.length = i then column name s
      else (summaries[i]?).elim {} (column name) := by
    intro s i
    rw [List.getElem?_append]
    by_cases hi : i < summaries.length
    · rw [if_pos hi, if_neg (Nat.ne_of_gt hi)]
    · rw [if_neg hi, List.getElem?_eq_none (Nat.le_of_not_lt hi), List.getElem?_singleton]
      by_cases heq : summaries.length = i
      · rw [if_pos heq, if_pos (by omega)]
        rfl
      · rw [if_neg heq, if_neg (by omega)]
  split_ifs with hname
  · refine List.ext_getElem (by simp [columns]) fun i hi _ => ?_
    rw [List.getElem_set]
    unfold columns
    simp only [List.getElem_map, List.getElem_range, hplace, column_insert, if_pos hname]
    split_ifs <;> rfl
  · unfold columns
    simp only [hplace, column_insert, if_neg hname]

/-- **One entry** of a summary. -/
theorem Gathered.addEntry {summaries : List SummaryFile} {part : SummaryFile}
    {resMap : GoMap String SearchResult} {k : String} {info : SummaryResult}
    (h : Gathered toLower q numRuns (summaries ++ [part]) resMap)
    (hlen : summaries.length < numRuns) (hcounts : ∃ result, legacyResult info = some result) :
    ∃ resMap', addEntry toLower q numRuns summaries.length resMap k info = some resMap' ∧
      Gathered toLower q numRuns (summaries ++ [part.insert k info]) resMap' := by
  obtain ⟨result, hresult⟩ := hcounts
  have hmem : ∀ name, (∃ s ∈ summaries ++ [part.insert k info], name ∈ s) ↔
      name = k ∨ ∃ s ∈ summaries ++ [part], name ∈ s := by
    intro name
    simp only [List.mem_append, List.mem_singleton, or_and_right, exists_or, exists_eq_left,
      Finmap.mem_insert]
    exact or_left_comm
  unfold Search.addEntry
  by_cases hmatch : nameMatches toLower q k = true
  · rw [if_neg (by simp [hmatch]), h.getD hmatch]
    have hset : summaries.length < (columns numRuns (summaries ++ [part]) k).length := by
      rw [columns, List.length_map, List.length_range]
      exact hlen
    simp only [hresult, Option.bind_eq_bind, Option.bind_some, if_pos hset]
    refine ⟨_, rfl, fun name => ?_, fun name r hr => ?_⟩
    · rw [Finmap.mem_insert, h.mem_iff, hmem]
      constructor
      · rintro (rfl | ⟨hname, hs⟩)
        · exact ⟨hmatch, Or.inl rfl⟩
        · exact ⟨hname, Or.inr hs⟩
      · rintro ⟨hname, rfl | hs⟩
        · exact Or.inl rfl
        · exact Or.inr ⟨hname, hs⟩
    · rw [GoMap.lookup_insert_eq_ite] at hr
      rw [columns_snoc_insert]
      split_ifs at hr ⊢ with hname
      · cases hr
        rw [hname, hresult]
        rfl
      · exact h.lookup name r hr
  · -- a name without the pattern is passed over
    rw [if_pos (by simp [hmatch])]
    refine ⟨_, rfl, fun name => ?_, fun name r hr => ?_⟩
    · rw [h.mem_iff, hmem]
      refine and_congr_right fun hname => (or_iff_right ?_).symm
      rintro rfl
      exact hmatch hname
    · rw [columns_snoc_insert, if_neg ?_]
      · exact h.lookup name r hr
      · rintro rfl
        exact hmatch ((h.mem_iff _).mp (Finmap.mem_of_lookup_eq_some hr)).1

/-- Some of the entries of a summary. -/
theorem Gathered.addEntries {summaries : List SummaryFile} {s part : SummaryFile}
    {resMap : GoMap String SearchResult}
    (h : Gathered toLower q numRuns (summaries ++ [part]) resMap)
    (hlen : summaries.length < numRuns) (hcounts : HasCounts s) {filenames : List String}
    (hfilenames : ∀ filename ∈ filenames, filename ∈ s) :
    ∃ resMap' part', addSummary toLower q numRuns summaries.length s filenames resMap =
        some resMap' ∧ Gathered toLower q numRuns (summaries ++ [part']) resMap' ∧
      ∀ name, part'.lookup name = if name ∈ filenames then s.lookup name else part.lookup name := by
  induction filenames generalizing part resMap with
  | nil => exact ⟨resMap, part, rfl, h, fun name => (if_neg List.not_mem_nil).symm⟩
  | cons filename filenames ih =>
    obtain ⟨hhead, hrest⟩ := List.forall_mem_cons.mp hfilenames
    obtain ⟨info, hinfo⟩ := Finmap.mem_iff.mp hhead
    obtain ⟨resMap₁, hresMap₁, h₁⟩ := h.addEntry (k := filename) hlen (hcounts filename info hinfo)
    obtain ⟨resMap', part', hresMap', h', hpart'⟩ := ih h₁ hrest
    refine ⟨resMap', part', ?_, h', fun name => ?_⟩
    · rw [addSummary, List.foldlM_cons, hinfo]
      show (Search.addEntry toLower q numRuns summaries.length resMap filename info).bind _ = _
      rw [hresMap₁]
      exact hresMap'
    · rw [hpart', GoMap.lookup_insert_eq_ite]
      by_cases hname : name = filename
      · subst hname
        rw [if_pos rfl, if_pos List.mem_cons_self, hinfo, ite_self]
      · simp only [hname, List.mem_cons, false_or, if_false]

/-- **A whole summary.** -/
theorem Gathered.addSummary {summaries : List SummaryFile} {resMap : GoMap String SearchResult}
    (h : Gathered toLower q numRuns summaries resMap) (hlen : summaries.length < numRuns)
    {s : SummaryFile} (hcounts : HasCounts s) (order : RangeOrder String) :
    ∃ resMap', addSummary toLower q numRuns summaries.length s (order s.keys).1 resMap =
        some resMap' ∧ Gathered toLower q numRuns (summaries ++ [s]) resMap' := by
  obtain ⟨resMap', part, hresMap', h', hpart⟩ := h.snoc_empty.addEntries hlen hcounts
    fun filename hfilename => Finmap.mem_keys.mp ((mem_rangeOrder order _ filename).mp hfilename)
  obtain rfl : part = s := by
    refine Finmap.ext_lookup fun name => ?_
    rw [hpart]
    split_ifs with hname
    · rfl
    · rw [mem_rangeOrder, Finmap.mem_keys] at hname
      rw [Finmap.lookup_eq_none.mpr hname, Finmap.lookup_empty]
  exact ⟨resMap', hresMap', h'⟩

/-- **All summaries.** -/
theorem gathered_addSummaries (orders : Nat → RangeOrder String) {summaries : List SummaryFile}
    (hcounts : ∀ s ∈ summaries, HasCounts s) (hlen : summaries.length ≤ numRuns) :
    ∃ resMap, addSummaries toLower q orders numRuns summaries = some resMap ∧
      Gathered toLower q numRuns summaries resMap := by
  induction summaries using List.reverseRecOn with
  | nil =>
    refine ⟨∅, rfl, fun name => ?_, fun name r hr => ?_⟩
    · simp [Finmap.notMem_empty]
    · simp at hr
  | append_singleton summaries s ih =>
    rw [List.length_append, List.length_singleton] at hlen
    obtain ⟨resMap, hresMap, h⟩ := ih (fun s hs => hcounts s (List.mem_append_left _ hs))
      (Nat.le_of_succ_le hlen)
    obtain ⟨resMap', hresMap', h'⟩ := h.addSummary hlen (hcounts s (by simp))
      (orders summaries.length)
    refine ⟨resMap', ?_, h'⟩
    unfold addSummaries at hresMap ⊢
    rw [List.zipIdx_append, List.foldlM_append, hresMap]
    simpa using hresMap'

end Loops

/-- The results of a response: one for each matching name in some summary. -/
structure ResponseOf (toLower : String → String) (q : String) (summaries : List SummaryFile)
    (results : List SearchResult) : Prop where
  exists_iff : ∀ name, (∃ r ∈ results, r.test = name) ↔
    nameMatches toLower q name = true ∧ ∃ s ∈ summaries, name ∈ s
  legacyStatus : ∀ r ∈ results, r.legacyStatus = some (summaries.map (column r.test))

/-- **`prepareSearchResponse`** has each matching name of the summaries, with the entry of
every run in its place. -/
theorem prepareSearchResponse_spec (toLower : String → String) (q : String)
    (orders : Nat → RangeOrder String) (order : RangeOrder String) {testRuns : List TestRun}
    {summaries : List SummaryFile} (hlen : summaries.length = testRuns.length)
    (hcounts : ∀ s ∈ summaries, HasCounts s) :
    ∃ results, prepareSearchResponse toLower q orders order testRuns summaries = some results ∧
      ResponseOf toLower q summaries results := by
  obtain ⟨resMap, hresMap, h⟩ := gathered_addSummaries (q := q) orders hcounts hlen.le
  have hmem : ∀ r, r ∈ ((order resMap.keys).1.filterMap resMap.lookup).insertionSort
      (fun a b => a.test ≤ b.test) ↔ ∃ name, resMap.lookup name = some r := by
    intro r
    rw [List.mem_insertionSort, List.mem_filterMap]
    refine exists_congr fun name => and_iff_right_of_imp fun hr => ?_
    rw [mem_rangeOrder, Finmap.mem_keys]
    exact Finmap.mem_of_lookup_eq_some hr
  -- there are as many summaries as runs
  have hcolumns : ∀ name, columns testRuns.length summaries name = summaries.map (column name) := by
    intro name
    refine List.ext_getElem (by simp [columns, hlen]) fun i _ hi => ?_
    rw [List.length_map] at hi
    simp [columns, hi]
  refine ⟨_, by rw [prepareSearchResponse, hresMap]; rfl, fun name => ?_, fun r hr => ?_⟩
  · rw [← h.mem_iff, Finmap.mem_iff]
    constructor
    · rintro ⟨r, hr, rfl⟩
      obtain ⟨name, hname⟩ := (hmem r).mp hr
      rw [h.lookup name r hname]
      exact ⟨r, hname⟩
    · rintro ⟨r, hr⟩
      exact ⟨r, (hmem r).mpr ⟨name, hr⟩, by rw [h.lookup name r hr]⟩
  · obtain ⟨name, hname⟩ := (hmem r).mp hr
    rw [h.lookup name r hname, hcolumns]

end WptFyi.Search
