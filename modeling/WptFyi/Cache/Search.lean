import WptFyi.Cache.NaiveSearch
import WptFyi.Cache.Representation
import WptFyi.Lib.Fallible

/-!
# Executing a search (`ShardedFilter.Execute`)

Every shard is searched on its own, in the order of a map, and the results are
put together in the order the shards finish; the answer is taken as a multiset.

The proof goes from the inside out. Over one shard, the loop folds the accepted rows into results
by test, and folding is summing (`unordered_foldl_addRow`), so a shard gives one summary for each
fingerprint of a test name among its accepted rows. The shard holds rows of other runs too, also of
runs that are gone; they are unknown in all runs of the request, and the query that the user's was
prepared with (`PrepareUserQuery`) drops exactly these. With `Represents` the identifiers that are
left stand one to one for the selected rows of the reports whose tests belong to the shard. A test
is in one shard with all its subtests, as the shard is chosen by the test's fingerprint, so the
parts of the shards are disjoint by test and add up to the naive answer.

- `syncRunFilter_eq`: one shard gathers the rows it accepts, by test;
- `shard_results`: over a shard that represents reports, these are the summaries
  of the tests of that shard;
- `search_eq_naiveSearch`: binding and executing a prepared query gives the naive
  answer, after any history.

The goroutines of `Execute` and the channel of their results are the order in which the parts are
put together. Searches that overlap with other calls are in `Snapshots` and `SearchHandler`.
-/

namespace WptFyi.Cache

open Lib Query Shared

/-- `syncRunFilter`: the results of one shard. -/
def syncRunFilter (order : RangeOrder TestID) (runIDs : List RunID) (opts : AggregationOpts)
    (f : Index × Filter) : Option (Multiset SearchResult) :=
  ((order f.1.tests.keys).1.foldlM (fun agg t =>
    (f.2 t).bind fun accepted => if accepted then add f.1 runIDs opts agg t else some agg) ∅).map
      GoMap.values

/-- `ShardedFilter.Execute`. -/
def execute (order : RangeOrder TestID) (fs : ShardedFilter) (runs : List TestRun)
    (opts : AggregationOpts) : Option (Multiset SearchResult) :=
  (fs.mapM (syncRunFilter order (runs.map TestRun.id) opts)).map List.sum

/-! ## Prepared queries -/

/-- A prepared query holds of the rows that some run knows and of which the query holds. -/
theorem holds_prepareUserQuery (cases : CaseMapping) (row : Row) (ids : List RunID)
    (q : ConcreteQuery) :
    holds cases row (prepareUserQuery ids q) =
      ((ids.any fun id => row.result id != TestStatus.unknown) && holds cases row q) := by
  have hbase : holds cases row (.or (ids.map fun id => .runTestStatusNeq id TestStatus.unknown)) =
      ids.any fun id => row.result id != TestStatus.unknown := by
    rw [holds, holdsArgs_eq_map, List.any_map, List.any_map]
    rfl
  have hand : ∀ q, holds cases row (.and [.or (ids.map fun id =>
      .runTestStatusNeq id TestStatus.unknown), q]) =
        ((ids.any fun id => row.result id != TestStatus.unknown) && holds cases row q) := by
    intro q
    rw [holds, holdsArgs, holdsArgs, holdsArgs, hbase]
    simp
  unfold prepareUserQuery
  cases q with
  | and args =>
    simp only
    rw [holds, holdsArgs, hbase, List.all_cons, holds]
    rfl
  | _ => exact hand _

/-- Preparing a query adds the runs of the search, which are in the index. -/
theorem runIDs_prepareUserQuery {ids : List RunID} {q : ConcreteQuery}
    (hq : ∀ id ∈ q.runIDs, id ∈ ids) : ∀ id ∈ (prepareUserQuery ids q).runIDs, id ∈ ids := by
  have hbase : ∀ id ∈ ConcreteQuery.runIDs
      (.or (ids.map fun id => .runTestStatusNeq id TestStatus.unknown)), id ∈ ids := by
    intro id hid
    obtain ⟨q, hq, hid⟩ := ConcreteQuery.mem_runIDsOfArgs.mp hid
    obtain ⟨id', hid', rfl⟩ := List.mem_map.mp hq
    exact (List.mem_singleton.mp hid) ▸ hid'
  have hand : ∀ args : List ConcreteQuery, (∀ id ∈ ConcreteQuery.runIDsOfArgs args, id ∈ ids) →
      ∀ id ∈ ConcreteQuery.runIDs (.and (.or (ids.map fun id =>
        .runTestStatusNeq id TestStatus.unknown) :: args)), id ∈ ids := by
    intro args hargs id hid
    rcases List.mem_append.mp hid with hid | hid
    · exact hbase id hid
    · exact hargs id hid
  unfold prepareUserQuery
  cases q with
  | and args => exact hand args hq
  | _ => exact hand [_] fun id hid => hq id (by simpa [ConcreteQuery.runIDsOfArgs] using hid)

/-! ## One shard

The rows that a shard visits are those of its tests, in the order of a map. Whether a row is added
is known of the row, so the loop is a filter and a fold. -/

section Shard

variable {idx : Index} {ids : List RunID} {opts : AggregationOpts}

/-- The row of a `TestID`, folded into the result of its test. -/
def foldRow (idx : Index) (ids : List RunID) (opts : AggregationOpts) (r : SearchResult)
    (t : TestID) : SearchResult :=
  addRow opts r ((idx.row t).name.bind TestName.subName) (ids.map (idx.row t).result)

/-- The result a test starts from. -/
def startRow (idx : Index) (t : TestID) : SearchResult :=
  { test := ((idx.row t).name.map TestName.name).getD "" }

/-- One row that is selected: the aggregator starts a result for its test, or adds to the one that
is there. -/
theorem add_eq (hids : ∀ id ∈ ids, id ∈ idx.runResults) {t : TestID} (ht : t ∈ idx.tests)
    (agg : GoMap UInt64 SearchResult) :
    add idx ids opts agg t = some (if leftOut ids opts (idx.row t) then agg
      else GoMap.upsert TestID.testID (startRow idx) (foldRow idx ids opts) agg t) := by
  obtain ⟨n, hn⟩ := Finmap.mem_iff.mp ht
  -- whether the row is ignored is known of the row itself, not of the index
  have hignored : ignored idx ids opts t = some (leftOut ids opts (idx.row t)) := by
    unfold ignored leftOut
    cases opts.ignoreTestHarnessResult with
    | false => rfl
    | true =>
      have hmap : (ids.map fun id => resultFilter idx id TestStatus.isHarnessStatus).map (· t) =
          (ids.map fun id => TestStatus.isHarnessStatus ((idx.row t).result id)).map some := by
        rw [List.map_map, List.map_map]
        exact List.map_congr_left fun id hid => resultFilter_eq (hids id hid) _ t
      simp only [if_true]
      rw [orFilter_eq hmap, List.any_map]
      rfl
  have hstatuses : (ids.mapM fun id => (idx.runResults.lookup id).map (·.getResult t)) =
      some (ids.map (idx.row t).result) := by
    refine mapM_eq_some fun id hid => ?_
    obtain ⟨rrs, hrrs⟩ := Finmap.mem_iff.mp (hids id hid)
    rw [hrrs, Option.map_some, Index.result_row hrrs]
  have hname : (idx.row t).name = some n := hn
  unfold add
  rw [hn]
  simp only [hignored, hstatuses, Option.bind_eq_bind, Option.bind_some]
  split_ifs
  · rfl
  · rw [GoMap.upsert, startRow, foldRow, hname]
    rfl

/-- What a search over a shard adds up. -/
def accepts (cases : CaseMapping) (ids : List RunID) (q : ConcreteQuery) (opts : AggregationOpts)
    (row : Row) : Bool :=
  holds cases row (prepareUserQuery ids q) && !leftOut ids opts row

theorem accepts_eq (cases : CaseMapping) (q : ConcreteQuery) (row : Row) :
    accepts cases ids q opts row = selected cases ids q opts row := by
  rw [accepts, selected, holds_prepareUserQuery]

/-- All rows of a shard: the loop never fails, and it folds the rows that are selected into their
tests. -/
theorem foldlM_add_eq (cases : CaseMapping) {q : ConcreteQuery} (hq : ∀ id ∈ q.runIDs, id ∈ ids)
    (hids : ∀ id ∈ ids, id ∈ idx.runResults) {ts : List TestID} (hts : ∀ t ∈ ts, t ∈ idx.tests)
    (agg : GoMap UInt64 SearchResult) :
    ts.foldlM (fun agg t => (newFilter cases idx (prepareUserQuery ids q) t).bind fun accepted =>
      if accepted then add idx ids opts agg t else some agg) agg =
      some ((ts.filter fun t => selected cases ids q opts (idx.row t)).foldl
        (GoMap.upsert TestID.testID (startRow idx) (foldRow idx ids opts)) agg) := by
  induction ts generalizing agg with
  | nil => rfl
  | cons t ts ih =>
    obtain ⟨ht, hts⟩ := List.forall_mem_cons.mp hts
    have hfilter := newFilter_eq cases idx t (prepareUserQuery ids q) fun id hid =>
      hids id (runIDs_prepareUserQuery hq id hid)
    rw [List.foldlM_cons, hfilter, Option.bind_some, add_eq hids ht, List.filter_cons,
      ← accepts_eq, accepts]
    cases holds cases (idx.row t) (prepareUserQuery ids q) with
    | false => exact ih hts agg
    | true =>
      cases leftOut ids opts (idx.row t) with
      | false => exact ih hts _
      | true => exact ih hts agg

/-- **One shard** gathers the rows that are selected, by test. -/
theorem syncRunFilter_eq (cases : CaseMapping) {q : ConcreteQuery}
    (hq : ∀ id ∈ q.runIDs, id ∈ ids) (hids : ∀ id ∈ ids, id ∈ idx.runResults)
    (order : RangeOrder TestID) :
    syncRunFilter order ids opts (idx, newFilter cases idx (prepareUserQuery ids q)) =
      some (GoMap.values (((order idx.tests.keys).1.filter fun t =>
        selected cases ids q opts (idx.row t)).foldl
          (GoMap.upsert TestID.testID (startRow idx) (foldRow idx ids opts)) ∅)) := by
  have hts : ∀ t ∈ (order idx.tests.keys).1, t ∈ idx.tests := fun t ht =>
    Finmap.mem_keys.mp ((mem_rangeOrder order _ t).mp ht)
  rw [syncRunFilter, foldlM_add_eq cases hq hids hts]
  rfl

end Shard

/-- What `syncMakeIndex` takes from a shard. -/
theorem syncMakeIndex_spec {shard : WPTIndex} {ids : List RunID}
    {runResults : GoMap RunID RunResults} {idx : Index}
    (h : syncMakeIndex shard ids runResults = .ok idx) :
    idx.tests = shard.tests ∧ ∀ id, idx.runResults.lookup id =
      if id ∈ ids then shard.results.lookup id else runResults.lookup id := by
  induction ids generalizing runResults with
  | nil =>
    cases h
    exact ⟨rfl, fun id => rfl⟩
  | cons id ids ih =>
    rw [syncMakeIndex] at h
    split at h
    · cases h
    · next rrs hrrs =>
      obtain ⟨htests, hlookup⟩ := ih h
      refine ⟨htests, fun id' => ?_⟩
      rw [hlookup, GoMap.lookup_insert_eq_ite]
      by_cases hid : id' = id
      · subst hid
        rw [if_pos rfl, if_pos List.mem_cons_self, hrrs, ite_self]
      · simp only [List.mem_cons, hid, false_or, if_false]

/-! ## A shard that represents reports

With the rows of the reports on the shard, the filter and the fold give the part of the naive
search that the shard is to answer. -/

section Represented

variable {fingerprint64 : String → UInt64} {names : Set TestName} {numShards j : Nat}
  {reports : GoMap RunID Report} {shard : WPTIndex} {idx : Index} {ids : List RunID}
  {cases : CaseMapping} {q : ConcreteQuery} {opts : AggregationOpts}

/-- The part of the naive answer that shard `j` gives. -/
def shardSearch (fingerprint64 : String → UInt64) (numShards : Nat) (cases : CaseMapping)
    (reports : GoMap RunID Report) (ids : List RunID) (q : ConcreteQuery) (opts : AggregationOpts)
    (j : Nat) : Multiset UnorderedResult :=
  (((selectedRows cases reports ids q opts).image TestName.name).filter fun test =>
    shardIdx numShards ⟨fingerprint64 test, 0⟩ = j).val.map fun test =>
      summary opts ids test
        (((selectedRows cases reports ids q opts).filter fun n => n.name = test).val.map
          (naiveRow reports ids))

/-- An index taken from shard `j`, which represents the reports of the runs. -/
structure TakenFrom (fingerprint64 : String → UInt64) (names : Set TestName) (numShards : Nat)
    (reports : GoMap RunID Report) (ids : List RunID) (j : Nat) (shard : WPTIndex) (idx : Index) :
    Prop where
  tests : idx.tests = shard.tests
  runResults : ∀ id, idx.runResults.lookup id =
    if id ∈ ids then shard.results.lookup id else none
  represents : ShardRepresents fingerprint64 names numShards reports j shard
  separates : Separates fingerprint64 names
  reported : ∀ id ∈ ids, ∃ report, reports.lookup id = some report ∧ report.Within names

namespace TakenFrom

/-- A status that is not unknown is one that a report of the request has. -/
theorem find_of_selected {n : TestName} (hn : n ∈ selectedRows cases reports ids q opts) :
    ∃ id ∈ ids, ∃ re, (reportOf reports id).find n = some re := by
  rw [mem_selectedRows_iff] at hn
  simp only [selected, Bool.and_eq_true, List.any_eq_true, bne_iff_ne] at hn
  obtain ⟨⟨⟨id, hid, hknown⟩, _⟩, _⟩ := hn
  refine ⟨id, hid, ?_⟩
  cases hre : (reportOf reports id).find n with
  | none => exact absurd (by simp only [naiveRow, if_pos hid, hre, Option.getD_none]) hknown
  | some re => exact ⟨re, rfl⟩

variable (h : TakenFrom fingerprint64 names numShards reports ids j shard idx)

include h

theorem mem_runResults {id : RunID} (hid : id ∈ ids) : id ∈ idx.runResults := by
  obtain ⟨report, hreport, _⟩ := h.reported id hid
  obtain ⟨rrs, hrrs, _⟩ := h.represents.stored id report hreport
  refine Finmap.mem_iff.mpr ⟨rrs, ?_⟩
  rw [h.runResults, if_pos hid, hrrs]

/-- The row of a `TestID` with names `n` is the row of `n` in the reports. -/
theorem row_eq {t : TestID} {n : TestName} (hn : idx.tests.lookup t = some n) :
    idx.row t = naiveRow reports ids n := by
  obtain ⟨hnames, hid, hidx⟩ := h.represents.tests t n (h.tests ▸ hn)
  have hruns : idx.runResults.keys = ids.toFinset := by
    ext id
    rw [Finmap.mem_keys, List.mem_toFinset]
    refine ⟨fun hmem => ?_, h.mem_runResults⟩
    obtain ⟨rrs, hrrs⟩ := Finmap.mem_iff.mp hmem
    rw [h.runResults] at hrrs
    by_contra hnot
    rw [if_neg hnot] at hrrs
    cases hrrs
  have hresult : (idx.row t).result = (naiveRow reports ids n).result := by
    funext id
    by_cases hmem : id ∈ ids
    · obtain ⟨report, hreport, hwithin⟩ := h.reported id hmem
      obtain ⟨rrs, hrrs, hresults, _⟩ := h.represents.stored id report hreport
      have hlookup : idx.runResults.lookup id = some rrs := by
        rw [h.runResults, if_pos hmem, hrrs]
      have hfind : rrs.lookup t = report.find n := by
        refine Option.ext fun re => ?_
        rw [hresults]
        constructor
        · -- no other row of the report has this identifier
          rintro ⟨n', hn', hid', _⟩
          rwa [h.separates.idOf_injOn hnames (hwithin n' re hn') (hid.symm.trans hid')]
        · intro hre
          exact ⟨n, hre, hid, hidx⟩
      rw [Index.result_row hlookup, RunResults.getResult, hfind]
      simp only [naiveRow, if_pos hmem, reportOf, hreport, Option.getD_some]
    · have hnone : idx.runResults.lookup id = none := by rw [h.runResults, if_neg hmem]
      simp only [Index.row, naiveRow, hnone, if_neg hmem]
      rfl
  unfold naiveRow at hresult ⊢
  unfold Index.row at hresult ⊢
  simp only at hresult
  rw [hn, hruns, hresult]

theorem mem_names_of_selected {n : TestName} (hn : n ∈ selectedRows cases reports ids q opts) :
    n ∈ names := by
  obtain ⟨id, hid, re, hre⟩ := find_of_selected hn
  obtain ⟨report, hreport, hwithin⟩ := h.reported id hid
  rw [reportOf, hreport] at hre
  exact hwithin n re hre

/-- The shard knows the names of every selected row that belongs to it. -/
theorem lookup_of_selected {n : TestName} (hn : n ∈ selectedRows cases reports ids q opts)
    (hidx : shardIdx numShards (idOf fingerprint64 n) = j) :
    idx.tests.lookup (idOf fingerprint64 n) = some n := by
  obtain ⟨id, hid, re, hre⟩ := find_of_selected hn
  obtain ⟨report, hreport, hwithin⟩ := h.reported id hid
  rw [reportOf, hreport] at hre
  obtain ⟨rrs, _, hresults, htests⟩ := h.represents.stored id report hreport
  have hmem : idOf fingerprint64 n ∈ rrs :=
    Finmap.mem_of_lookup_eq_some ((hresults _ re).mpr ⟨n, hre, rfl, hidx⟩)
  obtain ⟨n', hn'⟩ := Finmap.mem_iff.mp (htests _ hmem)
  obtain ⟨hnames', hid', _⟩ := h.represents.tests _ n' hn'
  rw [h.tests, hn', h.separates.idOf_injOn (hwithin n re hre) hnames' hid']

/-- The identifiers a search over the shard selects are those of the selected
rows that belong to it. -/
theorem mem_selected_iff {t : TestID} :
    (t ∈ idx.tests ∧ selected cases ids q opts (idx.row t) = true) ↔
      ∃ n ∈ selectedRows cases reports ids q opts,
        t = idOf fingerprint64 n ∧ shardIdx numShards t = j := by
  constructor
  · rintro ⟨ht, hsel⟩
    obtain ⟨n, hn⟩ := Finmap.mem_iff.mp ht
    obtain ⟨_, hid, hidx⟩ := h.represents.tests t n (h.tests ▸ hn)
    rw [h.row_eq hn] at hsel
    exact ⟨n, mem_selectedRows_iff.mpr hsel, hid, hidx⟩
  · rintro ⟨n, hn, rfl, hidx⟩
    have hlookup := h.lookup_of_selected hn hidx
    refine ⟨Finmap.mem_of_lookup_eq_some hlookup, ?_⟩
    rw [h.row_eq hlookup]
    exact mem_selectedRows_iff.mp hn

/-- The rows a search over the shard selects, in the order it visits them. -/
theorem mem_selectedList_iff (order : RangeOrder TestID) {t : TestID} :
    t ∈ (order idx.tests.keys).1.filter (fun t => selected cases ids q opts (idx.row t)) ↔
      ∃ n ∈ selectedRows cases reports ids q opts,
        t = idOf fingerprint64 n ∧ shardIdx numShards t = j := by
  rw [List.mem_filter, mem_rangeOrder, Finmap.mem_keys]
  exact h.mem_selected_iff

/-- The rows of one test among them are all selected rows of the test. -/
theorem map_row_selectedList (order : RangeOrder TestID) {test : String}
    (htest : test ∈ (selectedRows cases reports ids q opts).image TestName.name)
    (hidx : shardIdx numShards ⟨fingerprint64 test, 0⟩ = j) :
    ((((order idx.tests.keys).1.filter fun t => selected cases ids q opts (idx.row t)).filter
        fun t => t.testID = fingerprint64 test).map idx.row : Multiset Row) =
      ((selectedRows cases reports ids q opts).filter fun n => n.name = test).val.map
        (naiveRow reports ids) := by
  obtain ⟨n₀, hn₀, rfl⟩ := Finset.mem_image.mp htest
  have hnodup := ((order idx.tests.keys).2.1.filter fun t =>
    selected cases ids q opts (idx.row t)).filter fun t => t.testID = fingerprint64 n₀.name
  have hinj : Set.InjOn (idOf fingerprint64)
      ((selectedRows cases reports ids q opts).filter fun n => n.name = n₀.name) := by
    intro n hn n' hn' heq
    exact h.separates.idOf_injOn (h.mem_names_of_selected (Finset.mem_filter.mp hn).1)
      (h.mem_names_of_selected (Finset.mem_filter.mp hn').1) heq
  -- both sides list the same identifiers, each once
  have hids :
      ((((order idx.tests.keys).1.filter fun t => selected cases ids q opts (idx.row t)).filter
      fun t => t.testID = fingerprint64 n₀.name : List TestID) : Multiset TestID) =
        ((selectedRows cases reports ids q opts).filter fun n => n.name = n₀.name).val.map
          (idOf fingerprint64) := by
    refine (Multiset.Nodup.ext (Multiset.coe_nodup.mpr hnodup)
      (Multiset.Nodup.map_on (fun n hn n' hn' heq => hinj hn hn' heq) (Finset.nodup _))).mpr ?_
    intro t
    rw [Multiset.mem_coe, List.mem_filter, h.mem_selectedList_iff, Multiset.mem_map]
    simp only [Finset.mem_val, Finset.mem_filter, decide_eq_true_eq]
    constructor
    · rintro ⟨⟨n, hn, rfl, _⟩, hid⟩
      have hname := h.separates.tests n (h.mem_names_of_selected hn) n₀
        (h.mem_names_of_selected hn₀) hid
      exact ⟨n, ⟨hn, hname⟩, rfl⟩
    · rintro ⟨n, ⟨hn, hname⟩, rfl⟩
      have hid : (idOf fingerprint64 n).testID = fingerprint64 n₀.name := by rw [idOf, hname]
      refine ⟨⟨n, hn, rfl, ?_⟩, hid⟩
      rw [shardIdx, hid]
      exact hidx
  rw [← Multiset.map_coe, hids, Multiset.map_map]
  refine Multiset.map_congr rfl fun n hn => ?_
  obtain ⟨hn, hname⟩ := Finset.mem_filter.mp hn
  refine h.row_eq (h.lookup_of_selected hn ?_)
  rw [shardIdx, idOf, hname]
  exact hidx

/-- **The results of a shard** are the summaries of the tests that belong to it. -/
theorem shard_results (hq : ∀ id ∈ q.runIDs, id ∈ ids) (order : RangeOrder TestID) :
    ∃ results, syncRunFilter order ids opts
        (idx, newFilter cases idx (prepareUserQuery ids q)) = some results ∧
      results.map unordered =
        shardSearch fingerprint64 numShards cases reports ids q opts j := by
  refine ⟨_, syncRunFilter_eq cases hq (fun id hid => h.mem_runResults hid) order, ?_⟩
  set ts := (order idx.tests.keys).1.filter fun t => selected cases ids q opts (idx.row t) with hts
  set tests := ((selectedRows cases reports ids q opts).image TestName.name).filter fun test =>
    shardIdx numShards ⟨fingerprint64 test, 0⟩ = j with htests
  -- the keys of the gathered map are the fingerprints of the tests
  have hkeys : (ts.foldl (GoMap.upsert TestID.testID (startRow idx) (foldRow idx ids opts))
      ∅).keys = tests.image fingerprint64 := by
    rw [GoMap.keys_foldl_upsert]
    ext u
    rw [List.mem_toFinset, List.mem_map, Finset.mem_image]
    constructor
    · rintro ⟨t, ht, rfl⟩
      obtain ⟨n, hn, rfl, hidx⟩ := (h.mem_selectedList_iff order).mp ht
      exact ⟨n.name, Finset.mem_filter.mpr ⟨Finset.mem_image_of_mem _ hn, hidx⟩, rfl⟩
    · rintro ⟨test, htest, rfl⟩
      obtain ⟨himage, hidx⟩ := Finset.mem_filter.mp htest
      obtain ⟨n, hn, rfl⟩ := Finset.mem_image.mp himage
      exact ⟨idOf fingerprint64 n, (h.mem_selectedList_iff order).mpr ⟨n, hn, rfl, hidx⟩, rfl⟩
  have hinj : Set.InjOn fingerprint64 tests := by
    intro test htest test' htest' heq
    obtain ⟨n, hn, rfl⟩ := Finset.mem_image.mp (Finset.mem_filter.mp htest).1
    obtain ⟨n', hn', rfl⟩ := Finset.mem_image.mp (Finset.mem_filter.mp htest').1
    exact h.separates.tests n (h.mem_names_of_selected hn) n' (h.mem_names_of_selected hn') heq
  -- a test's entry is the fold of the rows of the test
  have hvalue : ∀ test ∈ tests, ∃ r,
      (ts.foldl (GoMap.upsert TestID.testID (startRow idx) (foldRow idx ids opts)) ∅).lookup
        (fingerprint64 test) = some r ∧ unordered r = summary opts ids test
          (((selectedRows cases reports ids q opts).filter fun n => n.name = test).val.map
            (naiveRow reports ids)) := by
    intro test htest
    obtain ⟨himage, hidx⟩ := Finset.mem_filter.mp htest
    have hrows := h.map_row_selectedList order himage hidx
    rw [← hts] at hrows
    rw [GoMap.lookup_foldl_upsert, ← hrows]
    obtain ⟨n, hn, hname⟩ := Finset.mem_image.mp himage
    have hmem : ∀ t ∈ ts.filter fun t => t.testID = fingerprint64 test,
        (idx.row t).name.map TestName.name = some test := by
      intro t ht
      obtain ⟨ht, hid⟩ := List.mem_filter.mp ht
      obtain ⟨n', hn', rfl, hidx'⟩ := (h.mem_selectedList_iff order).mp ht
      have hsame : fingerprint64 n'.name = fingerprint64 n.name := by
        rw [hname]
        exact of_decide_eq_true hid
      have hname' : n'.name = test := (h.separates.tests n' (h.mem_names_of_selected hn') n
        (h.mem_names_of_selected hn) hsame).trans hname
      rw [h.row_eq (h.lookup_of_selected hn' hidx'), ← hname']
      rfl
    cases hlist : ts.filter fun t => t.testID = fingerprint64 test with
    | nil =>
      rw [hlist] at hrows
      have hempty : n ∈ (selectedRows cases reports ids q opts).filter fun n => n.name = test :=
        Finset.mem_filter.mpr ⟨hn, hname⟩
      have hzero := Multiset.map_eq_zero.mp hrows.symm
      rw [Finset.val_eq_zero.mp hzero] at hempty
      exact absurd hempty (Finset.notMem_empty n)
    | cons t rest =>
      rw [hlist] at hmem
      have hstart : startRow idx t = { test } := by
        rw [startRow, hmem t List.mem_cons_self]
        rfl
      have hsum := unordered_foldl_addRow opts ids test (idx.row t) (rest.map idx.row)
      rw [← List.map_cons, List.foldl_map, ← hstart] at hsum
      exact ⟨_, rfl, hsum⟩
  rw [GoMap.values_eq_map_keys _ (f := fun u => ((ts.foldl (GoMap.upsert TestID.testID
    (startRow idx) (foldRow idx ids opts)) ∅).lookup u).getD { test := "" })
      fun k v hv => by rw [hv, Option.getD_some], hkeys, Finset.image_val_of_injOn hinj,
    Multiset.map_map, Multiset.map_map]
  refine Multiset.map_congr rfl fun test htest => ?_
  obtain ⟨r, hr, hsum⟩ := hvalue test htest
  simp only [Function.comp_apply, hr, Option.getD_some, hsum]

end TakenFrom

end Represented

/-! ## All shards

A test is on one shard, so the parts are put together without any overlap. A search answers with
the naive search over the reports of the runs that are resident. -/

/-- A finite set in parts: what the parts give adds up to what the set gives. -/
theorem sum_map_parts {α β : Type} [DecidableEq α] {n : Nat} {part : α → Nat} {as : Finset α}
    (hpart : ∀ a ∈ as, part a < n) (f : α → β) :
    ((List.range n).map fun j => (as.filter fun a => part a = j).val.map f).sum =
      as.val.map f := by
  have hsingle : ∀ bs : Finset α, bs.val.map f = ∑ a ∈ bs, {f a} := by
    intro bs
    rw [Finset.sum_eq_multiset_sum, ← Multiset.sum_map_singleton (bs.val.map f), Multiset.map_map]
    rfl
  have hmaps : ∀ a ∈ as, part a ∈ Finset.range n := fun a ha => Finset.mem_range.mpr (hpart a ha)
  rw [hsingle as, ← Finset.sum_fiberwise_of_maps_to hmaps]
  show (List.map _ _).sum = ((List.range n).map _).sum
  simp only [hsingle]

/-- Executing a plan, one shard after the other. -/
theorem execute_of_parts {order : RangeOrder TestID} {runs : List TestRun} {opts : AggregationOpts}
    {fs : ShardedFilter} {part : Nat → Multiset UnorderedResult}
    (h : ∀ j f, fs[j]? = some f → ∃ results,
      syncRunFilter order (runs.map TestRun.id) opts f = some results ∧
        results.map unordered = part j) :
    ∃ results, execute order fs runs opts = some results ∧
      results.map unordered = ((List.range fs.length).map part).sum := by
  induction fs generalizing part with
  | nil => exact ⟨0, rfl, rfl⟩
  | cons f fs ih =>
    obtain ⟨first, hfirst, hpart⟩ := h 0 f rfl
    obtain ⟨rest, hrest, hparts⟩ := @ih (fun j => part (j + 1)) fun j f hf => h (j + 1) f hf
    obtain ⟨results, hresults, rfl⟩ := Option.map_eq_some_iff.mp hrest
    refine ⟨first + results.sum, ?_, ?_⟩
    · rw [execute, List.mapM_cons, hfirst, hresults]
      rfl
    · rw [Multiset.map_add, hpart, hparts, List.length_cons, List.range_succ_eq_map, List.map_cons,
        List.sum_cons, List.map_map]
      rfl

/-- What was mapped without an error, place by place. -/
theorem getElem?_of_mapM_ok {α β ε : Type} {f : α → Except ε β} {as : List α} {bs : List β}
    (h : as.mapM f = .ok bs) : bs.length = as.length ∧
      ∀ (j : Nat) b, bs[j]? = some b → ∃ a, as[j]? = some a ∧ f a = .ok b := by
  induction as generalizing bs with
  | nil =>
    cases h
    exact ⟨rfl, by simp⟩
  | cons a as ih =>
    rw [List.mapM_cons] at h
    cases hb : f a with
    | error err =>
      rw [hb] at h
      cases h
    | ok b =>
      rw [hb] at h
      cases hbs : as.mapM f with
      | error err =>
        rw [hbs] at h
        cases h
      | ok bs' =>
        rw [hbs] at h
        cases h
        obtain ⟨hlen, hget⟩ := ih hbs
        refine ⟨congrArg (· + 1) hlen, fun j b' hb' => ?_⟩
        -- an index of the result is one of the list
        cases j with
        | zero =>
          cases hb'
          exact ⟨a, rfl, hb⟩
        | succ j => exact hget j b' hb'

/-- A row that some report in the history has a status for. -/
def loadedNames (labels : List Label) : Set TestName :=
  {n | ∃ c report order re, Label.load c (.ok report) order ∈ labels ∧ report.find n = some re}

theorem loads_of_valid {labels : List Label}
    (hvalid : ∀ c report order, Label.load c (.ok report) order ∈ labels → report.Valid) :
    ∀ label ∈ labels, label.Loads (loadedNames labels) := by
  intro label hlabel
  cases label with
  | load c outcome order =>
    cases outcome with
    | error message => trivial
    | ok report =>
      exact ⟨hvalid c report order hlabel, fun n re hre => ⟨c, report, order, re, hlabel, hre⟩⟩
  | _ => trivial

/-- A plan for a search over an index that represents the reports, executed. -/
theorem execute_eq {fingerprint64 : String → UInt64} {names : Set TestName} {numShards : Nat}
    {s : System} (hpos : 1 ≤ numShards) (hsep : Separates fingerprint64 names)
    (hinv : s.Invariant numShards) (hrep : Represents fingerprint64 names numShards s)
    {cases : CaseMapping} {runs : List TestRun} {q : ConcreteQuery}
    (hresident : ∀ run ∈ runs, run.id ∈ s.index.runs)
    (hq : ∀ id ∈ q.runIDs, id ∈ runs.map TestRun.id) (opts : AggregationOpts)
    (order : RangeOrder TestID) {idxs : List Index}
    (hidxs : s.index.shards.mapM (fun shard => syncMakeIndex shard (runs.map TestRun.id) ∅) =
      .ok idxs) :
    ∃ results,
      execute order (idxs.map fun idx =>
        (idx, newFilter cases idx (prepareUserQuery (runs.map TestRun.id) q))) runs opts =
          some results ∧
      results.map unordered = naiveSearch cases s.reports (runs.map TestRun.id) q opts := by
  obtain ⟨hlen, hget⟩ := getElem?_of_mapM_ok hidxs
  -- each run of the request has a report, whose tests the shards can tell apart
  have hreported : ∀ id ∈ runs.map TestRun.id, ∃ report,
      s.reports.lookup id = some report ∧ report.Within names := by
    intro id hid
    obtain ⟨run, hrun, rfl⟩ := List.mem_map.mp hid
    have hkey := Finmap.mem_keys.mpr (hresident run hrun)
    rw [← hrep.keys, Finmap.mem_keys] at hkey
    obtain ⟨report, hreport⟩ := Finmap.mem_iff.mp hkey
    exact ⟨report, hreport, hrep.named _ _ hreport⟩
  obtain ⟨results, hresults, hparts⟩ := @execute_of_parts order runs opts
    (idxs.map fun idx => (idx, newFilter cases idx (prepareUserQuery (runs.map TestRun.id) q)))
    (shardSearch fingerprint64 numShards cases s.reports (runs.map TestRun.id) q opts) (by
    intro j f hf
    rw [List.getElem?_map, Option.map_eq_some_iff] at hf
    obtain ⟨idx, hidx, rfl⟩ := hf
    obtain ⟨shard, hshard, hmake⟩ := hget j idx hidx
    obtain ⟨htests, hruns⟩ := syncMakeIndex_spec hmake
    have htaken : TakenFrom fingerprint64 names numShards s.reports (runs.map TestRun.id) j shard
        idx := by
      refine ⟨htests, fun id => ?_, hrep.shard j shard hshard, hsep, hreported⟩
      rw [hruns, Finmap.lookup_empty]
    exact htaken.shard_results hq order)
  refine ⟨results, hresults, ?_⟩
  rw [hparts, List.length_map, hlen, hinv.shards, naiveSearch]
  -- every test is on one shard, so the shards' answers sum up to the naive one
  exact sum_map_parts (fun test _ => Nat.mod_lt _ hpos) _

/-- Binding and executing a prepared query over resident runs. -/
theorem bind_execute {fingerprint64 : String → UInt64} {names : Set TestName} {numShards : Nat}
    {s : System} (hpos : 1 ≤ numShards) (hsep : Separates fingerprint64 names)
    (hinv : s.Invariant numShards) (hrep : Represents fingerprint64 names numShards s)
    {cases : CaseMapping} {runs : List TestRun} (hruns : runs ≠ [])
    (hresident : ∀ run ∈ runs, run.id ∈ s.index.runs) {q : ConcreteQuery}
    (hq : ∀ id ∈ q.runIDs, id ∈ runs.map TestRun.id) (opts : AggregationOpts) (now : RunID → Int)
    (order : RangeOrder TestID) :
    ∃ plan results,
      (s.index.bind cases runs (some (prepareUserQuery (runs.map TestRun.id) q)) now).2 = .ok plan ∧
      execute order plan runs opts = some results ∧
      results.map unordered = naiveSearch cases s.reports (runs.map TestRun.id) q opts := by
  have hshards : s.index.shards ≠ [] := by
    rw [← List.length_pos_iff, hinv.shards]
    exact hpos
  obtain ⟨plan, hplan⟩ := (bind_isOk hinv.resident hshards cases hruns
    (prepareUserQuery (runs.map TestRun.id) q) now).mpr hresident
  -- the plan is a filter for the index of each shard
  have hbind := hplan
  rw [ShardedWPTIndex.bind, if_neg hruns] at hbind
  simp only [ShardedWPTIndex.syncExtractRuns] at hbind
  cases hidxs : s.index.shards.mapM fun shard => syncMakeIndex shard (runs.map TestRun.id) ∅ with
  | error err =>
    rw [hidxs] at hbind
    cases hbind
  | ok idxs =>
    rw [hidxs] at hbind
    cases hbind
    obtain ⟨results, hresults, hanswer⟩ := execute_eq hpos hsep hinv hrep hresident hq opts order
      hidxs
    exact ⟨_, results, hplan, hresults, hanswer⟩

/-- **Searching the index**: after any history of calls, a prepared query over
resident runs gives the naive answer. The answer is the same for all reports
that agree on the runs of the request, so neither the shards nor the other runs
show in it. -/
theorem search_eq_naiveSearch {numShards : Nat} (hpos : 1 ≤ numShards)
    (fingerprint64 : String → UInt64) (cases : CaseMapping) {labels : List Label} {s : System}
    (hrun : run (System.step fingerprint64 cases) (System.start numShards) labels = some s)
    (hvalid : ∀ c report order, Label.load c (.ok report) order ∈ labels → report.Valid)
    (hsep : Separates fingerprint64 (loadedNames labels)) {runs : List TestRun} (hruns : runs ≠ [])
    (hresident : ∀ run ∈ runs, run.id ∈ s.index.runs) {q : ConcreteQuery}
    (hq : ∀ id ∈ q.runIDs, id ∈ runs.map TestRun.id) (opts : AggregationOpts) (now : RunID → Int)
    (order : RangeOrder TestID) :
    ∃ plan results,
      (s.index.bind cases runs (some (prepareUserQuery (runs.map TestRun.id) q)) now).2 = .ok plan ∧
      execute order plan runs opts = some results ∧
      ∀ reports : GoMap RunID Report,
        (∀ run ∈ runs, reports.lookup run.id = s.reports.lookup run.id) →
          results.map unordered = naiveSearch cases reports (runs.map TestRun.id) q opts := by
  obtain ⟨hinv, hrep⟩ := represents_of_run hpos hsep (loads_of_valid hvalid) hrun
  obtain ⟨plan, results, hplan, hresults, hanswer⟩ := bind_execute hpos hsep hinv hrep hruns
    hresident hq opts now order
  refine ⟨plan, results, hplan, hresults, fun reports hreports => ?_⟩
  rw [hanswer]
  refine naiveSearch_congr fun id hid => ?_
  obtain ⟨run, hrun, rfl⟩ := List.mem_map.mp hid
  exact (hreports run hrun).symm

/-- Three ingestions, of which the first is evicted again. -/
def searchedHistory : List Label :=
  let sorted : String → RangeOrder String := fun _ => sortedOrder id Function.injective_id
  [.mark 0 { id := 3, browserName := "edge" },
    .load 0 (.ok ⟨[⟨"/gone.html", "ERROR", []⟩]⟩) sorted, .store 0 10, .clear 0,
    .evict ⟨fun _ => 0, Nat.zero_le⟩ [⟨3, 10⟩],
    .mark 1 { id := 1, browserName := "chrome" }, .mark 2 { id := 2, browserName := "firefox" },
    .load 1 (.ok ⟨[⟨"/a.html", "OK", [⟨"x", "PASS"⟩, ⟨"yy", "FAIL"⟩]⟩]⟩) sorted, .store 1 20,
    .load 2 (.ok ⟨[⟨"/a.html", "OK", [⟨"yy", "PASS"⟩]⟩, ⟨"/bb.html", "PASS", []⟩]⟩) sorted,
    .store 2 30, .clear 2, .clear 1]

/-- Names that are among those of a list. -/
theorem Separates.of_list {fingerprint64 : String → UInt64} {list : List TestName}
    (htests : ∀ n ∈ list, ∀ n' ∈ list, fingerprint64 n.name = fingerprint64 n'.name →
      n.name = n'.name)
    (hsubtests : ∀ n ∈ list, ∀ n' ∈ list, ∀ sub ∈ n.subName, ∀ sub' ∈ n'.subName,
      fingerprint64 sub = fingerprint64 sub' → sub = sub')
    (hnonzero : ∀ n ∈ list, ∀ sub ∈ n.subName, fingerprint64 sub ≠ 0) {names : Set TestName}
    (hnames : ∀ n ∈ names, n ∈ list) : Separates fingerprint64 names where
  tests n hn n' hn' := htests n (hnames n hn) n' (hnames n' hn')
  subtests n hn n' hn' sub sub' hsub hsub' :=
    hsubtests n (hnames n hn) n' (hnames n' hn') sub hsub sub' hsub'
  nonzero n hn := hnonzero n (hnames n hn)

/-- In that history names of tests, and names of subtests, differ in length. -/
theorem separates_searchedHistory :
    Separates (fun s => UInt64.ofNat s.toList.length) (loadedNames searchedHistory) := by
  let list : List TestName :=
    [⟨"/gone.html", none⟩, ⟨"/a.html", none⟩, ⟨"/a.html", some "x"⟩, ⟨"/a.html", some "yy"⟩,
      ⟨"/bb.html", none⟩]
  refine @Separates.of_list _ list (by decide) (by decide) (by decide) _ ?_
  rintro n ⟨c, report, order, re, hlabel, hre⟩
  have hrow := Report.mem_rowNames hre
  clear hre
  simp only [searchedHistory, List.mem_cons, Label.load.injEq, Except.ok.injEq, reduceCtorEq,
    List.not_mem_nil, false_or, or_false] at hlabel
  rcases hlabel with ⟨_, rfl, _⟩ | ⟨_, rfl, _⟩ | ⟨_, rfl, _⟩
  all_goals
    revert n
    decide

/-- A run without a row does not pass it. -/
theorem search_searchedHistory :
    ∃ s plan results,
      run (System.step (fun s => UInt64.ofNat s.toList.length) ⟨id, (· == ·)⟩) (System.start 2)
        searchedHistory = some s ∧
      (s.index.bind ⟨id, (· == ·)⟩
        [{ id := 1, browserName := "chrome" }, { id := 2, browserName := "firefox" }]
        (some (prepareUserQuery [1, 2] (.not (.runTestStatusEq 1 TestStatus.pass))))
          fun _ => 40).2 =
          .ok plan ∧
      execute (fun s => ⟨s.toList, s.nodup_toList, s.toList_toFinset⟩) plan
        [{ id := 1, browserName := "chrome" }, { id := 2, browserName := "firefox" }] {} =
          some results ∧
      results.map unordered =
        {⟨"/a.html", some [⟨0, 1, "O", true⟩, ⟨1, 1, "O", true⟩], none, 0, none⟩,
          ⟨"/bb.html", some [⟨0, 0, "", false⟩, ⟨1, 1, "", true⟩], none, 0, none⟩} := by
  obtain ⟨s, hs, hresident, hreports⟩ : ∃ s, run (System.step
      (fun s => UInt64.ofNat s.toList.length) ⟨id, (· == ·)⟩) (System.start 2) searchedHistory =
        some s ∧ (∀ run ∈ ([{ id := 1, browserName := "chrome" },
          { id := 2, browserName := "firefox" }] : List TestRun), run.id ∈ s.index.runs) ∧
        s.reports = [⟨1, ⟨[⟨"/a.html", "OK", [⟨"x", "PASS"⟩, ⟨"yy", "FAIL"⟩]⟩]⟩⟩,
          ⟨2, ⟨[⟨"/a.html", "OK", [⟨"yy", "PASS"⟩]⟩, ⟨"/bb.html", "PASS", []⟩]⟩⟩].toFinmap :=
    ⟨_, rfl, by decide, by decide⟩
  have hvalid : ∀ c report order, Label.load c (.ok report) order ∈ searchedHistory →
      report.Valid := by
    intro c report order hlabel
    simp only [searchedHistory, List.mem_cons, Label.load.injEq, Except.ok.injEq, reduceCtorEq,
      List.not_mem_nil, false_or, or_false] at hlabel
    rcases hlabel with ⟨_, rfl, _⟩ | ⟨_, rfl, _⟩ | ⟨_, rfl, _⟩
    all_goals exact ⟨by decide, by decide⟩
  -- the general theorem gives the rows; only the naive search is evaluated
  obtain ⟨plan, results, hplan, hresults, hanswer⟩ := search_eq_naiveSearch (by decide)
    (fun s => UInt64.ofNat s.toList.length) ⟨id, (· == ·)⟩ hs hvalid separates_searchedHistory
    (List.cons_ne_nil _ _) hresident (q := .not (.runTestStatusEq 1 TestStatus.pass)) (by decide) {}
    (fun _ => 40) fun s => ⟨s.toList, s.nodup_toList, s.toList_toFinset⟩
  refine ⟨s, plan, results, hs, hplan, hresults, ?_⟩
  rw [hanswer s.reports fun _ _ => rfl, hreports]
  decide

end WptFyi.Cache
