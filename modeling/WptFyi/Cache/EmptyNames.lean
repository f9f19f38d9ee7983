import WptFyi.Cache.Representation

/-!
# Subtests without a name

A subtest with the empty name has the `TestID` of its test, so its status takes the
place of the test's own. What the index then holds is what it would hold of the report
that says so in the first place, `Report.plain`, but for one thing: the name of that row
has an empty subtest name instead of none.

Nothing keeps such names out: a report is whatever the processor was sent. Rather than carry the
odd case through all of the index, this module shows that cutting a report into shards and taking
its plain report first come to the same, up to `TestName.plain` on the names. The rows of a test are
written in the order test, then subtests, in the order of a map; an entry that is written twice has
the later value, so the proof lists what is written (`writtenSubtests`) and drops the test's own row
if a subtest writes there again (`plainHarnessRow`).

- `Report.plain`, `plainData`: reports, and the data of a shard, by plain names;
- `addTestResults_plain`: one test;
- `shardReport_plain`: cutting a report and its plain one comes to the same.
-/

namespace WptFyi.Cache

open Lib Query Shared

/-! ## Plain names

In a plain name a subtest without a name is the test itself. Its ID is the same, so only what reads
the names can tell the two apart. -/

/-- An empty subtest name counts as none. -/
def TestName.plain (n : TestName) : TestName :=
  { n with subName := n.subName.filter (· ≠ "") }

def TestData.plain (td : TestData) : TestData := { td.toTestName.plain with result := td.result }

/-- The status of a test is that of its first subtest without a name, if there is one. -/
def TestResults.plain (res : TestResults) : TestResults where
  test := res.test
  status :=
    match res.subtests.find? fun sub => sub.name = "" with
    | none => res.status
    | some sub => sub.status
  subtests := res.subtests.filter fun sub => sub.name ≠ ""

def plainData (data : ShardData) : ShardData := data.mapValues TestData.plain

def Report.plain (report : Report) : Report := ⟨report.results.map TestResults.plain⟩

theorem Report.valid_plain {report : Report} (h : (report.results.map TestResults.test).Nodup) :
    report.plain.Valid where
  nodup := by
    show ((report.results.map TestResults.plain).map TestResults.test).Nodup
    rw [List.map_map]
    exact h
  subtests res hres sub hsub := by
    obtain ⟨raw, -, rfl⟩ := List.mem_map.mp hres
    exact of_decide_eq_true (List.mem_filter.mp hsub).2

theorem TestResults.status_plain_of_none {res : TestResults}
    (h : (res.subtests.find? fun sub => sub.name = "") = none) : res.plain.status = res.status := by
  rw [TestResults.plain, h]

theorem TestResults.status_plain_of_some {res : TestResults} {first : SubTest}
    (h : (res.subtests.find? fun sub => sub.name = "") = some first) :
    res.plain.status = first.status := by
  rw [TestResults.plain, h]

theorem TestResults.find_plain_some {res : TestResults} {sub : String} (hsub : sub ≠ "") :
    res.plain.find (some sub) = res.find (some sub) := by
  show ((res.subtests.filter fun s : SubTest => s.name ≠ "").find? fun s : SubTest =>
    s.name = sub).map _ = _
  rw [List.find?_filter]
  congr 2
  funext s
  by_cases hs : s.name = sub
  · simp [hs, hsub]
  · simp [hs]

theorem TestResults.find_plain_empty (res : TestResults) : res.plain.find (some "") = none := by
  show ((res.subtests.filter fun s : SubTest => s.name ≠ "").find? fun s : SubTest =>
    s.name = "").map _ = none
  rw [Option.map_eq_none_iff, List.find?_eq_none]
  intro sub hsub
  simpa using (List.mem_filter.mp hsub).2

/-- A named row of the plain test is that of the first subtest of that name. -/
theorem TestResults.find_plain_eq_some_iff {res : TestResults} {sub : String} {re : ResultID} :
    res.plain.find (some sub) = some re ↔
      sub ≠ "" ∧ ∃ first, res.subtests.find? (fun s => s.name = sub) = some first ∧
        TestStatus.testStatusValueFromString first.status = re := by
  by_cases hsub : sub = ""
  · subst hsub
    rw [find_plain_empty]
    exact iff_of_false nofun fun h => h.1 rfl
  · rw [find_plain_some hsub, and_iff_right hsub]
    exact Option.map_eq_some_iff

theorem plain_rowData {test sub : String} (hsub : sub ≠ "") (status : String) :
    (rowData ⟨test, some sub⟩ status).plain = rowData ⟨test, some sub⟩ status := by
  rw [TestData.plain, TestName.plain]
  simp [rowData, hsub]

/-! ## Cutting a report

The data of the shards is the same for a report and for its plain form: a subtest without a name
writes over the row of its test, and of several such subtests it is the first that does. -/

section Cutting

variable {fingerprint64 : String → UInt64} {order : String → RangeOrder String}

/-- What the subtests of a test write, whatever they are called. -/
def writtenSubtests (fingerprint64 : String → UInt64) (test : String) (subs : GoMap String SubTest)
    (keys : List String) : List (TestID × TestData) :=
  keys.filterMap fun key => (subs.lookup key).bind fun sub =>
    (computeTestID fingerprint64 test (some sub.name)).map fun t =>
      (t, rowData ⟨test, some sub.name⟩ sub.status)

/-- Every subtest of a test has a `TestID`. -/
def TestResults.HasIDs (fingerprint64 : String → UInt64) (res : TestResults) : Prop :=
  ∀ sub ∈ res.subtests, computeTestID fingerprint64 res.test (some sub.name) ≠ none

/-- The loop over the subtests of a test writes a row for each, also the one whose name is empty.
-/
theorem addSubtests_written {test : String} {subs : GoMap String SubTest}
    (hids : ∀ key sub, subs.lookup key = some sub →
      computeTestID fingerprint64 test (some sub.name) ≠ none) (keys : List String)
    (data : ShardData) :
    addSubtests fingerprint64 test subs keys data =
      .ok (data.insertAll (writtenSubtests fingerprint64 test subs keys)) := by
  induction keys generalizing data with
  | nil => rfl
  | cons key keys ih =>
    rw [addSubtests]
    unfold writtenSubtests at ih ⊢
    rw [List.filterMap_cons]
    cases hsub : subs.lookup key with
    | none => exact ih data
    | some sub =>
      obtain ⟨t, ht⟩ := Option.ne_none_iff_exists'.mp (hids key sub hsub)
      simp only [ht, Option.bind_some, Option.map_some, GoMap.insertAll_cons]
      exact ih _

theorem TestResults.HasIDs.of_lookup {res : TestResults} (h : res.HasIDs fingerprint64)
    (key : String) (sub : SubTest) (hsub : (dedupSubtests res.subtests).lookup key = some sub) :
    computeTestID fingerprint64 res.test (some sub.name) ≠ none := by
  rw [lookup_dedupSubtests] at hsub
  exact h sub (List.mem_of_find?_eq_some hsub)

/-- What the test itself writes, unless a subtest without a name writes there again. -/
def plainHarnessRow (fingerprint64 : String → UInt64) (res : TestResults) :
    List (TestID × TestData) :=
  if res.subtests.any (fun sub => sub.name = "") then []
  else [(⟨fingerprint64 res.test, 0⟩, rowData ⟨res.test, none⟩ res.status)]

/-- The rows of a test with plain names, each written once. -/
def plainRows (fingerprint64 : String → UInt64) (order : String → RangeOrder String)
    (res : TestResults) : List (TestID × TestData) :=
  plainHarnessRow fingerprint64 res ++
    (writtenSubtests fingerprint64 res.test (dedupSubtests res.subtests)
      (order res.test (dedupSubtests res.subtests).keys).1).map fun kv => (kv.1, kv.2.plain)

theorem computeTestID_empty (fingerprint64 : String → UInt64) (test : String) :
    computeTestID fingerprint64 test (some "") = some ⟨fingerprint64 test, 0⟩ := rfl

/-- What the subtests write, by plain names. -/
theorem mem_writtenSubtests_plain {res : TestResults} {t : TestID} {td : TestData} :
    (t, td) ∈ (writtenSubtests fingerprint64 res.test (dedupSubtests res.subtests)
        (order res.test (dedupSubtests res.subtests).keys).1).map (fun kv => (kv.1, kv.2.plain)) ↔
      ∃ sub first, res.subtests.find? (fun s => s.name = sub) = some first ∧
        computeTestID fingerprint64 res.test (some sub) = some t ∧
        td = (rowData ⟨res.test, some sub⟩ first.status).plain := by
  rw [List.mem_map]
  constructor
  · rintro ⟨⟨t', td'⟩, hmem, heq⟩
    obtain ⟨sub, -, hbind⟩ := List.mem_filterMap.mp hmem
    obtain ⟨first, hfirst, hmap⟩ := Option.bind_eq_some_iff.mp hbind
    obtain ⟨t'', ht, hrow⟩ := Option.map_eq_some_iff.mp hmap
    rw [lookup_dedupSubtests] at hfirst
    have hname : first.name = sub := by simpa using List.find?_some hfirst
    rw [hname] at ht hrow
    cases hrow
    cases heq
    exact ⟨sub, first, hfirst, ht, rfl⟩
  · rintro ⟨sub, first, hfirst, ht, rfl⟩
    have hname : first.name = sub := by simpa using List.find?_some hfirst
    -- of several subtests of a name the first is kept
    have hlookup : (dedupSubtests res.subtests).lookup sub = some first := by
      rw [lookup_dedupSubtests, hfirst]
    refine ⟨(t, rowData ⟨res.test, some sub⟩ first.status),
      List.mem_filterMap.mpr ⟨sub, ?_, ?_⟩, rfl⟩
    · rw [mem_rangeOrder]
      exact Finmap.mem_keys.mpr (Finmap.mem_of_lookup_eq_some hlookup)
    · rw [hlookup, Option.bind_some, hname, ht]
      rfl

/-- **A test is added** by plain names, each row of them written once. -/
theorem addTestResults_plain {res : TestResults} (hids : res.HasIDs fingerprint64)
    (order : String → RangeOrder String) (data : ShardData) :
    ∃ data', addTestResults fingerprint64 order res data = .ok data' ∧
      plainData data' = (plainData data).insertAll (plainRows fingerprint64 order res) := by
  refine ⟨_, addSubtests_written hids.of_lookup _ _, ?_⟩
  rw [plainData, GoMap.mapValues_insertAll, GoMap.mapValues_insert, plainRows, plainHarnessRow]
  split
  · next hany =>
    -- the subtest without a name writes after the test
    obtain ⟨sub, hsub, hname⟩ := List.any_eq_true.mp hany
    obtain ⟨first, hfirst⟩ : ∃ first, res.subtests.find? (fun s => s.name = "") = some first := by
      cases hfind : res.subtests.find? (fun s => s.name = "") with
      | some first => exact ⟨first, rfl⟩
      | none => exact absurd hname (List.find?_eq_none.mp hfind sub hsub)
    rw [List.nil_append]
    show GoMap.insertAll _ (((⟨fingerprint64 res.test, 0⟩ : TestID), _) :: _) = _
    refine GoMap.insertAll_cons_of_mem ?_ _
    rw [List.mem_map]
    exact ⟨(⟨fingerprint64 res.test, 0⟩, _),
      mem_writtenSubtests_plain.mpr ⟨"", first, hfirst, rfl, rfl⟩, rfl⟩
  · rw [List.singleton_append, GoMap.insertAll_cons]
    rfl

/-- The row of the test itself is written unless a subtest without a name has written it. -/
theorem mem_plainHarnessRow_iff {res : TestResults} {t : TestID} {td : TestData} :
    (t, td) ∈ plainHarnessRow fingerprint64 res ↔
      (res.subtests.find? fun sub => sub.name = "") = none ∧
        t = ⟨fingerprint64 res.test, 0⟩ ∧ td = rowData ⟨res.test, none⟩ res.status := by
  rw [plainHarnessRow]
  cases hfirst : res.subtests.find? fun sub => sub.name = "" with
  | none =>
    have hany : ¬ res.subtests.any (fun sub => sub.name = "") = true := by
      rw [List.any_eq_true]
      rintro ⟨sub, hsub, hname⟩
      exact List.find?_eq_none.mp hfirst sub hsub hname
    rw [if_neg hany, List.mem_singleton, Prod.mk.injEq]
    exact (and_iff_right rfl).symm
  | some first =>
    have hany : res.subtests.any (fun sub => sub.name = "") = true :=
      List.any_eq_true.mpr ⟨first, List.mem_of_find?_eq_some hfirst,
        by simpa using List.find?_some hfirst⟩
    rw [if_pos hany]
    simp

/-- They are the rows of the plain test. -/
theorem mem_plainRows_iff {res : TestResults} (hids : res.HasIDs fingerprint64) {t : TestID}
    {td : TestData} :
    (t, td) ∈ plainRows fingerprint64 order res ↔
      (t, td) ∈ testRows fingerprint64 order res.plain := by
  rw [mem_testRows_iff, plainRows, List.mem_append, mem_plainHarnessRow_iff,
    mem_writtenSubtests_plain]
  constructor
  · rintro (⟨hnone, rfl, rfl⟩ | ⟨sub, first, hfirst, ht, rfl⟩)
    · refine ⟨rfl, ?_, rfl⟩
      show some (TestStatus.testStatusValueFromString res.plain.status) = _
      rw [TestResults.status_plain_of_none hnone]
      rfl
    · by_cases hsub : sub = ""
      · subst hsub
        cases ht
        refine ⟨rfl, ?_, rfl⟩
        show some (TestStatus.testStatusValueFromString res.plain.status) = _
        rw [TestResults.status_plain_of_some hfirst]
        rfl
      · rw [plain_rowData hsub, idOf_of_computeTestID fingerprint64 hsub ht]
        exact ⟨rfl, TestResults.find_plain_eq_some_iff.mpr ⟨hsub, first, hfirst, rfl⟩, rfl⟩
  · rintro ⟨hname, hfind, rfl⟩
    obtain ⟨⟨name, subName⟩, result⟩ := td
    obtain rfl : name = res.test := hname
    -- the row of the test itself, which a subtest without a name may have written
    cases subName with
    | none =>
      obtain rfl := Option.some.inj hfind
      cases hfirst : res.subtests.find? (fun s => s.name = "") with
      | none =>
        left
        rw [TestResults.status_plain_of_none hfirst]
        exact ⟨rfl, rfl, rfl⟩
      | some first =>
        right
        refine ⟨"", first, hfirst, rfl, ?_⟩
        rw [TestResults.status_plain_of_some hfirst]
        rfl
    | some sub =>
      right
      obtain ⟨hsub, first, hfirst, hresult⟩ := TestResults.find_plain_eq_some_iff.mp hfind
      have hfirstName : first.name = sub := by simpa using List.find?_some hfirst
      have hid := hids first (List.mem_of_find?_eq_some hfirst)
      rw [hfirstName] at hid
      obtain ⟨t, ht⟩ := Option.ne_none_iff_exists'.mp hid
      refine ⟨sub, first, hfirst, ?_, ?_⟩
      · rw [ht, idOf_of_computeTestID fingerprint64 hsub ht]
      · rw [plain_rowData hsub, rowData, hresult]

/-- The loop over a report, by plain names. -/
theorem shardReport_written {results : List TestResults}
    (hids : ∀ res ∈ results, res.HasIDs fingerprint64) (order : String → RangeOrder String)
    (shardData : List ShardData) :
    ∃ data, shardReport fingerprint64 order results shardData = .ok data ∧
      ∀ j < shardData.length, plainData (data.getD j ∅) =
        (plainData (shardData.getD j ∅)).insertAll
          ((results.flatMap (plainRows fingerprint64 order)).filter fun kv =>
            shardIdx shardData.length kv.1 = j) := by
  induction results generalizing shardData with
  | nil => exact ⟨shardData, rfl, fun j _ => rfl⟩
  | cons res results ih =>
    obtain ⟨hres, hrest⟩ := List.forall_mem_cons.mp hids
    set idx := shardIdx shardData.length ⟨fingerprint64 res.test, 0⟩ with hidx
    obtain ⟨data₁, hdata₁, hplain⟩ := addTestResults_plain hres order (shardData.getD idx ∅)
    obtain ⟨data, hdata, hshards⟩ := ih hrest (shardData.set idx data₁)
    rw [List.length_set] at hshards
    refine ⟨data, ?_, fun j hj => ?_⟩
    · rw [shardReport, ← hidx]
      simp only [hdata₁]
      exact hdata
    · rw [hshards j hj, List.flatMap_cons, List.filter_append, GoMap.insertAll_append]
      congr 1
      have hrows : ∀ kv ∈ plainRows fingerprint64 order res,
          shardIdx shardData.length kv.1 = idx := by
        intro kv hkv
        exact @shardIdx_of_mem_testRows _ order _ res.plain kv ((mem_plainRows_iff hres).mp hkv)
      -- the rows of `res` are all in this shard, or all in another
      by_cases hj' : idx = j
      · rw [List.filter_eq_self.mpr fun kv hkv => by rw [decide_eq_true_iff, hrows kv hkv, hj']]
        rw [← hj', ← hplain, List.getD_eq_getElem?_getD, List.getElem?_set_self (hj' ▸ hj),
          Option.getD_some]
      · rw [List.filter_eq_nil_iff.mpr fun kv hkv => by
          rw [decide_eq_true_iff, hrows kv hkv]
          exact hj']
        rw [List.getD_eq_getElem?_getD, List.getElem?_set_ne hj', ← List.getD_eq_getElem?_getD]
        rfl

end Cutting

section Plain

variable {fingerprint64 : String → UInt64} {names : Set TestName}

/-- Shards hold a report in one way. -/
theorem HoldsReport.unique {numShards j : Nat} {report : Report} {data data' : ShardData}
    (h : HoldsReport fingerprint64 numShards report j data)
    (h' : HoldsReport fingerprint64 numShards report j data') : data = data' :=
  Finmap.ext_lookup fun t => Option.ext fun td => (h t td).trans (h' t td).symm

/-- A fingerprint that separates the plain names gives every subtest a `TestID`. -/
theorem hasIDs_of_separates {report : Report} (hvalid : report.plain.Valid)
    (hnames : report.plain.Within names) (hsep : Separates fingerprint64 names)
    {res : TestResults} (hres : res ∈ report.results) : res.HasIDs fingerprint64 := by
  intro sub hsub
  by_cases hname : sub.name = ""
  · rw [hname, computeTestID_empty]
    exact Option.some_ne_none _
  · have hplain : res.plain ∈ report.plain.results := List.mem_map_of_mem hres
    obtain ⟨re, hre⟩ : ∃ re, res.find (some sub.name) = some re := by
      refine Option.isSome_iff_exists.mp ?_
      show ((res.subtests.find? fun s => s.name = sub.name).map _).isSome = true
      rw [Option.isSome_map, List.find?_isSome]
      exact ⟨sub, hsub, decide_eq_true rfl⟩
    have hfind : report.plain.find ⟨res.test, some sub.name⟩ = some re := by
      rw [Report.find_eq_some_iff hvalid]
      exact ⟨res.plain, hplain, rfl, (TestResults.find_plain_some hname).trans hre⟩
    have hnonzero := hsep.nonzero _ (hnames _ _ hfind) sub.name rfl
    rw [computeTestID]
    simp only [hname, hnonzero, if_false]
    exact Option.some_ne_none _

theorem TestResults.HasIDs.plain {res : TestResults} (h : res.HasIDs fingerprint64) :
    res.plain.HasIDs fingerprint64 :=
  fun sub hsub => h sub (List.mem_filter.mp hsub).1

/-- **Cutting a report** gives what cutting the plain one gives, by plain names. -/
theorem shardReport_plain {report : Report} (hvalid : report.plain.Valid)
    (hnames : report.plain.Within names) (hsep : Separates fingerprint64 names)
    (order : String → RangeOrder String) (numShards : Nat) :
    ∃ data, shardReport fingerprint64 order report.results (List.replicate numShards ∅) = .ok data ∧
      shardReport fingerprint64 order report.plain.results (List.replicate numShards ∅) =
        .ok (data.map plainData) := by
  have hids : ∀ res ∈ report.results, res.HasIDs fingerprint64 := fun res hres =>
    hasIDs_of_separates hvalid hnames hsep hres
  have hplainIDs : ∀ res ∈ report.plain.results, res.HasIDs fingerprint64 := by
    intro res hres
    obtain ⟨raw, hraw, rfl⟩ := List.mem_map.mp hres
    exact (hids raw hraw).plain
  obtain ⟨data, hdata, hshards⟩ := shardReport_written hids order (List.replicate numShards ∅)
  obtain ⟨data', hdata', -⟩ := shardReport_written hplainIDs order (List.replicate numShards ∅)
  refine ⟨data, hdata, ?_⟩
  rw [hdata']
  congr 1
  have hlen := length_shardReport hdata
  have hlen' := length_shardReport hdata'
  rw [List.length_replicate] at hlen hlen' hshards
  refine List.ext_getElem (by rw [hlen', List.length_map, hlen]) fun j hj' hj => ?_
  rw [hlen'] at hj'
  have hempty : plainData ((List.replicate numShards (∅ : ShardData)).getD j ∅) = ∅ := by
    rw [List.getD_eq_getElem?_getD, List.getElem?_replicate, if_pos hj', Option.getD_some]
    refine Finmap.ext_lookup fun t => ?_
    rw [plainData, GoMap.lookup_mapValues, Finmap.lookup_empty]
    rfl
  -- both hold the plain report, and there is one way to
  have hholds : HoldsReport fingerprint64 numShards report.plain j (plainData (data.getD j ∅)) := by
    rw [hshards j hj', hempty]
    refine holdsReport_insertAll hnames hsep fun t td => ?_
    rw [List.mem_filter, decide_eq_true_iff, ← and_assoc, ← mem_flatMap_testRows hvalid,
      List.mem_flatMap, List.mem_flatMap]
    refine and_congr_left fun _ => ⟨?_, ?_⟩
    · rintro ⟨res, hres, hrow⟩
      exact ⟨res.plain, List.mem_map_of_mem hres, (mem_plainRows_iff (hids res hres)).mp hrow⟩
    · rintro ⟨_, hres, hrow⟩
      obtain ⟨raw, hraw, rfl⟩ := List.mem_map.mp hres
      exact ⟨raw, hraw, (mem_plainRows_iff (hids raw hraw)).mpr hrow⟩
  have heq := (lookup_shardReport hvalid hnames hsep hdata' hj').unique hholds
  rw [List.getElem_map]
  rwa [List.getD_eq_getElem _ _ (hlen'.symm ▸ hj'), List.getD_eq_getElem _ _ (hlen.symm ▸ hj')]
    at heq

end Plain

end WptFyi.Cache
