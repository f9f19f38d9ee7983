import WptFyi.Cache.ShardedIndex

/-!
# What a report says, and what the shards get of it

A report is a list of tests, each with a list of subtests, in which a subtest name may come more
than once. The index cuts it into the data of the shards by writing a map entry for each row, the
test first and then the subtests in the order of a map that already has only the first of each
name. Nothing of the report is left afterwards but identifiers, so what the data says of a row is
only as good as the fingerprint: two names with one fingerprint share an entry, and the later one
wins. `Separates` excludes that for the names of a set of rows, and with it reading and writing
agree.

- `Report.find`: the status a report has for a row, read off the report itself;
- `idOf`: the `TestID` of a row's names; `Separates` says that the fingerprint
  tells the names of a set of rows apart;
- `testRows`: the entries that a test writes, in the order in which it does;
- `lookup_shardReport`: cutting a report into shards puts each row, with its
  status, under its `TestID` into its shard, and nothing else anywhere.

Reports here are valid: test names are distinct and no subtest name is empty. What happens without
the second is in `EmptyNames`.
-/

namespace WptFyi.Cache

open Lib Shared

/-! ## Reading a report -/

/-- The status of a test or of one of its subtests; of duplicate subtests the
first counts. -/
def TestResults.find (res : TestResults) : Option String → Option ResultID
  | none => some (TestStatus.testStatusValueFromString res.status)
  | some subtest =>
    (res.subtests.find? fun sub => sub.name = subtest).map fun sub =>
      TestStatus.testStatusValueFromString sub.status

/-- The status of a row. -/
def Report.find (r : Report) (n : TestName) : Option ResultID :=
  (r.results.find? fun res => res.test = n.name).bind fun res => res.find n.subName

/-- Test names are distinct, and no subtest name is empty. -/
structure Report.Valid (r : Report) : Prop where
  nodup : (r.results.map TestResults.test).Nodup
  subtests : ∀ res ∈ r.results, ∀ sub ∈ res.subtests, sub.name ≠ ""

/-- Among elements with distinct keys, the one with a key is found by it. -/
theorem find?_of_nodup_map {α β : Type} [DecidableEq β] {key : α → β} {as : List α}
    (h : (as.map key).Nodup) {a : α} (ha : a ∈ as) :
      (as.find? fun b => key b = key a) = some a := by
  induction as with
  | nil => cases ha
  | cons head as ih =>
    rw [List.map_cons, List.nodup_cons] at h
    rcases List.mem_cons.mp ha with rfl | ha
    · rw [List.find?_cons_of_pos (by simp)]
    · have hne : key head ≠ key a := fun heq => h.1 (heq ▸ List.mem_map_of_mem ha)
      rw [List.find?_cons_of_neg (by simpa using hne), ih h.2 ha]

/-- A row of a report is a row of one of its tests. -/
theorem Report.find_eq_some_iff {r : Report} (h : r.Valid) {n : TestName} {re : ResultID} :
    r.find n = some re ↔ ∃ res ∈ r.results, res.test = n.name ∧ res.find n.subName = some re := by
  rw [Report.find, Option.bind_eq_some_iff]
  constructor
  · rintro ⟨res, hfind, hre⟩
    exact ⟨res, List.mem_of_find?_eq_some hfind, by simpa using List.find?_some hfind, hre⟩
  · rintro ⟨res, hres, hname, hre⟩
    refine ⟨res, ?_, hre⟩
    rw [← hname]
    exact find?_of_nodup_map h.nodup hres

/-! ## Identifiers

A fingerprint that keeps the names of a set apart gives each its own ID. This is asked of the names
that reports have, not of all texts. -/

section Identifiers

variable (fingerprint64 : String → UInt64)

/-- The `TestID` of a row. -/
def idOf (n : TestName) : TestID where
  testID := fingerprint64 n.name
  subID :=
    match n.subName with
    | none => 0
    | some sub => fingerprint64 sub

theorem idOf_of_computeTestID {name sub : String} (hsub : sub ≠ "") {t : TestID}
    (h : computeTestID fingerprint64 name (some sub) = some t) :
    t = idOf fingerprint64 ⟨name, some sub⟩ := by
  unfold computeTestID at h
  simp only at h
  rw [if_neg hsub] at h
  split_ifs at h
  cases h
  rfl

/-- The fingerprint is injective on the test names and on the subtest names of a
set of rows, and not 0 on the latter. -/
structure Separates (names : Set TestName) : Prop where
  tests : ∀ n ∈ names, ∀ n' ∈ names, fingerprint64 n.name = fingerprint64 n'.name → n.name = n'.name
  subtests : ∀ n ∈ names, ∀ n' ∈ names, ∀ sub sub', n.subName = some sub → n'.subName = some sub' →
    fingerprint64 sub = fingerprint64 sub' → sub = sub'
  nonzero : ∀ n ∈ names, ∀ sub, n.subName = some sub → fingerprint64 sub ≠ 0

variable {fingerprint64}

/-- Rows are told apart by their identifiers. -/
theorem Separates.idOf_injOn {names : Set TestName} (h : Separates fingerprint64 names) :
    Set.InjOn (idOf fingerprint64) names := by
  intro n hn n' hn' heq
  have htest := h.tests n hn n' hn' (congrArg TestID.testID heq)
  have hsub : n.subName = n'.subName := by
    have hids := congrArg TestID.subID heq
    unfold idOf at hids
    cases hs : n.subName with
    | none =>
      cases hs' : n'.subName with
      | none => rfl
      | some sub' =>
        simp only [hs, hs'] at hids
        exact absurd hids.symm (h.nonzero n' hn' sub' hs')
    | some sub =>
      cases hs' : n'.subName with
      | none =>
        simp only [hs, hs'] at hids
        exact absurd hids (h.nonzero n hn sub hs)
      | some sub' =>
        simp only [hs, hs'] at hids
        rw [h.subtests n hn n' hn' sub sub' hs hs' hids]
  cases n
  cases n'
  simp only at htest hsub
  rw [htest, hsub]

end Identifiers

/-! ## Cutting a report

What is written for a report is one row for each of its names, put on the shard of the test: the
data of all shards together are the rows of the report, each once. -/

section Cutting

variable (fingerprint64 : String → UInt64) (order : String → RangeOrder String)

/-- The data of a row. -/
def rowData (n : TestName) (status : String) : TestData :=
  { n with result := TestStatus.testStatusValueFromString status }

/-- What the subtests of a test write, in the order of the keys. -/
def subtestRows (test : String) (subs : GoMap String SubTest) (keys : List String) :
    List (TestID × TestData) :=
  keys.filterMap fun key => (subs.lookup key).map fun sub =>
    (idOf fingerprint64 ⟨test, some sub.name⟩, rowData ⟨test, some sub.name⟩ sub.status)

/-- What a test writes into its shard. -/
def testRows (res : TestResults) : List (TestID × TestData) :=
  (idOf fingerprint64 ⟨res.test, none⟩, rowData ⟨res.test, none⟩ res.status) ::
    subtestRows fingerprint64 res.test (dedupSubtests res.subtests)
      (order res.test (dedupSubtests res.subtests).keys).1

/-- The first subtest of a name is the one that counts. -/
theorem lookup_foldl_dedup (subtests : List SubTest) (subs : GoMap String SubTest) (key : String) :
    (subtests.foldl (fun subs sub =>
      if sub.name ∈ subs then subs else subs.insert sub.name sub) subs).lookup key =
      (subs.lookup key).or (subtests.find? fun sub => sub.name = key) := by
  induction subtests generalizing subs with
  | nil => simp
  | cons sub subtests ih =>
    rw [List.foldl_cons, ih]
    by_cases hmem : sub.name ∈ subs
    · rw [if_pos hmem]
      by_cases hname : sub.name = key
      · obtain ⟨first, hfirst⟩ := Finmap.mem_iff.mp (hname ▸ hmem)
        rw [hfirst]
        rfl
      · rw [List.find?_cons_of_neg (by simpa using hname)]
    · rw [if_neg hmem, GoMap.lookup_insert_eq_ite]
      by_cases hname : sub.name = key
      · subst hname
        rw [if_pos rfl, Finmap.lookup_eq_none.mpr hmem, List.find?_cons_of_pos (by simp)]
        rfl
      · rw [if_neg (Ne.symm hname), List.find?_cons_of_neg (by simpa using hname)]

/-- Of duplicate subtests the first stays. -/
theorem lookup_dedupSubtests (subtests : List SubTest) (key : String) :
    (dedupSubtests subtests).lookup key = subtests.find? fun sub => sub.name = key := by
  rw [dedupSubtests, lookup_foldl_dedup, Finmap.lookup_empty, Option.none_or]

variable {fingerprint64 order}

/-- The rows of the subtests of a test are written one after the other, in whatever order. -/
theorem addSubtests_eq {test : String} {subs : GoMap String SubTest}
    (hsubs : ∀ key sub, subs.lookup key = some sub → sub.name ≠ "") {keys : List String}
    {data data' : ShardData} (h : addSubtests fingerprint64 test subs keys data = .ok data') :
    data' = data.insertAll (subtestRows fingerprint64 test subs keys) := by
  induction keys generalizing data with
  | nil =>
    cases h
    rfl
  | cons key keys ih =>
    rw [addSubtests] at h
    unfold subtestRows at ih ⊢
    rw [List.filterMap_cons]
    cases hsub : subs.lookup key with
    | none =>
      rw [hsub] at h
      exact ih h
    | some sub =>
      rw [hsub] at h
      simp only at h
      split at h
      · cases h
      · next t ht =>
        rw [ih h, idOf_of_computeTestID fingerprint64 (hsubs key sub hsub) ht]
        rfl

theorem addTestResults_eq {res : TestResults} (hsubs : ∀ sub ∈ res.subtests, sub.name ≠ "")
    {data data' : ShardData} (h : addTestResults fingerprint64 order res data = .ok data') :
    data' = data.insertAll (testRows fingerprint64 order res) := by
  refine addSubtests_eq (fun key sub hsub => hsubs sub ?_) h
  rw [lookup_dedupSubtests] at hsub
  exact List.mem_of_find?_eq_some hsub

/-- A row that a test writes is one that the report of the test has. -/
theorem mem_testRows_iff {res : TestResults} {t : TestID} {td : TestData} :
    (t, td) ∈ testRows fingerprint64 order res ↔ td.name = res.test ∧
      res.find td.subName = some td.result ∧ t = idOf fingerprint64 td.toTestName := by
  rw [testRows, List.mem_cons, subtestRows, List.mem_filterMap]
  constructor
  · rintro (heq | ⟨key, _, hkey⟩)
    · cases heq
      exact ⟨rfl, rfl, rfl⟩
    · obtain ⟨sub, hsub, heq⟩ := Option.map_eq_some_iff.mp hkey
      rw [lookup_dedupSubtests] at hsub
      have hname : sub.name = key := by simpa using List.find?_some hsub
      cases heq
      refine ⟨rfl, ?_, rfl⟩
      simp only [rowData, TestResults.find, hname, hsub, Option.map_some]
  · rintro ⟨hname, hfind, rfl⟩
    obtain ⟨⟨name, subName⟩, result⟩ := td
    simp only at hname hfind ⊢
    subst hname
    cases subName with
    | none =>
      cases hfind
      exact Or.inl rfl
    | some subtest =>
      obtain ⟨sub, hsub, hresult⟩ := Option.map_eq_some_iff.mp hfind
      have hkey : (dedupSubtests res.subtests).lookup subtest = some sub := by
        rw [lookup_dedupSubtests]
        exact hsub
      have hsubname : sub.name = subtest := by simpa using List.find?_some hsub
      refine Or.inr ⟨subtest, ?_, ?_⟩
      · rw [mem_rangeOrder]
        exact Finmap.mem_keys.mpr (Finmap.mem_of_lookup_eq_some hkey)
      · rw [hkey, Option.map_some, hsubname, rowData, hresult]

/-- All rows of a test go to one shard. -/
theorem shardIdx_of_mem_testRows {numShards : Nat} {res : TestResults} {kv : TestID × TestData}
    (h : kv ∈ testRows fingerprint64 order res) :
    shardIdx numShards kv.1 = shardIdx numShards ⟨fingerprint64 res.test, 0⟩ := by
  obtain ⟨hname, _, hid⟩ := mem_testRows_iff.mp h
  rw [hid, shardIdx, shardIdx, idOf, hname]

/-- What a shard is given of a report: the rows whose identifiers belong to it. -/
theorem shardReport_eq {results : List TestResults}
    (hsubs : ∀ res ∈ results, ∀ sub ∈ res.subtests, sub.name ≠ "") {shardData data : List ShardData}
    (h : shardReport fingerprint64 order results shardData = .ok data) {j : Nat}
    (hj : j < shardData.length) :
    data.getD j ∅ = (shardData.getD j ∅).insertAll
      ((results.flatMap (testRows fingerprint64 order)).filter fun kv =>
        shardIdx shardData.length kv.1 = j) := by
  induction results generalizing shardData with
  | nil =>
    cases h
    rfl
  | cons res results ih =>
    obtain ⟨hres, hrest⟩ := List.forall_mem_cons.mp hsubs
    rw [shardReport] at h
    split at h
    · cases h
    · next data₁ hdata₁ =>
      have hset := ih hrest h (by rwa [List.length_set])
      rw [List.length_set] at hset
      rw [hset, List.flatMap_cons, List.filter_append, GoMap.insertAll_append]
      congr 1
      -- the rows of `res` are all in this shard, or all in another
      by_cases hidx : shardIdx shardData.length ⟨fingerprint64 res.test, 0⟩ = j
      · rw [List.filter_eq_self.mpr fun kv hkv => by
          rw [decide_eq_true_iff, shardIdx_of_mem_testRows hkv, hidx]]
        have hdata := addTestResults_eq hres hdata₁
        rw [hidx] at hdata ⊢
        rw [← hdata, List.getD_eq_getElem?_getD, List.getElem?_set_self hj, Option.getD_some]
      · rw [List.filter_eq_nil_iff.mpr fun kv hkv => by
          rw [decide_eq_true_iff, shardIdx_of_mem_testRows hkv]
          exact hidx]
        rw [List.getD_eq_getElem?_getD, List.getElem?_set_ne hidx, ← List.getD_eq_getElem?_getD]
        rfl

/-- The data of a shard is what a report says of its rows. -/
def HoldsReport (fingerprint64 : String → UInt64) (numShards : Nat) (report : Report) (j : Nat)
    (data : ShardData) : Prop :=
  ∀ t td, data.lookup t = some td ↔ report.find td.toTestName = some td.result ∧
    t = idOf fingerprint64 td.toTestName ∧ shardIdx numShards t = j

/-- Writing the rows of a report that go to a shard. -/
theorem holdsReport_insertAll {report : Report} {names : Set TestName}
    (hnames : ∀ n re, report.find n = some re → n ∈ names) (hsep : Separates fingerprint64 names)
    {numShards j : Nat} {kvs : List (TestID × TestData)}
    (hmem : ∀ t td, (t, td) ∈ kvs ↔ report.find td.toTestName = some td.result ∧
      t = idOf fingerprint64 td.toTestName ∧ shardIdx numShards t = j) :
    HoldsReport fingerprint64 numShards report j (GoMap.insertAll ∅ kvs) := by
  intro t td
  rw [GoMap.lookup_insertAll_eq_some_iff]
  · simp only [hmem, Finmap.lookup_empty, reduceCtorEq, and_false, or_false]
  · -- no identifier is written with two values
    intro kv hkv kv' hkv' hid
    obtain ⟨hfind, hkvid, -⟩ := (hmem kv.1 kv.2).mp hkv
    obtain ⟨hfind', hkvid', -⟩ := (hmem kv'.1 kv'.2).mp hkv'
    have hnameEq := hsep.idOf_injOn (hnames _ _ hfind) (hnames _ _ hfind')
      (hkvid.symm.trans (hid.trans hkvid'))
    rw [hnameEq, hfind'] at hfind
    obtain ⟨_, n, re⟩ := kv
    obtain ⟨_, n', re'⟩ := kv'
    cases hnameEq
    cases hfind
    rfl

/-- The rows that the tests of a report write are those it has. -/
theorem mem_flatMap_testRows {report : Report} (hvalid : report.Valid) {t : TestID}
    {td : TestData} : (t, td) ∈ report.results.flatMap (testRows fingerprint64 order) ↔
      report.find td.toTestName = some td.result ∧ t = idOf fingerprint64 td.toTestName := by
  rw [List.mem_flatMap, Report.find_eq_some_iff hvalid]
  constructor
  · rintro ⟨res, hres, hrow⟩
    obtain ⟨hname, hfind, hid⟩ := mem_testRows_iff.mp hrow
    exact ⟨⟨res, hres, hname.symm, hfind⟩, hid⟩
  · rintro ⟨⟨res, hres, hname, hfind⟩, hid⟩
    exact ⟨res, hres, mem_testRows_iff.mpr ⟨hname.symm, hfind, hid⟩⟩

/-- **Cutting a report** into the data of the shards. -/
theorem lookup_shardReport {report : Report} (hvalid : report.Valid) {names : Set TestName}
    (hnames : ∀ n re, report.find n = some re → n ∈ names) (hsep : Separates fingerprint64 names)
    {numShards : Nat} {data : List ShardData}
    (h : shardReport fingerprint64 order report.results (List.replicate numShards ∅) = .ok data)
    {j : Nat} (hj : j < numShards) :
    HoldsReport fingerprint64 numShards report j (data.getD j ∅) := by
  have heq := shardReport_eq hvalid.subtests h (by rwa [List.length_replicate])
  rw [List.length_replicate] at heq
  have hempty : (List.replicate numShards (∅ : ShardData)).getD j ∅ = ∅ := by
    rw [List.getD_eq_getElem?_getD, List.getElem?_replicate, if_pos hj, Option.getD_some]
  rw [heq, hempty]
  refine holdsReport_insertAll hnames hsep fun t td => ?_
  rw [List.mem_filter, mem_flatMap_testRows hvalid, decide_eq_true_iff, and_assoc]

end Cutting

end WptFyi.Cache
