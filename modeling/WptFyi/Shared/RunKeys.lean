import WptFyi.Lib.NewestFirst
import WptFyi.Lib.RangeOrder
import WptFyi.Shared.RunPages

/-!
# Loading the keys of runs (`shared/test_run_query.go`)

`LoadTestRunKeys` answers for each product with one query, or, where a revision or a version
is asked for, looks up the IDs of the runs that may match and filters these itself.

The lookups are for what the datastore cannot do in one query: a range over revisions or versions
is an inequality on one property, and the order by time needs another. Each lookup yields a set of
IDs, the sets are intersected, and the runs with these IDs are loaded and filtered by the rest. A
lookup has the limit of a page of its own and inherits the offset of the request. `Finds` is what
is known of its result: only runs in the range, and all of them when there is no offset.

Runs that began at the same time, or have the same version, may be listed in any order, so what
should be returned is a property of a list of keys, `IsReference`, and not a list. The condition
under which it is returned, `LookupsUnseen`, is about the runs that are stored and the request.

- `RunQuery`, `RunDatastore`: the queries, and what a store answers;
- `loadIDsForRevision`, `loadIDsForBrowserVersion`, `clientSideFilter`, `loadTestRunKeys`;
- `Finds`: the IDs found by a lookup are those of certain runs, all of them if there is no
  offset;
- `IsReference`: the newest of the runs that are asked for;
- `loadTestRunKeys_reference`: where the keys are that. The offset counts in each lookup, a
  run at the lower time bound is left out, and a lookup knows only part of the versions.
-/

namespace WptFyi.Shared

open Lib Lib.GoStrings Lib.NewestFirst

/-! ## Queries

What a query to the Datastore asks for, and what it answers: the runs that match, in the order that
is asked for, cut at offset and limit. -/

/-- The filters of a query, without those on labels. -/
inductive RunFilter where
  | browserName (name : String)
  | timeStartFrom (t : Int)
  | timeStartBefore (t : Int)
  | fullRevisionHashFrom (sha : String)
  | fullRevisionHashBefore (sha : String)
  | fullRevisionHash (sha : Option String)
  | browserVersionFrom (version : String)
  | browserVersionUpTo (version : String)
  | browserVersion (version : String)
deriving DecidableEq

/-- What a filter says of a run. Strings are compared byte by byte, so by their characters. -/
def RunFilter.holds (run : TestRun) : RunFilter → Bool
  | browserName name => decide (run.browserName = name)
  | timeStartFrom t => decide (t ≤ run.timeStart)
  | timeStartBefore t => decide (run.timeStart < t)
  | fullRevisionHashFrom sha => decide (sha ≤ run.fullRevisionHash)
  | fullRevisionHashBefore sha => decide (run.fullRevisionHash < sha)
  | fullRevisionHash sha => decide (sha = some run.fullRevisionHash)
  | browserVersionFrom version => decide (version ≤ run.browserVersion)
  | browserVersionUpTo version => decide (run.browserVersion ≤ version)
  | browserVersion version => decide (run.browserVersion = version)

/-- The orders of a query: `-TimeStart`, `FullRevisionHash` and `-BrowserVersion`. -/
inductive RunOrder where
  | timeStart
  | fullRevisionHash
  | browserVersion
deriving DecidableEq

/-- A run may be listed before another. -/
def RunOrder.Before : RunOrder → TestRun → TestRun → Prop
  | timeStart, a, b => b.timeStart ≤ a.timeStart
  | fullRevisionHash, a, b => a.fullRevisionHash ≤ b.fullRevisionHash
  | browserVersion, a, b => b.browserVersion ≤ a.browserVersion

/-- A query for test runs: `Labels =` for each label, the other filters, and the rest. -/
structure RunQuery where
  labels : Finset String := ∅
  filters : List RunFilter := []
  order : Option RunOrder := none
  offset : Int := 0
  limit : Option Int := none

namespace RunQuery

/-- The query with more filters. -/
def filter (q : RunQuery) (filters : List RunFilter) : RunQuery :=
  { q with filters := q.filters ++ filters }

/-- The run passes all filters. -/
def selects (q : RunQuery) (run : TestRun) : Bool :=
  decide (q.labels ⊆ run.labelsSet) && q.filters.all (RunFilter.holds run)

/-- From the offset on, as far as the limit. -/
def cut (q : RunQuery) (listing : List TestRun) : List TestRun :=
  let rest := listing.drop q.offset.toNat
  match q.limit with
  | none => rest
  | some limit => rest.take limit.toNat

/-- The keys that a query may be answered with. -/
def Answers (runs : List TestRun) (q : RunQuery) (keys : List Int) : Prop :=
  ∃ listing : List TestRun, listing.Perm (runs.filter q.selects) ∧
    (∀ order ∈ q.order, listing.Pairwise order.Before) ∧
    keys = (q.cut listing).map TestRun.id

end RunQuery

/-- A store of runs: how it answers queries and loads runs by their IDs, unless it fails. -/
structure RunDatastore extends RunStore where
  getAll : RunQuery → Except String (List Int)
  getAll_spec : ∀ q keys, 0 ≤ q.offset → (∀ limit ∈ q.limit, 0 ≤ limit) →
    getAll q = .ok keys → q.Answers runs keys
  getMulti : List Int → Except String (List TestRun)
  getMulti_spec : ∀ keys found, getMulti keys = .ok found →
    List.Forall₂ (fun id run => run ∈ runs ∧ run.id = id) keys found

/-! ## Lookups

Revisions and versions are looked up first, with a query for each that gives IDs. The sets of IDs
are put together, and the runs with these IDs are filtered on this side. -/

/-- `MaxKeysPerLookup`. -/
def maxKeysPerLookup : Nat := 1000

/-- So many bytes of a text, if they do not end within a character. -/
def takeBytes : Nat → List Char → Option (List Char)
  | 0, _ => some []
  | _ + 1, [] => none
  | n + 1, c :: cs =>
    if c.utf8Size ≤ n + 1 then (takeBytes (n + 1 - c.utf8Size) cs).map (c :: ·) else none

/-- `sha[:40]`. -/
def fullHash (sha : String) : Option String := (takeBytes 40 sha.toList).map String.ofList

/-- `merge`: the intersection, where a set that is nil does not count. -/
def mergeIDs : Option (Finset Int) → Option (Finset Int) → Option (Finset Int)
  | none, none => none
  | none, some s => some s
  | some s, none => some s
  | some s, some s' => some (s ∩ s')

section Load

variable (store : RunDatastore)

/-- `loadIDsForRevision`. -/
def loadIDsForRevision (query : RunQuery) (sha : String) : Except String (Finset Int) := do
  let revQuery :=
    if sha.utf8ByteSize < 40 then
      { query.filter [.fullRevisionHashFrom sha, .fullRevisionHashBefore (sha ++ "g")] with
        order := some .fullRevisionHash, limit := some maxCountMaxValue }
    else query.filter [.fullRevisionHash (fullHash sha)]
  let keys ← store.getAll revQuery
  return keys.toFinset

/-- `VersionPrefix`, for the field `BrowserVersion`; a colon comes after the nine. -/
def versionPrefix (query : RunQuery) (version : String) : RunQuery :=
  { query.filter [.browserVersionFrom (version ++ "."), .browserVersionUpTo (version ++ ".:")] with
    order := some .browserVersion, limit := some maxCountMaxValue }

/-- `loadIDsForBrowserVersion`. -/
def loadIDsForBrowserVersion (query : RunQuery) (version : String) :
    Except String (Finset Int) := do
  let keys ← store.getAll (versionPrefix query version)
  let exactKeys ← store.getAll (query.filter [.browserVersion version])
  return keys.toFinset ∪ exactKeys.toFinset

/-- `sort.Sort(sort.Reverse(runs))`, which may list runs of one time in any order. -/
abbrev ReverseSort := (runs : List TestRun) →
  {sorted : List TestRun // sorted.Perm runs ∧ sorted.Pairwise RunOrder.timeStart.Before}

variable (order : RangeOrder Int) (sort : ReverseSort)

/-- What `clientSideFilter` keeps of the runs that it has loaded. -/
def keepsRun (product : ProductSpec) (timeFrom timeTo : Option Int) (run : TestRun) : Bool :=
  product.matchesRun run && timeFrom.all (fun t => decide (t < run.timeStart)) &&
    timeTo.all (fun t => decide (run.timeStart < t))

/-- The first keys, as many as the limit or as any limit may be. -/
def cutKeys (limit : Option Int) (keys : List Int) : List Int :=
  let most := if maxCountMaxValue ≤ keys.length then keys.take maxCountMaxValue.toNat else keys
  match limit with
  | some limit => if limit ≤ keys.length then keys.take limit.toNat else most
  | none => most

/-- `clientSideFilter`. -/
def clientSideFilter (product : ProductSpec) (ids : Finset Int)
    (timeFrom timeTo limit : Option Int) :
    Except String (List Int) := do
  let capacity := if maxKeysPerLookup < ids.card then maxKeysPerLookup else ids.card
  let runs ← store.getMulti ((order ids).1.take capacity)
  return cutKeys limit (((sort runs).1.filter (keepsRun product timeFrom timeTo)).map TestRun.id)

/-- The query that all others begin with. -/
def baseQuery (labels : Option (Finset String)) (offset : Option Int) : RunQuery :=
  { labels := (labels.getD ∅).erase "", offset := offset.getD 0 }

/-- Some revision is asked for that is not the latest. -/
def asksRevisions (revisions : List String) : Bool :=
  decide (1 < revisions.length) ||
    decide (revisions.length = 1) && !isLatest (revisions.getD 0 "")

/-- The IDs of the runs with one of the revisions. -/
def loadGlobalIDs (base : RunQuery) (revisions : List String) :
    Except String (Option (Finset Int)) := do
  if asksRevisions revisions then
    let ids ← revisions.foldlM (fun ids sha => do
      let found ← loadIDsForRevision store base sha
      return ids ∪ found) ∅
    return some ids
  else return none

/-- The query for a product. -/
def productQuery (base : RunQuery) (product : ProductSpec) : RunQuery :=
  { base.filter [.browserName product.browserName] with
    labels := base.labels ∪ product.labels.getD ∅ }

/-- A lookup that narrows down the IDs, if it is asked for. -/
def narrowIDs (ids : Option (Finset Int)) (asks : Bool) (lookup : Except String (Finset Int)) :
    Except String (Option (Finset Int)) := do
  if asks then
    let found ← lookup
    return mergeIDs ids (some found)
  else return ids

/-- The IDs that come into question for a product, if some were looked up. -/
def loadProductIDs (base : RunQuery) (globalIDs : Option (Finset Int)) (product : ProductSpec) :
    Except String (Option (Finset Int)) := do
  let query := productQuery base product
  let ids ← narrowIDs (mergeIDs globalIDs none) (!isLatest product.revision)
    (loadIDsForRevision store query product.revision)
  narrowIDs ids (product.browserVersion != "")
    (loadIDsForBrowserVersion store query product.browserVersion)

/-- The query that finds the keys of a product on its own. -/
def plainQuery (base : RunQuery) (product : ProductSpec) (timeFrom timeTo limit : Option Int) :
    RunQuery :=
  let query := productQuery base product
  let query := match timeFrom with
    | some t => query.filter [.timeStartFrom t]
    | none => query
  let query := match timeTo with
    | some t => query.filter [.timeStartBefore t]
    | none => query
  let max := match limit with
    | some limit => if limit < maxCountMaxValue then limit else maxCountMaxValue
    | none => maxCountMaxValue
  { query with order := some .timeStart, limit := some max }

/-- The keys of one product. -/
def loadProductKeys (base : RunQuery) (globalIDs : Option (Finset Int))
    (timeFrom timeTo limit : Option Int) (product : ProductSpec) :
    Except String ProductTestRunKeys := do
  let ids ← loadProductIDs store base globalIDs product
  let keys ← match ids with
    | some ids => clientSideFilter store order sort product ids timeFrom timeTo limit
    | none => store.getAll (plainQuery base product timeFrom timeTo limit)
  return ⟨product, keys⟩

/-- `LoadTestRunKeys`. -/
def loadTestRunKeys (products : List ProductSpec) (labels : Option (Finset String))
    (revisions : List String) (timeFrom timeTo limit offset : Option Int) :
    Except String KeysByProduct := do
  let base := baseQuery labels offset
  let globalIDs ← loadGlobalIDs store base revisions
  products.mapM (loadProductKeys store order sort base globalIDs timeFrom timeTo limit)

end Load

/-! ## What a query finds

The IDs that a query finds are those of the runs that match. IDs are distinct, so set operations on
them are set operations on runs. -/

section Finds

variable {store : RunDatastore}

/-- The IDs are those of runs with a condition, and of all such runs if there is no offset. -/
structure Finds (store : RunDatastore) (offset : Int) (cond : TestRun → Bool) (ids : Finset Int) :
    Prop where
  sound : ∀ id ∈ ids, ∃ run ∈ store.runs, run.id = id ∧ cond run
  complete : offset = 0 → ∀ run ∈ store.runs, cond run → run.id ∈ ids

theorem eq_of_id_eq {run run' : TestRun} (h : run ∈ store.runs) (h' : run' ∈ store.runs)
    (heq : run.id = run'.id) : run = run' :=
  List.inj_on_of_nodup_map store.nodup h h' heq

theorem Finds.holds {offset : Int} {cond : TestRun → Bool} {ids : Finset Int}
    (h : Finds store offset cond ids) {run : TestRun} (hrun : run ∈ store.runs)
    (hid : run.id ∈ ids) : cond run := by
  obtain ⟨run', hrun', heq, hcond⟩ := h.sound _ hid
  rwa [← eq_of_id_eq hrun' hrun heq]

theorem Finds.congr {offset : Int} {cond cond' : TestRun → Bool} {ids : Finset Int}
    (h : Finds store offset cond ids) (hcond : ∀ run, cond run = cond' run) :
    Finds store offset cond' ids := by
  rwa [← funext hcond]

/-- Two lookups together. -/
theorem Finds.union {offset : Int} {cond cond' : TestRun → Bool} {ids ids' : Finset Int}
    (h : Finds store offset cond ids) (h' : Finds store offset cond' ids') :
    Finds store offset (fun run => cond run || cond' run) (ids ∪ ids') where
  sound id hid := by
    rcases Finset.mem_union.mp hid with hid | hid
    · obtain ⟨run, hrun, heq, hcond⟩ := h.sound id hid
      exact ⟨run, hrun, heq, by rw [hcond, Bool.true_or]⟩
    · obtain ⟨run, hrun, heq, hcond⟩ := h'.sound id hid
      exact ⟨run, hrun, heq, by rw [hcond, Bool.or_true]⟩
  complete hzero run hrun hcond := by
    rcases Bool.or_eq_true_iff.mp hcond with hcond | hcond
    · exact Finset.mem_union_left _ (h.complete hzero run hrun hcond)
    · exact Finset.mem_union_right _ (h'.complete hzero run hrun hcond)

theorem Finds.inter {offset : Int} {cond cond' : TestRun → Bool} {ids ids' : Finset Int}
    (h : Finds store offset cond ids) (h' : Finds store offset cond' ids') :
    Finds store offset (fun run => cond run && cond' run) (ids ∩ ids') where
  sound id hid := by
    obtain ⟨hid, hid'⟩ := Finset.mem_inter.mp hid
    obtain ⟨run, hrun, rfl, hcond⟩ := h.sound id hid
    exact ⟨run, hrun, rfl, by rw [hcond, h'.holds hrun hid', Bool.true_and]⟩
  complete hzero run hrun hcond := by
    obtain ⟨hcond, hcond'⟩ := Bool.and_eq_true_iff.mp hcond
    exact Finset.mem_inter.mpr
      ⟨h.complete hzero run hrun hcond, h'.complete hzero run hrun hcond'⟩

/-- A query that is limited to more runs than there are, or not at all. -/
theorem finds_of_answers {q : RunQuery} {keys : List Int} (h : q.Answers store.runs keys)
    (hlimit : ∀ limit ∈ q.limit, (store.runs.length : Int) ≤ limit) :
    Finds store q.offset q.selects keys.toFinset := by
  obtain ⟨listing, hperm, -, rfl⟩ := h
  constructor
  · intro id hid
    obtain ⟨run, hrun, rfl⟩ := List.mem_map.mp (List.mem_toFinset.mp hid)
    have hmem : run ∈ listing := by
      unfold RunQuery.cut at hrun
      cases hq : q.limit with
      | none => rw [hq] at hrun; exact List.mem_of_mem_drop hrun
      | some limit => rw [hq] at hrun; exact List.mem_of_mem_drop (List.mem_of_mem_take hrun)
    obtain ⟨hstored, hselects⟩ := List.mem_filter.mp (hperm.subset hmem)
    exact ⟨run, hstored, rfl, hselects⟩
  · intro hzero run hrun hselects
    have hmem := hperm.mem_iff.mpr (List.mem_filter.mpr ⟨hrun, hselects⟩)
    -- nothing is dropped, and the limit is past the end
    have hcut : q.cut listing = listing := by
      rw [RunQuery.cut, hzero]
      cases hq : q.limit with
      | none => rfl
      | some limit =>
        refine List.take_of_length_le ?_
        have hlength := hperm.length_eq ▸ List.length_filter_le q.selects store.runs
        have := hlimit limit hq
        show listing.length ≤ limit.toNat
        omega
    rw [hcut]
    exact List.mem_toFinset.mpr (List.mem_map_of_mem hmem)

theorem selects_filter (q : RunQuery) (filters : List RunFilter) (run : TestRun) :
    (q.filter filters).selects run = (q.selects run && filters.all (RunFilter.holds run)) := by
  rw [RunQuery.selects, RunQuery.selects, RunQuery.filter, List.all_append, Bool.and_assoc]

end Finds

/-! ## Lookups find runs -/

/-- What a lookup of a revision finds. -/
def hasLookedUpRevision (run : TestRun) (sha : String) : Bool :=
  if sha.utf8ByteSize < 40 then
    decide (sha ≤ run.fullRevisionHash) && decide (run.fullRevisionHash < sha ++ "g")
  else decide (fullHash sha = some run.fullRevisionHash)

/-- What a lookup of a version finds. -/
def hasLookedUpVersion (run : TestRun) (version : String) : Bool :=
  decide (version ++ "." ≤ run.browserVersion) && decide (run.browserVersion ≤ version ++ ".:") ||
    decide (run.browserVersion = version)

/-- No query fails, and nothing that is stored fails to load. -/
structure RunDatastore.Succeeds (store : RunDatastore) : Prop where
  getAll : ∀ q, ∃ keys, store.getAll q = .ok keys
  getMulti : ∀ keys, (∀ key ∈ keys, ∃ run ∈ store.runs, run.id = key) →
    ∃ found, store.getMulti keys = .ok found

section Lookups

variable {store : RunDatastore} (hok : store.Succeeds) (hfew : store.runs.length < 500)

include hok hfew

/-- A query whose limit is that of a lookup, or has none, finds what it selects. -/
theorem exists_finds (q : RunQuery) (hoffset : 0 ≤ q.offset)
    (hlimit : q.limit = none ∨ q.limit = some maxCountMaxValue) :
    ∃ keys, store.getAll q = .ok keys ∧ Finds store q.offset q.selects keys.toFinset := by
  obtain ⟨keys, hkeys⟩ := hok.getAll q
  have hbound : ∀ limit ∈ q.limit, limit = 500 := by
    intro limit hmem
    rcases hlimit with hnone | hmax
    · rw [hnone] at hmem
      cases hmem
    · rw [hmax] at hmem
      exact (Option.some.inj hmem).symm
  refine ⟨keys, hkeys, finds_of_answers (store.getAll_spec q keys hoffset ?_ hkeys) ?_⟩
  · intro limit hmem
    rw [hbound limit hmem]
    decide
  · intro limit hmem
    rw [hbound limit hmem]
    omega

/-- **The lookup of a revision.** -/
theorem loadIDsForRevision_finds (query : RunQuery) (hoffset : 0 ≤ query.offset)
    (hlimit : query.limit = none) (sha : String) :
    ∃ ids, loadIDsForRevision store query sha = .ok ids ∧
      Finds store query.offset
        (fun run => query.selects run && hasLookedUpRevision run sha) ids := by
  unfold loadIDsForRevision hasLookedUpRevision
  by_cases hshort : sha.utf8ByteSize < 40
  · simp only [if_pos hshort]
    obtain ⟨keys, hkeys, hfinds⟩ := exists_finds hok hfew
      { query.filter [.fullRevisionHashFrom sha, .fullRevisionHashBefore (sha ++ "g")] with
        order := some .fullRevisionHash, limit := some maxCountMaxValue } hoffset (.inr rfl)
    refine ⟨keys.toFinset, by rw [hkeys]; rfl, hfinds.congr fun run => ?_⟩
    refine (selects_filter query _ run).trans ?_
    simp [RunFilter.holds]
  · simp only [if_neg hshort]
    obtain ⟨keys, hkeys, hfinds⟩ := exists_finds hok hfew
      (query.filter [.fullRevisionHash (fullHash sha)]) hoffset (.inl hlimit)
    refine ⟨keys.toFinset, by rw [hkeys]; rfl, hfinds.congr fun run => ?_⟩
    rw [selects_filter]
    simp [RunFilter.holds]

/-- **The lookup of a version**: runs of the version itself and those in the range of its prefix.
-/
theorem loadIDsForBrowserVersion_finds (query : RunQuery) (hoffset : 0 ≤ query.offset)
    (hlimit : query.limit = none) (version : String) :
    ∃ ids, loadIDsForBrowserVersion store query version = .ok ids ∧
      Finds store query.offset
        (fun run => query.selects run && hasLookedUpVersion run version) ids := by
  obtain ⟨keys, hkeys, hfinds⟩ := exists_finds hok hfew (versionPrefix query version) hoffset
    (.inr rfl)
  obtain ⟨exactKeys, hexact, hfindsExact⟩ := exists_finds hok hfew
    (query.filter [.browserVersion version]) hoffset (.inl hlimit)
  refine ⟨keys.toFinset ∪ exactKeys.toFinset, ?_, ?_⟩
  · rw [loadIDsForBrowserVersion, hkeys]
    show (store.getAll _ >>= _) = _
    rw [hexact]
    rfl
  · refine (hfinds.union hfindsExact).congr fun run => ?_
    rw [selects_filter]
    refine (congrArg (· || _) (selects_filter query _ run)).trans ?_
    simp [RunFilter.holds, hasLookedUpVersion, Bool.and_or_distrib_left]

/-- The loop over the revisions. -/
theorem foldlM_loadIDs_finds {base : RunQuery} (hoffset : 0 ≤ base.offset)
    (hlimit : base.limit = none) (revisions : List String) {cond : TestRun → Bool}
    {ids : Finset Int} (hids : Finds store base.offset cond ids) :
    ∃ ids', revisions.foldlM (fun ids sha => do
        let found ← loadIDsForRevision store base sha
        return ids ∪ found) ids = .ok ids' ∧
      Finds store base.offset (fun run => cond run ||
        base.selects run && revisions.any (hasLookedUpRevision run)) ids' := by
  induction revisions generalizing cond ids with
  | nil => exact ⟨ids, rfl, hids.congr fun run => by simp⟩
  | cons sha revisions ih =>
    obtain ⟨found, hfound, hfinds⟩ := loadIDsForRevision_finds hok hfew base hoffset hlimit sha
    obtain ⟨ids', hloop, hids'⟩ := ih (hids.union hfinds)
    refine ⟨ids', ?_, hids'.congr fun run => ?_⟩
    · rw [List.foldlM_cons, hfound]
      exact hloop
    · rw [List.any_cons, Bool.and_or_distrib_left, Bool.or_assoc]

/-- The set, if there is one, is what a lookup has found that was asked for. -/
def Restricts (store : RunDatastore) (offset : Int) (asks : Bool) (cond : TestRun → Bool)
    (ids : Option (Finset Int)) : Prop :=
  match ids with
  | none => asks = false
  | some ids => asks = true ∧ Finds store offset cond ids

omit hok hfew in
/-- The intersection of two sets, either of which may be nil. -/
theorem mergeIDs_restricts {offset : Int} {asks asks' : Bool} {cond cond' : TestRun → Bool}
    {ids ids' : Option (Finset Int)} (h : Restricts store offset asks cond ids)
    (h' : Restricts store offset asks' cond' ids') :
    Restricts store offset (asks || asks')
      (fun run => (!asks || cond run) && (!asks' || cond' run)) (mergeIDs ids ids') := by
  cases ids with
  | none =>
    rw [show asks = false from h]
    cases ids' with
    | none => exact h'
    | some ids' => exact ⟨h'.1, h'.2.congr fun run => by simp [h'.1]⟩
  | some ids =>
    cases ids' with
    | none =>
      rw [show asks' = false from h']
      exact ⟨by rw [h.1]; rfl, h.2.congr fun run => by simp [h.1]⟩
    | some ids' =>
      exact ⟨by rw [h.1]; rfl, (h.2.inter h'.2).congr fun run => by simp [h.1, h'.1]⟩

/-- The lookups of the revisions of the request, together. -/
theorem loadGlobalIDs_restricts {base : RunQuery} (hoffset : 0 ≤ base.offset)
    (hlimit : base.limit = none) (revisions : List String) :
    ∃ ids, loadGlobalIDs store base revisions = .ok ids ∧
      Restricts store base.offset (asksRevisions revisions)
        (fun run => base.selects run && revisions.any (hasLookedUpRevision run)) ids := by
  unfold loadGlobalIDs
  cases hasks : asksRevisions revisions with
  | false => exact ⟨none, rfl, rfl⟩
  | true =>
    have hnone : Finds store base.offset (fun _ => false) ∅ :=
      ⟨fun id hid => absurd hid (Finset.notMem_empty id), fun _ _ _ hfalse => (nomatch hfalse)⟩
    obtain ⟨ids, hloop, hids⟩ := foldlM_loadIDs_finds hok hfew hoffset hlimit revisions hnone
    refine ⟨some ids, ?_, rfl, hids.congr fun run => Bool.false_or _⟩
    rw [if_pos rfl, hloop]
    rfl

omit hok hfew in
/-- One more lookup, if it is asked for. -/
theorem narrowIDs_restricts {offset : Int} {asks : Bool} {cond cond' : TestRun → Bool}
    {ids : Option (Finset Int)} (h : Restricts store offset asks cond ids) (asks' : Bool)
    {lookup : Except String (Finset Int)} {found : Finset Int} (hlookup : lookup = .ok found)
    (hfound : Finds store offset cond' found) :
    ∃ ids', narrowIDs ids asks' lookup = .ok ids' ∧
      Restricts store offset (asks || asks')
        (fun run => (!asks || cond run) && (!asks' || cond' run)) ids' := by
  rw [narrowIDs, hlookup]
  cases asks' with
  | true => exact ⟨_, rfl, mergeIDs_restricts h ⟨rfl, hfound⟩⟩
  | false =>
    have hnone : Restricts store offset false cond' none := rfl
    refine ⟨ids, rfl, ?_⟩
    have hmerged := mergeIDs_restricts h hnone
    cases ids with
    | none => exact hmerged
    | some ids => exact hmerged

/-- The run passes the lookups that are made for a product. -/
def passesLookups (base : RunQuery) (revisions : List String) (product : ProductSpec)
    (run : TestRun) : Bool :=
  (!asksRevisions revisions || base.selects run && revisions.any (hasLookedUpRevision run)) &&
    (!!isLatest product.revision || (productQuery base product).selects run &&
      hasLookedUpRevision run product.revision) &&
    (!(product.browserVersion != "") || (productQuery base product).selects run &&
      hasLookedUpVersion run product.browserVersion)

/-- IDs are looked up for a product. -/
def asksIDs (revisions : List String) (product : ProductSpec) : Bool :=
  asksRevisions revisions || !isLatest product.revision || product.browserVersion != ""

/-- All lookups for a product: the revisions of the request, its own and its version. -/
theorem loadProductIDs_restricts {base : RunQuery} (hoffset : 0 ≤ base.offset)
    (hlimit : base.limit = none) {revisions : List String} {globalIDs : Option (Finset Int)}
    (hglobal : Restricts store base.offset (asksRevisions revisions)
      (fun run => base.selects run && revisions.any (hasLookedUpRevision run)) globalIDs)
    (product : ProductSpec) :
    ∃ ids, loadProductIDs store base globalIDs product = .ok ids ∧
      Restricts store base.offset (asksIDs revisions product)
        (passesLookups base revisions product) ids := by
  -- merging with no IDs copies the global ones
  have hcopy : mergeIDs globalIDs none = globalIDs := by cases globalIDs <;> rfl
  obtain ⟨revIDs, hrevIDs, hfindsRev⟩ := loadIDsForRevision_finds hok hfew
    (productQuery base product) hoffset hlimit product.revision
  obtain ⟨versionIDs, hversionIDs, hfindsVersion⟩ := loadIDsForBrowserVersion_finds hok hfew
    (productQuery base product) hoffset hlimit product.browserVersion
  obtain ⟨ids, hids, hrestricts⟩ := narrowIDs_restricts hglobal
    (!isLatest product.revision) hrevIDs hfindsRev
  obtain ⟨ids', hids', hrestricts'⟩ := narrowIDs_restricts hrestricts
    (product.browserVersion != "") hversionIDs hfindsVersion
  refine ⟨ids', ?_, ?_⟩
  · rw [loadProductIDs, hcopy]
    show (narrowIDs _ _ _ >>= _) = _
    rw [hids]
    exact hids'
  · cases ids' with
    | none => exact hrestricts'
    | some ids' =>
      refine ⟨hrestricts'.1, hrestricts'.2.congr fun run => ?_⟩
      rw [passesLookups]
      cases asksRevisions revisions <;> cases isLatest product.revision <;> simp

end Lookups

/-! ## The filter on this side

The runs with the IDs are loaded, as many as one batch may have, then filtered by product and time,
sorted and cut at the limit. -/

/-- The limit that counts. -/
def limitOf (limit : Option Int) : Nat := (min (limit.getD maxCountMaxValue) maxCountMaxValue).toNat

/-- Of less than 500 keys the limit takes as many as it says. -/
theorem cutKeys_eq {limit : Option Int} (hlimit : ∀ l ∈ limit, 1 ≤ l) {keys : List Int}
    (hfew : keys.length < 500) : cutKeys limit keys = keys.take (limitOf limit) := by
  have hmax : ¬maxCountMaxValue ≤ (keys.length : Int) := by
    show ¬(500 : Int) ≤ keys.length
    omega
  have hkeys : ∀ n : Nat, keys.length ≤ n → keys = keys.take n := fun n hn =>
    (List.take_of_length_le hn).symm
  unfold cutKeys limitOf
  cases limit with
  | none =>
    simp only [if_neg hmax]
    refine hkeys _ ?_
    show keys.length ≤ 500
    omega
  | some l =>
    have hl := hlimit l rfl
    by_cases hle : l ≤ (keys.length : Int)
    · have hmin : min l maxCountMaxValue = l := min_eq_left (by unfold maxCountMaxValue; omega)
      simp only [if_pos hle, Option.getD_some, hmin]
    · simp only [if_neg hle, if_neg hmax]
      refine hkeys _ ?_
      show keys.length ≤ (min l 500).toNat
      omega

section ClientSide

variable {store : RunDatastore} (hok : store.Succeeds) (hfew : store.runs.length < 500)

theorem loaded_of_forall₂ {keys : List Int} {found : List TestRun}
    (h : List.Forall₂ (fun id run => run ∈ store.runs ∧ run.id = id) keys found) :
    found.map TestRun.id = keys ∧ ∀ run ∈ found, run ∈ store.runs := by
  induction h with
  | nil => exact ⟨rfl, fun run hrun => absurd hrun List.not_mem_nil⟩
  | cons hhead _ ih =>
    refine ⟨?_, List.forall_mem_cons.mpr ⟨hhead.1, ih.2⟩⟩
    rw [List.map_cons, hhead.2, ih.1]

/-- What is loaded for a set of IDs. -/
theorem perm_of_getMulti {order : RangeOrder Int} {ids : Finset Int} {found : List TestRun}
    (hfound : store.getMulti (order ids).1 = .ok found) :
    found.Perm (store.runs.filter fun run => decide (run.id ∈ ids)) := by
  obtain ⟨hmap, hstored⟩ := loaded_of_forall₂ (store.getMulti_spec _ _ hfound)
  have hnodup : found.Nodup := List.Nodup.of_map TestRun.id (hmap ▸ (order ids).2.1)
  have hnodup' : store.runs.Nodup := List.Nodup.of_map TestRun.id store.nodup
  refine (List.perm_ext_iff_of_nodup hnodup (hnodup'.filter _)).mpr fun run => ?_
  rw [List.mem_filter, decide_eq_true_iff]
  constructor
  · intro hrun
    have hid := List.mem_map_of_mem (f := TestRun.id) hrun
    rw [hmap, mem_rangeOrder] at hid
    exact ⟨hstored run hrun, hid⟩
  · rintro ⟨hrun, hid⟩
    rw [← mem_rangeOrder order, ← hmap] at hid
    obtain ⟨run', hrun', heq⟩ := List.mem_map.mp hid
    rwa [← eq_of_id_eq (hstored run' hrun') hrun heq]

include hok hfew

/-- **The filter on this side** keeps the runs of the set that match, lists the newest first, and
takes as many as the limit says. -/
theorem clientSideFilter_spec (order : RangeOrder Int) (sort : ReverseSort) {ids : Finset Int}
    (hids : ∀ id ∈ ids, ∃ run ∈ store.runs, run.id = id) (product : ProductSpec)
    (timeFrom timeTo : Option Int) {limit : Option Int} (hlimit : ∀ l ∈ limit, 1 ≤ l) :
    ∃ listing : List TestRun,
      clientSideFilter store order sort product ids timeFrom timeTo limit =
        .ok ((listing.take (limitOf limit)).map TestRun.id) ∧
      listing.Perm (store.runs.filter fun run =>
        decide (run.id ∈ ids) && keepsRun product timeFrom timeTo run) ∧
      listing.Pairwise RunOrder.timeStart.Before := by
  have hcard : ids.card ≤ store.runs.length := by
    rw [← List.length_map TestRun.id, ← List.toFinset_card_of_nodup store.nodup]
    refine Finset.card_le_card fun id hid => ?_
    obtain ⟨run, hrun, rfl⟩ := hids id hid
    exact List.mem_toFinset.mpr (List.mem_map_of_mem hrun)
  have hlength : (order ids).1.length = ids.card := by
    rw [← List.toFinset_card_of_nodup (order ids).2.1, (order ids).2.2]
  -- there are not so many IDs that some would not be loaded
  have htake : (order ids).1.take
      (if maxKeysPerLookup < ids.card then maxKeysPerLookup else ids.card) = (order ids).1 := by
    rw [if_neg (by unfold maxKeysPerLookup; omega), ← hlength, List.take_length]
  obtain ⟨found, hfound⟩ := hok.getMulti (order ids).1 fun id hid =>
    hids id ((mem_rangeOrder order ids id).mp hid)
  have hperm := perm_of_getMulti hfound
  refine ⟨(sort found).1.filter (keepsRun product timeFrom timeTo), ?_, ?_, ?_⟩
  · have hshort : (((sort found).1.filter (keepsRun product timeFrom timeTo)).map
        TestRun.id).length < 500 := by
      have hle := List.length_filter_le (keepsRun product timeFrom timeTo) (sort found).1
      have hfound' := List.length_filter_le (fun run => decide (run.id ∈ ids)) store.runs
      rw [(sort found).2.1.length_eq, hperm.length_eq] at hle
      rw [List.length_map]
      omega
    simp only [clientSideFilter, htake, hfound]
    rw [List.map_take, ← cutKeys_eq hlimit hshort]
    rfl
  · refine ((sort found).2.1.filter _).trans ?_
    have hfilter := hperm.filter (keepsRun product timeFrom timeTo)
    rwa [List.filter_filter, List.filter_congr fun run _ => Bool.and_comm _ _] at hfilter
  · exact (sort found).2.2.filter _

end ClientSide

/-! ## Ranges and prefixes -/

/-- A text between a prefix and the prefix with one more character behind it begins with the
prefix. -/
theorem prefix_of_between {c : Char} {l x : List Char} (hfrom : ¬x < l) (hbelow : x < l ++ [c]) :
    l <+: x := by
  induction l generalizing x with
  | nil => exact List.nil_prefix
  | cons a l ih =>
    cases x with
    | nil => exact absurd (List.nil_lt_cons a l) hfrom
    | cons b x =>
      rw [List.cons_append, List.cons_lt_cons_iff] at hbelow
      rw [List.cons_lt_cons_iff, not_or, not_and] at hfrom
      obtain ⟨hba, hrest⟩ := hfrom
      rcases hbelow with hba' | ⟨rfl, hbelow⟩
      · exact absurd hba' hba
      · exact List.cons_prefix_cons.mpr ⟨rfl, ih (hrest rfl) hbelow⟩

/-- What is in the range from a text up to the text and a character begins with the text. -/
theorem hasPrefix_of_between {s x : String} {c : Char} (hfrom : s ≤ x)
    (hbelow : x < s ++ String.singleton c) : hasPrefix x s = true := by
  rw [String.lt_iff, String.toList_append, String.toList_singleton] at hbelow
  refine hasPrefix_iff.mpr (prefix_of_between ?_ hbelow)
  exact fun hlt => String.not_lt.mpr hfrom (String.lt_iff.mpr hlt)

/-- What counts of a revision: all of it, or as many digits as a hash has. -/
def revisionPrefix (sha : String) : Option String :=
  if sha.utf8ByteSize < 40 then some sha else fullHash sha

/-- The run is of the revision. -/
def hasRevision (run : TestRun) (sha : String) : Bool :=
  isLatest sha || (revisionPrefix sha).any (hasPrefix run.fullRevisionHash)

/-- Runs that are looked up for a revision are of the revision. -/
theorem hasRevision_of_lookedUp {run : TestRun} {sha : String}
    (h : hasLookedUpRevision run sha = true) : hasRevision run sha = true := by
  unfold hasLookedUpRevision at h
  unfold hasRevision revisionPrefix
  refine Bool.or_eq_true_iff.mpr (.inr ?_)
  by_cases hshort : sha.utf8ByteSize < 40
  · rw [if_pos hshort, Bool.and_eq_true_iff, decide_eq_true_iff, decide_eq_true_iff] at h
    rw [if_pos hshort, Option.any_some]
    exact hasPrefix_of_between (s := sha) (c := 'g') h.1 h.2
  · rw [if_neg hshort] at h
    have hhash := of_decide_eq_true h
    rw [if_neg hshort, hhash, Option.any_some, hasPrefix_iff]

/-! ## The runs that are asked for -/

section Reference

variable (labels : Option (Finset String)) (revisions : List String)
  (timeFrom timeTo limit offset : Option Int) (product : ProductSpec)

/-- The run is asked for: it has the labels, matches the product, is of one of the revisions
and began in the time. -/
def isAsked (run : TestRun) : Bool :=
  decide ((labels.getD ∅).erase "" ⊆ run.labelsSet) && product.matchesRun run &&
    (revisions.isEmpty || revisions.any (hasRevision run)) && inWindow timeFrom timeTo run

/-- The run is in all ranges that are looked up, and did not begin with the time. -/
def isFound (run : TestRun) : Bool :=
  (!asksRevisions revisions || revisions.any (hasLookedUpRevision run)) &&
    (isLatest product.revision || hasLookedUpRevision run product.revision) &&
    (product.browserVersion == "" || hasLookedUpVersion run product.browserVersion) &&
    timeFrom.all fun t => decide (t < run.timeStart)

/-- As many as are wanted, or all that are stored. -/
def wanted (stored : Nat) : Nat := (limit.map Int.toNat).getD stored

/-- The keys of the newest runs that are asked for, from the offset on. -/
def IsReference (runs : List TestRun) (keys : List Int) : Prop :=
  ∃ page, NewestFirst.IsPage (runs.filter (isAsked labels revisions timeFrom timeTo product))
      TestRun.timeStart (offset.getD 0).toNat (wanted limit runs.length) page ∧
    keys = page.map TestRun.id

/-- Nothing that the lookups do is seen: none is made; or nothing is asked for; or there is
no offset, and what is asked for and left out comes after as many runs as are wanted. -/
def LookupsUnseen (runs : List TestRun) : Prop :=
  asksIDs revisions product = false ∨
  (∀ run ∈ runs, ¬isAsked labels revisions timeFrom timeTo product run) ∨
  offset.getD 0 = 0 ∧ ∀ run ∈ runs, isAsked labels revisions timeFrom timeTo product run →
    ¬isFound revisions timeFrom product run →
      wanted limit runs.length ≤ runs.countP fun run' =>
        isAsked labels revisions timeFrom timeTo product run' &&
          isFound revisions timeFrom product run' && decide (run.timeStart ≤ run'.timeStart)

end Reference

/-! ## The lookups and the filter together -/

section Together

variable {labels : Option (Finset String)} {revisions : List String}
  {timeFrom timeTo limit offset : Option Int} {product : ProductSpec} {run : TestRun}

/-- What a product asks of a run. -/
theorem matchesRun_iff : product.matchesRun run = true ↔
    product.labels.getD ∅ ⊆ run.labelsSet ∧ run.browserName = product.browserName ∧
      (isLatest product.revision = true ∨ product.revision = run.revision ∨
        hasPrefix run.fullRevisionHash product.revision = true) ∧
      (product.browserVersion = "" ∨
        hasPrefix (run.browserVersion ++ ".") (product.browserVersion ++ ".") = true) := by
  have hlabels : product.matchesLabels (some run.labelsSet) = true ↔
      product.labels.getD ∅ ⊆ run.labelsSet := by
    unfold ProductSpec.matchesLabels
    cases product.labels with
    | none => simp
    | some ls =>
      by_cases hempty : ls = ∅
      · simp [hempty]
      · simp [Finset.card_pos, Finset.nonempty_iff_ne_empty, hempty]
  rw [ProductSpec.matchesRun, Bool.and_eq_true_iff, hlabels]
  refine and_congr_right fun _ => ?_
  unfold ProductSpec.matchesProductAtRevision
  by_cases hbrowser : run.browserName = product.browserName
  · by_cases hversion : product.browserVersion = ""
    · by_cases hlatest : isLatest product.revision <;> simp [hbrowser, hversion, hlatest]
    · by_cases hlatest : isLatest product.revision <;> simp [hbrowser, hversion, hlatest]
  · simp [hbrowser]

theorem selects_baseQuery :
    (baseQuery labels offset).selects run = decide ((labels.getD ∅).erase "" ⊆ run.labelsSet) := by
  show (decide ((labels.getD ∅).erase "" ⊆ run.labelsSet) && true) = _
  rw [Bool.and_true]

theorem selects_productQuery : (productQuery (baseQuery labels offset) product).selects run =
    (decide ((labels.getD ∅).erase "" ⊆ run.labelsSet) &&
      decide (run.browserName = product.browserName) &&
        decide (product.labels.getD ∅ ⊆ run.labelsSet)) := by
  rw [Bool.eq_iff_iff]
  simp [RunQuery.selects, productQuery, baseQuery, RunQuery.filter, RunFilter.holds,
    Finset.union_subset_iff]
  tauto

/-- Where no revision is asked for, every run is of one that is. -/
theorem any_hasRevision_of_not_asks (h : asksRevisions revisions = false) :
    (revisions.isEmpty || revisions.any (hasRevision run)) = true := by
  match revisions, h with
  | [], _ => rfl
  | [sha], h =>
    have hlatest : isLatest sha = true := by simpa [asksRevisions] using h
    simp [hasRevision, hlatest]
  | _ :: _ :: _, h => simp [asksRevisions] at h

theorem revisions_of_found
    (h : (!asksRevisions revisions || revisions.any (hasLookedUpRevision run)) = true) :
    (revisions.isEmpty || revisions.any (hasRevision run)) = true := by
  cases hasks : asksRevisions revisions with
  | false => exact any_hasRevision_of_not_asks hasks
  | true =>
    rw [hasks, Bool.not_true, Bool.false_or, List.any_eq_true] at h
    obtain ⟨sha, hsha, hlooked⟩ := h
    refine Bool.or_eq_true_iff.mpr (.inr (List.any_eq_true.mpr ⟨sha, hsha, ?_⟩))
    exact hasRevision_of_lookedUp hlooked

theorem all_le_of_all_lt (h : (timeFrom.all fun t => decide (t < run.timeStart)) = true) :
    (timeFrom.all fun t => decide (t ≤ run.timeStart)) = true := by
  cases timeFrom with
  | none => rfl
  | some t => exact decide_eq_true (of_decide_eq_true h).le

variable (offset) in
/-- **What comes through the lookups and the filter** is what is asked for and found. -/
theorem passesLookups_and_keepsRun (hasks : asksIDs revisions product = true) :
    (passesLookups (baseQuery labels offset) revisions product run &&
        keepsRun product timeFrom timeTo run) =
      (isAsked labels revisions timeFrom timeTo product run &&
        isFound revisions timeFrom product run) := by
  have hquery : (productQuery (baseQuery labels offset) product).selects run = true ↔
      (labels.getD ∅).erase "" ⊆ run.labelsSet ∧ run.browserName = product.browserName ∧
        product.labels.getD ∅ ⊆ run.labelsSet := by
    rw [selects_productQuery, Bool.and_eq_true_iff, Bool.and_eq_true_iff, decide_eq_true_iff,
      decide_eq_true_iff, decide_eq_true_iff, and_assoc]
  unfold passesLookups keepsRun isAsked isFound inWindow
  rw [selects_baseQuery]
  by_cases hlabels : (labels.getD ∅).erase "" ⊆ run.labelsSet
  · cases hmatches : product.matchesRun run with
    | false => simp
    | true =>
      obtain ⟨hproduct, hbrowser, -, -⟩ := matchesRun_iff.mp hmatches
      rw [hquery.mpr ⟨hlabels, hbrowser, hproduct⟩, decide_eq_true hlabels]
      simp only [Bool.true_and, Bool.and_true, bne, Bool.not_not]
      cases hglobal : (!asksRevisions revisions || revisions.any (hasLookedUpRevision run)) with
      | false => simp
      | true =>
        rw [revisions_of_found hglobal]
        cases hstrict : timeFrom.all fun t => decide (t < run.timeStart) with
        | false => simp
        | true =>
          rw [all_le_of_all_lt hstrict]
          simp only [Bool.true_and, Bool.and_true]
          exact Bool.and_comm _ _
  · have hnone : (productQuery (baseQuery labels offset) product).selects run = false :=
      Bool.eq_false_iff.mpr fun h => hlabels (hquery.mp h).1
    rw [hnone, decide_eq_false hlabels]
    -- one of the lookups is made, and it has the labels in its query
    unfold asksIDs at hasks
    cases hA : asksRevisions revisions with
    | true => simp
    | false =>
      cases hlatest : isLatest product.revision with
      | false => simp
      | true =>
        rw [hA, hlatest] at hasks
        simp [show (product.browserVersion != "") = true from hasks]

/-- **The plain query** selects what is asked for. -/
theorem selects_plainQuery (hasks : asksIDs revisions product = false) :
    (plainQuery (baseQuery labels offset) product timeFrom timeTo limit).selects run =
      isAsked labels revisions timeFrom timeTo product run := by
  simp only [asksIDs, Bool.or_eq_false_iff, Bool.not_eq_false', bne_eq_false_iff_eq] at hasks
  obtain ⟨⟨hrevisions, hlatest⟩, hversion⟩ := hasks
  have hmatches : product.matchesRun run = (decide (run.browserName = product.browserName) &&
      decide (product.labels.getD ∅ ⊆ run.labelsSet)) := by
    rw [Bool.eq_iff_iff, matchesRun_iff, Bool.and_eq_true_iff, decide_eq_true_iff,
      decide_eq_true_iff]
    simp only [hlatest, hversion, true_or, and_true]
    exact and_comm
  have hplain : (plainQuery (baseQuery labels offset) product timeFrom timeTo limit).selects run =
      ((productQuery (baseQuery labels offset) product).selects run &&
        inWindow timeFrom timeTo run) := by
    cases timeFrom <;> cases timeTo <;>
      simp [plainQuery, RunQuery.selects, RunQuery.filter, RunFilter.holds, inWindow,
        Bool.and_assoc] <;> rfl
  rw [hplain, selects_productQuery, isAsked, any_hasRevision_of_not_asks hrevisions, hmatches,
    Bool.and_true, Bool.and_assoc, Bool.and_assoc, Bool.and_assoc, Bool.and_assoc]

theorem offset_plainQuery :
    (plainQuery (baseQuery labels offset) product timeFrom timeTo limit).offset =
      offset.getD 0 := by
  cases timeFrom <;> cases timeTo <;> rfl

theorem limit_plainQuery :
    (plainQuery (baseQuery labels offset) product timeFrom timeTo limit).limit =
      some (min (limit.getD maxCountMaxValue) maxCountMaxValue) := by
  refine congrArg some ?_
  cases limit with
  | none => rfl
  | some l =>
    show (if l < maxCountMaxValue then l else maxCountMaxValue) = min l maxCountMaxValue
    split <;> omega

theorem cut_plainQuery (listing : List TestRun) :
    (plainQuery (baseQuery labels offset) product timeFrom timeTo limit).cut listing =
      (listing.drop (offset.getD 0).toNat).take (limitOf limit) := by
  rw [RunQuery.cut, offset_plainQuery, limit_plainQuery]
  rfl

end Together

/-! ## The keys of one product -/

/-- With so few runs, no limit is the same as a limit that all of them meet. -/
theorem take_limitOf {limit : Option Int} (hlimit : ∀ l ∈ limit, 1 ≤ l) {stored : Nat}
    (hfew : stored < 500) {listing : List TestRun} (hlength : listing.length ≤ stored) :
    listing.take (limitOf limit) = listing.take (wanted limit stored) := by
  cases limit with
  | none =>
    show listing.take 500 = listing.take stored
    rw [List.take_of_length_le hlength, List.take_of_length_le (by omega)]
  | some l =>
    show listing.take (min l 500).toNat = listing.take l.toNat
    have hl := hlimit l rfl
    rcases le_total l 500 with hle | hle
    · rw [min_eq_left hle]
    · rw [List.take_of_length_le (by omega), List.take_of_length_le (by omega)]

section Product

variable {store : RunDatastore} {labels : Option (Finset String)} {revisions : List String}
  {timeFrom timeTo limit offset : Option Int} {product : ProductSpec}

/-- The runs of a store are told apart by their IDs. -/
theorem eq_of_map_id_eq {l l' : List TestRun} (hl : l ⊆ store.runs) (hl' : l' ⊆ store.runs)
    (h : l.map TestRun.id = l'.map TestRun.id) : l = l' := by
  induction l generalizing l' with
  | nil => exact (List.map_eq_nil_iff.mp h.symm).symm
  | cons run l ih =>
    cases l' with
    | nil => cases h
    | cons run' l' =>
      obtain ⟨hid, hrest⟩ := List.cons.inj h
      obtain ⟨hrun, hl⟩ := List.cons_subset.mp hl
      obtain ⟨hrun', hl'⟩ := List.cons_subset.mp hl'
      rw [eq_of_id_eq hrun hrun' hid, ih hl hl' hrest]

/-- The keys of runs that are stored are the reference if the runs are. -/
theorem isReference_map_iff {page : List TestRun} (hpage : page ⊆ store.runs) :
    IsReference labels revisions timeFrom timeTo limit offset product store.runs
        (page.map TestRun.id) ↔
      NewestFirst.IsPage (store.runs.filter (isAsked labels revisions timeFrom timeTo product))
        TestRun.timeStart (offset.getD 0).toNat (wanted limit store.runs.length) page := by
  constructor
  · rintro ⟨page', hpage', heq⟩
    have hsub : page' ⊆ store.runs := fun run hrun => List.mem_of_mem_filter (hpage'.subset hrun)
    rwa [eq_of_map_id_eq hpage hsub heq]
  · exact fun h => ⟨page, h, rfl⟩

/-- Without a lookup the keys are the reference, with an offset too. -/
theorem isReference_of_plain (hfew : store.runs.length < 500) (hlimit : ∀ l ∈ limit, 1 ≤ l)
    (hasks : asksIDs revisions product = false) {keys : List Int}
    (hkeys : (plainQuery (baseQuery labels offset) product timeFrom timeTo limit).Answers
      store.runs keys) :
    IsReference labels revisions timeFrom timeTo limit offset product store.runs keys := by
  obtain ⟨listing, hperm, hsorted, rfl⟩ := hkeys
  rw [List.filter_congr fun run _ => selects_plainQuery hasks] at hperm
  refine ⟨_, ⟨listing, hperm, hsorted .timeStart rfl, ?_⟩, rfl⟩
  have hlength : (listing.drop (offset.getD 0).toNat).length ≤ store.runs.length := by
    have hle := hperm.length_eq ▸ List.length_filter_le _ store.runs
    rw [List.length_drop]
    omega
  rw [← take_limitOf hlimit hfew hlength]
  exact cut_plainQuery listing

theorem countP_found (runs : List TestRun) (run : TestRun) :
    ((runs.filter (isAsked labels revisions timeFrom timeTo product)).filter
        (isFound revisions timeFrom product)).countP
          (fun run' => decide (run.timeStart ≤ run'.timeStart)) =
      runs.countP fun run' => isAsked labels revisions timeFrom timeTo product run' &&
        isFound revisions timeFrom product run' && decide (run.timeStart ≤ run'.timeStart) := by
  rw [List.countP_filter, List.countP_filter]
  refine List.countP_congr fun run' _ => ?_
  simp only [Bool.and_eq_true]
  tauto

/-- What comes through the filter on this side, whatever the offset. -/
theorem isReference_iff_of_lookups (hfew : store.runs.length < 500) (hlimit : ∀ l ∈ limit, 1 ≤ l)
    (hasks : asksIDs revisions product = true) {ids : Finset Int}
    (hids : Finds store (offset.getD 0)
      (passesLookups (baseQuery labels offset) revisions product) ids)
    {listing : List TestRun}
    (hperm : listing.Perm (store.runs.filter fun run =>
      decide (run.id ∈ ids) && keepsRun product timeFrom timeTo run))
    (hsorted : listing.Pairwise RunOrder.timeStart.Before) :
    (LookupsUnseen labels revisions timeFrom timeTo limit offset product store.runs →
      IsReference labels revisions timeFrom timeTo limit offset product store.runs
        ((listing.take (limitOf limit)).map TestRun.id)) ∧
    (offset.getD 0 = 0 →
      IsReference labels revisions timeFrom timeTo limit offset product store.runs
        ((listing.take (limitOf limit)).map TestRun.id) →
      LookupsUnseen labels revisions timeFrom timeTo limit offset product store.runs) := by
  have hlength : listing.length ≤ store.runs.length := by
    rw [hperm.length_eq]
    exact List.length_filter_le _ _
  have hstored : listing.take (wanted limit store.runs.length) ⊆ store.runs := fun run hrun =>
    List.mem_of_mem_filter (hperm.subset (List.mem_of_mem_take hrun))
  rw [take_limitOf hlimit hfew hlength, isReference_map_iff hstored]
  -- without an offset the lookups find every run that they may find
  have hexact : offset.getD 0 = 0 → listing.Perm
      ((store.runs.filter (isAsked labels revisions timeFrom timeTo product)).filter
        (isFound revisions timeFrom product)) := by
    intro hzero
    rw [List.filter_filter]
    refine hperm.trans (List.Perm.of_eq (List.filter_congr fun run hrun => ?_))
    rw [Bool.and_comm (isFound _ _ _ _), ← passesLookups_and_keepsRun offset hasks]
    refine congrArg (· && _) (Bool.eq_iff_iff.mpr ?_)
    rw [decide_eq_true_iff]
    exact ⟨hids.holds hrun, hids.complete hzero run hrun⟩
  have hiff := fun hzero => isPage_filter_iff (hexact hzero) hsorted
    (wanted limit store.runs.length)
  constructor
  · rintro (hplain | hnone | ⟨hzero, hcond⟩)
    · exact absurd (hplain.symm.trans hasks) Bool.false_ne_true
    · have hnil : listing = [] := by
        refine List.eq_nil_iff_forall_not_mem.mpr fun run hrun => ?_
        obtain ⟨hstored, hkept⟩ := List.mem_filter.mp (hperm.subset hrun)
        obtain ⟨hid, hkept⟩ := Bool.and_eq_true_iff.mp hkept
        have hboth : (_ && keepsRun product timeFrom timeTo run) =
          (isAsked labels _ timeFrom timeTo product run && _) :=
          passesLookups_and_keepsRun offset hasks
        rw [hids.holds hstored (of_decide_eq_true hid), hkept] at hboth
        exact hnone run hstored (Bool.and_eq_true_iff.mp hboth.symm).1
      rw [hnil, List.filter_eq_nil_iff.mpr hnone]
      exact ⟨[], List.Perm.refl _, List.Pairwise.nil, by simp⟩
    · rw [hzero]
      refine (hiff hzero).mpr fun run hrun hleft => ?_
      obtain ⟨hstored, hasked⟩ := List.mem_filter.mp hrun
      rw [countP_found]
      exact hcond run hstored hasked hleft
  · intro hzero hpage
    rw [hzero] at hpage
    refine .inr (.inr ⟨hzero, fun run hrun hasked hleft => ?_⟩)
    rw [← countP_found]
    exact (hiff hzero).mp hpage run (List.mem_filter.mpr ⟨hrun, hasked⟩) hleft

/-- What is loaded for a product: the reference where the lookups are unseen, and without an
offset only there. -/
structure Answered (store : RunDatastore) (labels : Option (Finset String))
    (revisions : List String) (timeFrom timeTo limit offset : Option Int) (product : ProductSpec)
    (kbp : ProductTestRunKeys) : Prop where
  product_eq : kbp.product = product
  reference : LookupsUnseen labels revisions timeFrom timeTo limit offset product store.runs →
    IsReference labels revisions timeFrom timeTo limit offset product store.runs kbp.keys
  unseen : offset.getD 0 = 0 →
    IsReference labels revisions timeFrom timeTo limit offset product store.runs kbp.keys →
    LookupsUnseen labels revisions timeFrom timeTo limit offset product store.runs

variable (hok : store.Succeeds) (hfew : store.runs.length < 500) (order : RangeOrder Int)
  (sort : ReverseSort) (hlimit : ∀ l ∈ limit, 1 ≤ l) (hoffset : ∀ o ∈ offset, 0 ≤ o)

include hok hfew hlimit hoffset

/-- **The keys of one product**, on either path. -/
theorem loadProductKeys_answered (timeFrom timeTo : Option Int)
    {globalIDs : Option (Finset Int)}
    (hglobal : Restricts store (baseQuery labels offset).offset (asksRevisions revisions)
      (fun run => (baseQuery labels offset).selects run &&
        revisions.any (hasLookedUpRevision run)) globalIDs) (product : ProductSpec) :
    ∃ kbp, loadProductKeys store order sort (baseQuery labels offset) globalIDs timeFrom timeTo
        limit product = .ok kbp ∧
      Answered store labels revisions timeFrom timeTo limit offset product kbp := by
  have hbase : 0 ≤ (baseQuery labels offset).offset := by
    show 0 ≤ offset.getD 0
    cases offset with
    | none => exact Int.le_refl 0
    | some o => exact hoffset o rfl
  obtain ⟨ids, hids, hrestricts⟩ :=
    loadProductIDs_restricts hok hfew hbase rfl hglobal product
  unfold loadProductKeys
  rw [hids]
  cases ids with
  | none =>
    have hasks : asksIDs revisions product = false := hrestricts
    obtain ⟨keys, hkeys⟩ :=
      hok.getAll (plainQuery (baseQuery labels offset) product timeFrom timeTo limit)
    -- no lookups: the datastore gets the query with all its conditions and the cut
    have hmax : ∀ l ∈ some (min (limit.getD maxCountMaxValue) maxCountMaxValue), (0 : Int) ≤ l := by
      rintro l ⟨⟩
      cases limit with
      | none => decide
      | some l => exact le_min ((Int.zero_le_ofNat 1).trans (hlimit l rfl)) (by decide)
    have hanswers := store.getAll_spec _ keys (offset_plainQuery ▸ hbase)
      (limit_plainQuery ▸ hmax) hkeys
    refine ⟨⟨product, keys⟩, ?_, rfl, fun _ => isReference_of_plain hfew hlimit hasks hanswers,
      fun _ _ => .inl hasks⟩
    show (store.getAll _ >>= _) = _
    rw [hkeys]
    rfl
  | some ids =>
    obtain ⟨hasks, hfinds⟩ := hrestricts
    -- the IDs of the lookups are of stored runs, so `GetMulti` has no error
    have hstored : ∀ id ∈ ids, ∃ run ∈ store.runs, run.id = id := by
      intro id hid
      obtain ⟨run, hrun, heq, -⟩ := hfinds.sound id hid
      exact ⟨run, hrun, heq⟩
    obtain ⟨listing, hfilter, hperm, hsorted⟩ := clientSideFilter_spec hok hfew order sort
      hstored product timeFrom timeTo hlimit
    obtain ⟨hreference, hunseen⟩ :=
      isReference_iff_of_lookups hfew hlimit hasks hfinds hperm hsorted
    refine ⟨⟨product, (listing.take (limitOf limit)).map TestRun.id⟩, ?_, rfl, hreference,
      hunseen⟩
    show (clientSideFilter _ _ _ _ _ _ _ _ >>= _) = _
    rw [hfilter]
    rfl

end Product

/-! ## All products -/

/-- The reference is loaded for each of the products. -/
def LoadsReference (store : RunDatastore) (order : RangeOrder Int) (sort : ReverseSort)
    (products : List ProductSpec) (labels : Option (Finset String)) (revisions : List String)
    (timeFrom timeTo limit offset : Option Int) : Prop :=
  ∃ result, loadTestRunKeys store order sort products labels revisions timeFrom timeTo limit
      offset = .ok result ∧
    List.Forall₂ (fun product kbp => kbp.product = product ∧
      IsReference labels revisions timeFrom timeTo limit offset product store.runs kbp.keys)
      products result

theorem exists_mapM_ok {α β ε : Type} {f : α → Except ε β} {R : α → β → Prop}
    (h : ∀ a, ∃ b, f a = .ok b ∧ R a b) (l : List α) :
    ∃ bs, l.mapM f = .ok bs ∧ List.Forall₂ R l bs := by
  induction l with
  | nil => exact ⟨[], rfl, .nil⟩
  | cons a l ih =>
    obtain ⟨b, hb, hR⟩ := h a
    obtain ⟨bs, hbs, hRs⟩ := ih
    refine ⟨b :: bs, ?_, .cons hR hRs⟩
    rw [List.mapM_cons, hb, hbs]
    rfl

/-- **`LoadTestRunKeys`** loads the reference for all products where the lookups are unseen
for each; without an offset only there. -/
theorem loadTestRunKeys_reference {store : RunDatastore} (hok : store.Succeeds)
    (hfew : store.runs.length < 500) (order : RangeOrder Int) (sort : ReverseSort)
    (products : List ProductSpec) (labels : Option (Finset String)) (revisions : List String)
    (timeFrom timeTo : Option Int) {limit offset : Option Int} (hlimit : ∀ l ∈ limit, 1 ≤ l)
    (hoffset : ∀ o ∈ offset, 0 ≤ o) :
    ((∀ product ∈ products,
        LookupsUnseen labels revisions timeFrom timeTo limit offset product store.runs) →
      LoadsReference store order sort products labels revisions timeFrom timeTo limit offset) ∧
    (offset.getD 0 = 0 →
      LoadsReference store order sort products labels revisions timeFrom timeTo limit offset →
      ∀ product ∈ products,
        LookupsUnseen labels revisions timeFrom timeTo limit offset product store.runs) := by
  have hbase : 0 ≤ (baseQuery labels offset).offset := by
    show 0 ≤ offset.getD 0
    cases offset with
    | none => exact Int.le_refl 0
    | some o => exact hoffset o rfl
  obtain ⟨globalIDs, hglobalIDs, hglobal⟩ :=
    loadGlobalIDs_restricts hok hfew hbase rfl revisions
  obtain ⟨result, hresult, hanswered⟩ := exists_mapM_ok
    (loadProductKeys_answered hok hfew order sort hlimit hoffset timeFrom timeTo hglobal) products
  have hload : loadTestRunKeys store order sort products labels revisions timeFrom timeTo limit
      offset = .ok result := by
    show (loadGlobalIDs _ _ _ >>= _) = _
    rw [hglobalIDs]
    exact hresult
  -- there is one result, and `hanswered` says when its keys are the reference
  constructor
  · intro hunseen
    refine ⟨result, hload, ?_⟩
    refine List.Forall₂.imp ?_ ((List.forall₂_and_left _ _).mpr ⟨hunseen, hanswered⟩)
    intro product kbp h
    exact ⟨h.2.product_eq, h.2.reference h.1⟩
  · rintro hzero ⟨result', hload', hreference⟩
    rw [hload] at hload'
    cases hload'
    have hboth : List.Forall₂ (fun product kbp =>
        LookupsUnseen labels revisions timeFrom timeTo limit offset product store.runs ∧
          kbp.product = product) products result :=
      List.Forall₂.mp (fun _ _ h href => ⟨h.unseen hzero href.2, h.product_eq⟩) hanswered
        hreference
    exact ((List.forall₂_and_left _ _).mp hboth).1

/-! ## Two runs of one version -/

instance (order : RunOrder) : DecidableRel order.Before := fun _ _ =>
  match order with
  | .timeStart => inferInstanceAs (Decidable (_ ≤ _))
  | .fullRevisionHash => inferInstanceAs (Decidable (_ ≤ _))
  | .browserVersion => inferInstanceAs (Decidable (_ ≤ _))

/-- The runs that a query selects, in its order. -/
def RunQuery.listing (q : RunQuery) (runs : List TestRun) : List TestRun :=
  match q.order with
  | none => runs.filter q.selects
  | some order => (runs.filter q.selects).insertionSort order.Before

/-- The listing is one of the answers to a query. -/
theorem RunQuery.answers_listing (q : RunQuery) (runs : List TestRun) :
    q.Answers runs ((q.cut (q.listing runs)).map TestRun.id) := by
  refine ⟨q.listing runs, ?_, ?_, rfl⟩
  · unfold RunQuery.listing
    cases q.order with
    | none => exact List.Perm.refl _
    | some order => exact List.perm_insertionSort _ _
  · intro order horder
    have : Std.Total order.Before := by
      cases order with
      | timeStart => exact ⟨fun a b => le_total b.timeStart a.timeStart⟩
      | fullRevisionHash => exact ⟨fun a b => le_total a.fullRevisionHash b.fullRevisionHash⟩
      | browserVersion => exact ⟨fun a b => le_total b.browserVersion a.browserVersion⟩
    have : IsTrans TestRun order.Before := by
      cases order with
      | timeStart => exact ⟨fun _ _ _ hab hbc => le_trans hbc hab⟩
      | fullRevisionHash => exact ⟨fun _ _ _ hab hbc => le_trans hab hbc⟩
      | browserVersion => exact ⟨fun _ _ _ hab hbc => le_trans hbc hab⟩
    rw [RunQuery.listing, show q.order = some order from horder]
    exact List.pairwise_insertionSort _ _

/-- The run with an ID. -/
def runOfID (runs : List TestRun) (id : Int) : Except String TestRun :=
  match runs.find? fun run => decide (run.id = id) with
  | some run => .ok run
  | none => .error "datastore: no such entity"

/-- Runs that are loaded by their IDs have these IDs. -/
theorem forall₂_of_mapM_runOfID {runs : List TestRun} {keys : List Int} {found : List TestRun}
    (h : keys.mapM (runOfID runs) = .ok found) :
    List.Forall₂ (fun id run => run ∈ runs ∧ run.id = id) keys found := by
  induction keys generalizing found with
  | nil =>
    cases h
    exact .nil
  | cons id keys ih =>
    rw [List.mapM_cons] at h
    cases hrun : runs.find? fun run => decide (run.id = id) with
    | none =>
      simp only [runOfID, hrun] at h
      cases h
    | some run =>
      simp only [runOfID, hrun] at h
      cases hrest : keys.mapM (runOfID runs) with
      | error err =>
        rw [hrest] at h
        cases h
      | ok rest =>
        rw [hrest] at h
        cases h
        have hid := List.find?_some hrun
        exact .cons ⟨List.mem_of_find?_eq_some hrun, of_decide_eq_true hid⟩ (ih hrest)

/-- A datastore in which no query fails. -/
def RunDatastore.ofRuns (runs : List TestRun) (hnodup : (runs.map TestRun.id).Nodup) :
    RunDatastore where
  runs := runs
  nodup := hnodup
  getAll q := .ok ((q.cut (q.listing runs)).map TestRun.id)
  getAll_spec := by
    intro q keys _ _ hkeys
    cases hkeys
    exact q.answers_listing runs
  getMulti keys := keys.mapM (runOfID runs)
  getMulti_spec := fun keys found hfound => forall₂_of_mapM_runOfID hfound

theorem exists_runOfID {runs : List TestRun} {id : Int} (h : ∃ run ∈ runs, run.id = id) :
    ∃ run, runOfID runs id = .ok run := by
  obtain ⟨run, hrun, hid⟩ := h
  cases hfind : runs.find? fun run => decide (run.id = id) with
  | none => exact absurd hid (by simpa using List.find?_eq_none.mp hfind run hrun)
  | some run' => exact ⟨run', by rw [runOfID, hfind]⟩

/-- No query fails there. -/
theorem RunDatastore.succeeds_ofRuns (runs : List TestRun) (hnodup : (runs.map TestRun.id).Nodup) :
    (RunDatastore.ofRuns runs hnodup).Succeeds where
  getAll _ := ⟨_, rfl⟩
  getMulti keys hkeys := by
    show ∃ found, keys.mapM (runOfID runs) = .ok found
    induction keys with
    | nil => exact ⟨[], rfl⟩
    | cons id keys ih =>
      obtain ⟨run, hrun⟩ : ∃ run, runOfID runs id = .ok run :=
        exists_runOfID (hkeys id List.mem_cons_self)
      obtain ⟨found, hfound⟩ := ih fun key hkey => hkeys key (List.mem_cons_of_mem _ hkey)
      refine ⟨run :: found, ?_⟩
      rw [List.mapM_cons, hrun, hfound]
      rfl

/-- By `newestFirst`. -/
def newestFirstSort : ReverseSort := fun runs =>
  ⟨newestFirst runs, List.perm_insertionSort _ _, by
    have : Std.Total RunOrder.timeStart.Before := ⟨fun a b => le_total b.timeStart a.timeStart⟩
    have : IsTrans TestRun RunOrder.timeStart.Before := ⟨fun _ _ _ hab hbc => le_trans hbc hab⟩
    exact List.pairwise_insertionSort _ _⟩

/-- Two runs of Chrome 64, of which the later one has the earlier version. -/
def versionRuns : List TestRun :=
  [{ browserName := "chrome", browserVersion := "64.1", id := 1, timeStart := 1000 },
    { browserName := "chrome", browserVersion := "64.0", id := 2, timeStart := 2000 }]

/-- The store of these runs. -/
def versionStore : RunDatastore := .ofRuns versionRuns (by decide)

/-- Chrome 64. -/
def chrome64 : ProductSpec := { browserName := "chrome", browserVersion := "64" }

def sortedIDs : RangeOrder Int := sortedOrder id Function.injective_id

/-- The keys of one product that are the reference. -/
theorem isReference_of_loadsReference {timeFrom offset : Option Int} {keys : List Int}
    (h : LoadsReference versionStore sortedIDs newestFirstSort [chrome64] none [] timeFrom none
      (some 10) offset)
    (hkeys : (loadTestRunKeys versionStore sortedIDs newestFirstSort [chrome64] none [] timeFrom
      none (some 10) offset).toOption.map (List.map ProductTestRunKeys.keys) = some [keys]) :
    IsReference none [] timeFrom none (some 10) offset chrome64 versionRuns keys := by
  obtain ⟨result, hload, hreference⟩ := h
  rw [hload] at hkeys
  cases hreference with
  | @cons _ kbp _ _ hkbp hnil =>
    cases hnil
    rw [← (List.cons.inj (Option.some.inj hkeys)).1]
    exact hkbp.2

theorem loadTestRunKeys_reference_versions :
    LoadsReference versionStore sortedIDs newestFirstSort [chrome64] none [] (some 999) none
      (some 1) none :=
  (loadTestRunKeys_reference (RunDatastore.succeeds_ofRuns _ _) (by decide) sortedIDs
    newestFirstSort [chrome64] none [] (some 999) none (by decide) (by decide)).1
    fun product hproduct => by
      rw [List.mem_singleton.mp hproduct]
      exact .inr (.inr ⟨rfl, by decide +kernel⟩)

/-- The run at the lower bound is left out, and an offset drops the run that the lookup of the
version lists first, which is not the newest. -/
theorem not_loadsReference_versions :
    ¬LoadsReference versionStore sortedIDs newestFirstSort [chrome64] none [] (some 1000) none
      (some 10) none ∧
    ¬LoadsReference versionStore sortedIDs newestFirstSort [chrome64] none [] none none
      (some 10) (some 1) := by
  have hfirst : (loadTestRunKeys versionStore sortedIDs newestFirstSort [chrome64] none []
      (some 1000) none (some 10) none).toOption.map (List.map ProductTestRunKeys.keys) =
        some [[2]] := by
    decide +kernel
  have hsecond : (loadTestRunKeys versionStore sortedIDs newestFirstSort [chrome64] none []
      none none (some 10) (some 1)).toOption.map (List.map ProductTestRunKeys.keys) =
        some [[2]] := by
    decide +kernel
  constructor
  · intro h
    obtain ⟨page, ⟨listing, hperm, -, rfl⟩, hkeys⟩ :=
      isReference_of_loadsReference h hfirst
    have hall : versionRuns.filter (isAsked none [] (some 1000) none chrome64) = versionRuns := by
      decide +kernel
    -- two runs are asked for
    have hlength := hperm.length_eq
    have htwo := congrArg List.length hkeys
    rw [hall] at hlength
    simp [wanted, hlength, versionRuns] at htwo
  · intro h
    obtain ⟨page, ⟨listing, hperm, hsorted, rfl⟩, hkeys⟩ :=
      isReference_of_loadsReference h hsecond
    have hall : versionRuns.filter (isAsked none [] none none chrome64) = versionRuns := by
      decide +kernel
    rcases List.perm_pair.mp (hall ▸ hperm) with rfl | rfl
    · exact absurd hsorted (by decide +kernel)
    · exact absurd hkeys (by decide +kernel)

end WptFyi.Shared
