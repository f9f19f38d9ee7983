import WptFyi.Cache.BindSemantics
import WptFyi.Cache.Snapshots

/-!
# The search service (`api/query/cache/service/search.go`)

Any number of requests are served at once, over an index that ingestions and evictions change
meanwhile. `searchHandlerImpl` looks its runs up one by one, binds the query to those it found,
searches the shards in any order and writes what they gave.

A request is a small state machine beside the system of `Interleaving`: it is looking up runs, then
executing a plan, then answered, and between any two of its steps all other requests and calls can
move. What it has learned can be outdated by the time it uses it. A run that was found may be
evicted before the query is bound, and then binding is an error; a run that was missing may have
come; and after binding the index may change in any way while the shards are searched. The
invariant says for each place what the request knows for good: the runs it has looked up are those
found and those missing, in the order of the request (`Seen.Covers`), and once there is a plan,
each shard will give, or has given, its part of the naive answer over the reports that there were
at that moment (`Execution.Inv`). That moment is kept in the history variable `Snapshot`.

- `Service.step`: the steps of the handlers and of the index;
- `SearchCall.Inv`, `Service.Invariant.step`: what holds of a request on its way;
- `searches_sound`: what an answer says, for the query as it was asked.

The ingestion that a missing run starts is any later step of the index. Left out are the check of
the method, reading and writing of JSON, timeouts and logging.
-/

namespace WptFyi.Cache

open Lib Query Shared

/-- A request, decoded. There are no options when the diff filter cannot be parsed. -/
structure SearchRequest where
  runIDs : List RunID
  query : AbstractQuery
  opts : Option AggregationOpts

/-- `shared.SearchResponse`, its results in no order. -/
structure SearchResponse where
  runs : List TestRun
  results : Multiset SearchResult
  ignoredRuns : List TestRun

/-- The errors of the handler once the request is decoded. -/
inductive SearchError where
  | tooManyRuns (maxRunsPerRequest : Nat)
  | unknownRun (id : RunID)
  | badDiffFilter
  | noPlan (err : IndexError)
deriving DecidableEq

namespace SearchError

/-- `Message`. -/
def message : SearchError → String
  | tooManyRuns maxRunsPerRequest =>
    "Too many runs specified; maximum is " ++ toString maxRunsPerRequest ++ "."
  | unknownRun id => "Unknown test run ID " ++ toString id
  | badDiffFilter => "Failed to parse diff filter"
  | noPlan _ => "Failed to create query plan"

/-- `Code`. -/
def code : SearchError → Nat
  | tooManyRuns _ => 400
  | unknownRun _ => 400
  | badDiffFilter => 400
  | noPlan _ => 500

end SearchError

/-- What a request is answered with. -/
inductive SearchAnswer where
  | error (err : SearchError)
  | response (code : Nat) (resp : SearchResponse)

/-- The runs looked up so far. -/
structure Seen where
  ids : List RunID
  runs : List TestRun
  missing : List TestRun

/-- History variables of a request: the metadata it fetched, and the reports that the resident
runs were ingested from when it was bound. -/
structure Snapshot where
  fetched : Fetched
  reports : GoMap RunID Report

/-- A bound query on its way through the shards: the index of each shard, and the results of
the shards that are done. -/
structure Execution where
  opts : AggregationOpts
  q : ConcreteQuery
  plan : List Index
  done : GoMap Nat (Multiset SearchResult)

/-- Where a request stands. -/
inductive SearchCall where
  /-- Runs are looked up; those of `todo` are still to come. -/
  | looking (rq : SearchRequest) (todo : List RunID) (seen : Seen)
  | executing (rq : SearchRequest) (seen : Seen) (snapshot : Snapshot) (exec : Execution)
  | answered (rq : SearchRequest) (snapshot : Option Snapshot) (answer : SearchAnswer)
  /-- A shard was searched for results of a run that it does not have. -/
  | panicked

/-- Unchanged results lose their empty diffs. -/
def cullDiff (opts : AggregationOpts) (diff : Option TestDiff) : Option TestDiff :=
  if opts.includeDiff && !opts.diffFilter.unchanged then diff.filter (· ≠ 0) else diff

/-- A result without its empty diff. -/
def cull (opts : AggregationOpts) (r : SearchResult) : SearchResult :=
  { r with diff := cullDiff opts r.diff }

/-- The index and the requests. -/
structure Service where
  system : System
  searches : GoMap Nat SearchCall

/-- The steps. The ingestion that a missing run starts is a step of the index. -/
inductive ServiceLabel where
  | index (label : Label)
  | request (k : Nat) (rq : SearchRequest)
  | look (k : Nat) (stored : Option TestRun)
  | bind (k : Nat) (fetched : Fetched) (now : RunID → Int)
  | shard (k j : Nat) (order : RangeOrder TestID)
  | answer (k : Nat)

namespace Service

/-- The service before any request, over a new index. -/
def start (numShards : Nat) : Service := ⟨.start numShards, ∅⟩

/-- The request `k` goes on to `call`. -/
def setSearch (s : Service) (k : Nat) (call : SearchCall) : Service :=
  { s with searches := s.searches.insert k call }

section Steps

variable (fingerprint64 : String → UInt64) (cases : CaseMapping) (maxRunsPerRequest : Nat)

/-- Up to the loop over the runs. -/
def request (rq : SearchRequest) : SearchCall :=
  if maxRunsPerRequest < rq.runIDs.length then
    .answered rq none (.error (.tooManyRuns maxRunsPerRequest))
  else .looking rq rq.runIDs ⟨[], [], []⟩

/-- One turn of the loop, where Datastore has `stored` of a run that is not resident. -/
def look (s : Service) (rq : SearchRequest) (id : RunID) (todo : List RunID) (seen : Seen)
    (stored : Option TestRun) : SearchCall :=
  match s.system.index.runs.lookup id with
  | some run =>
    .looking rq todo { seen with ids := seen.ids ++ [id], runs := seen.runs ++ [run] }
  | none =>
    match stored with
    | none => .answered rq none (.error (.unknownRun id))
    | some run => .looking rq todo { seen with missing := seen.missing ++ [{ run with id }] }

/-- `q`, the query over the runs that were found. -/
def userQuery (rq : SearchRequest) (seen : Seen) (fetched : Fetched) : ConcreteQuery :=
  prepareUserQuery seen.ids (bindToRuns fetched rq.query seen.runs)

/-- From the loop over the runs to the plan. -/
def bind (s : Service) (k : Nat) (rq : SearchRequest) (seen : Seen) (fetched : Fetched)
    (now : RunID → Int) : Service :=
  if seen.runs = [] ∧ seen.missing ≠ [] then
    s.setSearch k (.answered rq none (.response 422 ⟨[], 0, seen.missing⟩))
  else
    let snapshot : Snapshot := ⟨fetched, s.system.reports⟩
    match rq.opts with
    | none => s.setSearch k (.answered rq (some snapshot) (.error .badDiffFilter))
    | some opts =>
      let q := userQuery rq seen fetched
      let bound := s.system.index.bind cases seen.runs (some q) now
      let s : Service := { s with system := { s.system with index := bound.1 } }
      match bound.2 with
      | .error err => s.setSearch k (.answered rq (some snapshot) (.error (.noPlan err)))
      | .ok plan => s.setSearch k (.executing rq seen snapshot ⟨opts, q, plan.map Prod.fst, ∅⟩)

/-- One shard of a plan. The names are those that the shard has by now. -/
def searchShard (rq : SearchRequest) (seen : Seen) (snapshot : Snapshot) (exec : Execution)
    (j : Nat) (shard : WPTIndex) (idx : Index) (order : RangeOrder TestID) : SearchCall :=
  match syncRunFilter order (seen.runs.map TestRun.id) exec.opts
      (idx.withTests shard, newFilter cases (idx.withTests shard) exec.q) with
  | none => .panicked
  | some results =>
    .executing rq seen snapshot { exec with done := exec.done.insert j results }

/-- The results of the shards together, and what is written. -/
def finish (rq : SearchRequest) (seen : Seen) (snapshot : Snapshot) (exec : Execution) :
    SearchCall :=
  let results := ((List.range exec.plan.length).map fun j => (exec.done.lookup j).getD 0).sum
  .answered rq (some snapshot) (.response (if seen.missing = [] then 200 else 422)
    ⟨seen.runs, results.map (cull exec.opts), seen.missing⟩)

/-- The steps that are enabled. -/
def step (s : Service) : ServiceLabel → Option Service
  | .index label => (s.system.step fingerprint64 cases label).map fun system => { s with system }
  | .request k rq =>
    if k ∈ s.searches then none else some (s.setSearch k (request maxRunsPerRequest rq))
  | .look k stored =>
    match s.searches.lookup k with
    | some (.looking rq (id :: todo) seen) => some (s.setSearch k (s.look rq id todo seen stored))
    | _ => none
  | .bind k fetched now =>
    match s.searches.lookup k with
    | some (.looking rq [] seen) => some (s.bind cases k rq seen fetched now)
    | _ => none
  | .shard k j order =>
    match s.searches.lookup k with
    | some (.executing rq seen snapshot exec) =>
      match s.system.index.shards[j]?, exec.plan[j]? with
      | some shard, some idx =>
        if j ∈ exec.done then none
        else some (s.setSearch k (searchShard cases rq seen snapshot exec j shard idx order))
      | _, _ => none
    | _ => none
  | .answer k =>
    match s.searches.lookup k with
    | some (.executing rq seen snapshot exec) =>
      if ∀ j ∈ List.range exec.plan.length, j ∈ exec.done then
        some (s.setSearch k (finish rq seen snapshot exec))
      else none
    | _ => none

end Steps

end Service

/-- Reports are valid, with names among those given, and queries come from decoding. -/
def ServiceLabel.Loads (names : Set TestName) : ServiceLabel → Prop
  | .index label => label.Loads names
  | .request _ rq => rq.query.Decoded
  | _ => True

/-! ## What an answer should say

Stated over the reports at the moment the query was bound, in the terms of the request: which runs
were found, which were not, and what the rows are. -/

section Spec

variable (cases : CaseMapping) (maxRunsPerRequest : Nat)

/-- The runs that were looked up are those found and those missing, each in their order. -/
structure Seen.Covers (seen : Seen) (ids : List RunID) : Prop where
  ids_eq : seen.ids = seen.runs.map TestRun.id
  runs : (seen.runs.map TestRun.id).Sublist ids
  missing : (seen.missing.map TestRun.id).Sublist ids
  perm : (seen.runs.map TestRun.id ++ seen.missing.map TestRun.id).Perm ids

/-- A row is in the answer when some run knows it, the query holds of the runs on it, and it is
not a harness status to leave out. -/
def Asked (rq : SearchRequest) (opts : AggregationOpts) (snapshot : Snapshot) (runs : List TestRun)
    (n : TestName) : Prop :=
  let row := naiveRow snapshot.reports (runs.map TestRun.id) n
  (∃ run ∈ runs, row.result run.id ≠ TestStatus.unknown) ∧
    Holds cases snapshot.fetched row rq.query runs ∧
      leftOut (runs.map TestRun.id) opts row = false

/-- A summary without its empty diff. -/
def UnorderedResult.cull (opts : AggregationOpts) (r : UnorderedResult) : UnorderedResult :=
  { r with diff := cullDiff opts r.diff }

/-- The results are the summaries of the tests with rows that were asked for. -/
def Answers (rq : SearchRequest) (opts : AggregationOpts) (snapshot : Snapshot)
    (runs : List TestRun) (results : Multiset SearchResult) : Prop :=
  ∃ rows : Finset TestName, (∀ n, n ∈ rows ↔ Asked cases rq opts snapshot runs n) ∧
    results.map unordered = (rows.image TestName.name).val.map fun test =>
      (summary opts (runs.map TestRun.id) test ((rows.filter fun n => n.name = test).val.map
        (naiveRow snapshot.reports (runs.map TestRun.id)))).cull opts

/-- What an error says of the request. -/
def SearchError.Justified (rq : SearchRequest) (snapshot : Option Snapshot) : SearchError → Prop
  | tooManyRuns n => n = maxRunsPerRequest ∧ maxRunsPerRequest < rq.runIDs.length
  | unknownRun id => id ∈ rq.runIDs
  | badDiffFilter => rq.opts = none
  | noPlan _ => rq.runIDs = [] ∨
      ∃ id ∈ rq.runIDs, ∀ reports ∈ snapshot.map Snapshot.reports, id ∉ reports

/-- What a response says of the request: with no run found there is nothing in it but the runs
ignored, and otherwise its results answer the query. -/
structure SearchResponse.Sound (rq : SearchRequest) (snapshot : Option Snapshot) (code : Nat)
    (resp : SearchResponse) : Prop where
  covers : Seen.Covers ⟨resp.runs.map TestRun.id, resp.runs, resp.ignoredRuns⟩ rq.runIDs
  code_eq : code = if resp.ignoredRuns = [] then 200 else 422
  results : (resp.runs = [] ∧ resp.results = 0 ∧ resp.ignoredRuns ≠ []) ∨
    ∃ opts snap, rq.opts = some opts ∧ snapshot = some snap ∧ resp.runs ≠ [] ∧
      (∀ run ∈ resp.runs, run.id ∈ snap.reports) ∧
        Answers cases rq opts snap resp.runs resp.results

/-- No request panics, and an answer is right. -/
def SearchCall.Sound : SearchCall → Prop
  | .answered rq snapshot (.error err) => err.Justified maxRunsPerRequest rq snapshot
  | .answered rq snapshot (.response code resp) => resp.Sound cases rq snapshot code
  | .panicked => False
  | _ => True

end Spec

/-! ## Requests on their way

While a request is served the index goes on. What the handler has so far is compared with the
snapshot taken when it bound its query, which later steps do not change. -/

section Inv

variable (fingerprint64 : String → UInt64) (names : Set TestName) (cases : CaseMapping)
  (numShards maxRunsPerRequest : Nat)

/-- An execution gives the naive answer over the reports there were when it was bound, shard by
shard. -/
structure Execution.Inv (s : System) (rq : SearchRequest) (seen : Seen) (snapshot : Snapshot)
    (exec : Execution) : Prop where
  covers : seen.Covers rq.runIDs
  opts : rq.opts = some exec.opts
  nonempty : seen.runs ≠ []
  q_eq : exec.q = Service.userQuery rq seen snapshot.fetched
  bound : ∃ bound : System, bound.reports = snapshot.reports ∧
    bound.index.shards.length = numShards ∧ Represents fingerprint64 names numShards bound ∧
    Later bound s ∧ (∀ run ∈ seen.runs, run.id ∈ bound.index.runs) ∧
    bound.index.shards.mapM (fun shard => syncMakeIndex shard (seen.runs.map TestRun.id) ∅) =
      .ok exec.plan
  done : ∀ j results, exec.done.lookup j = some results → results.map unordered =
    shardSearch fingerprint64 numShards cases snapshot.reports (seen.runs.map TestRun.id)
      (bindToRuns snapshot.fetched rq.query seen.runs) exec.opts j

/-- What holds of a request on its way. -/
def SearchCall.Inv (s : System) : SearchCall → Prop
  | .looking rq todo seen =>
    rq.query.Decoded ∧ ∃ looked, rq.runIDs = looked ++ todo ∧ seen.Covers looked
  | .executing rq seen snapshot exec =>
    rq.query.Decoded ∧ exec.Inv fingerprint64 names cases numShards s rq seen snapshot
  | call => call.Sound cases maxRunsPerRequest

/-- **The invariant** of the service. -/
structure Service.Invariant (s : Service) : Prop where
  system : s.system.Invariant numShards
  represents : Represents fingerprint64 names numShards s.system
  keyed : s.system.Keyed
  searches : ∀ k call, s.searches.lookup k = some call →
    call.Inv fingerprint64 names cases numShards maxRunsPerRequest s.system

end Inv

section Proofs

variable {fingerprint64 : String → UInt64} {names : Set TestName} {cases : CaseMapping}
  {numShards maxRunsPerRequest : Nat}

namespace Seen.Covers

theorem empty : Seen.Covers ⟨[], [], []⟩ [] := ⟨rfl, .slnil, .slnil, .nil⟩

variable {seen : Seen} {ids : List RunID} {run : TestRun}

theorem found (h : seen.Covers ids) : Seen.Covers
    { seen with ids := seen.ids ++ [run.id], runs := seen.runs ++ [run] } (ids ++ [run.id]) where
  ids_eq := by simp [h.ids_eq]
  runs := by simpa using h.runs.append (List.Sublist.refl [run.id])
  missing := h.missing.trans (List.sublist_append_left _ _)
  perm := by
    simp only [List.map_append, List.map_cons, List.map_nil, List.append_assoc]
    refine (List.Perm.append_left _ List.perm_append_comm).trans ?_
    rw [← List.append_assoc]
    exact h.perm.append_right _

theorem missed (h : seen.Covers ids) :
    Seen.Covers { seen with missing := seen.missing ++ [run] } (ids ++ [run.id]) where
  ids_eq := h.ids_eq
  runs := h.runs.trans (List.sublist_append_left _ _)
  missing := by simpa using h.missing.append (List.Sublist.refl [run.id])
  perm := by
    simp only [List.map_append, List.map_cons, List.map_nil, ← List.append_assoc]
    exact h.perm.append_right _

end Seen.Covers

/-! ## The steps

A step of the index keeps every request sound, since its snapshot is of the past. A step of a
request adds the runs it looks up, takes the snapshot, or adds the part of one shard. -/

/-- What a request relies on stays true when others move. -/
theorem SearchCall.Inv.later {s s' : System} {call : SearchCall} (hlater : Later s s')
    (h : call.Inv fingerprint64 names cases numShards maxRunsPerRequest s) :
    call.Inv fingerprint64 names cases numShards maxRunsPerRequest s' := by
  cases call with
  | executing rq seen snapshot exec =>
    obtain ⟨hdecoded, hexec⟩ := h
    obtain ⟨bound, hreports, hlen, hrep, hbound, hresident, hplan⟩ := hexec.bound
    exact ⟨hdecoded, { hexec with
      bound := ⟨bound, hreports, hlen, hrep, hbound.trans hlater, hresident, hplan⟩ }⟩
  | looking rq todo seen => exact h
  | answered rq snapshot answer => exact h
  | panicked => exact h

namespace Service.Invariant

variable {s s' : Service}

theorem start : (Service.start numShards).Invariant fingerprint64 names cases numShards
    maxRunsPerRequest where
  system := .start numShards
  represents := .start fingerprint64 names numShards
  keyed := by simp [System.Keyed, Service.start, System.start, ShardedWPTIndex.new]
  searches := by simp [Service.start]

variable (h : s.Invariant fingerprint64 names cases numShards maxRunsPerRequest)

include h

/-- A request that moves leaves the system and the other requests as they are. -/
theorem setSearch {k : Nat} {call : SearchCall}
    (hcall : call.Inv fingerprint64 names cases numShards maxRunsPerRequest s.system) :
    (s.setSearch k call).Invariant fingerprint64 names cases numShards maxRunsPerRequest where
  system := h.system
  represents := h.represents
  keyed := h.keyed
  searches k' call' hcall' := by
    have hlookup : (s.searches.insert k call).lookup k' = some call' := hcall'
    rw [GoMap.lookup_insert_eq_ite] at hlookup
    split_ifs at hlookup with heq
    · cases hlookup
      exact hcall
    · exact h.searches k' call' hlookup

theorem shards_ne_nil (hpos : 1 ≤ numShards) : s.system.index.shards ≠ [] := by
  rw [← List.length_pos_iff, h.system.shards]
  exact hpos

theorem index (hpos : 1 ≤ numShards) (hsep : Separates fingerprint64 names) {label : Label}
    (hloads : label.Loads names) {system : System}
    (hstep : s.system.step fingerprint64 cases label = some system) :
    ({ s with system } : Service).Invariant fingerprint64 names cases numShards
      maxRunsPerRequest := by
  obtain ⟨hlater, hkeyed⟩ := later_of_step hpos h.system hstep
  exact ⟨h.system.step hpos hstep, h.represents.step hpos hsep h.system hloads hstep,
    hkeyed h.keyed, fun k call hcall => (h.searches k call hcall).later hlater⟩

/-- **Step**: the handler looks up one more of its runs; it is in the index, or is found in the
datastore, or is unknown. -/
theorem look {rq : SearchRequest} {id : RunID} {todo : List RunID} {seen : Seen}
    (hcall : (SearchCall.looking rq (id :: todo) seen).Inv fingerprint64 names cases numShards
      maxRunsPerRequest s.system) (stored : Option TestRun) :
    (s.look rq id todo seen stored).Inv fingerprint64 names cases numShards maxRunsPerRequest
      s.system := by
  obtain ⟨hdecoded, looked, hids, hcovers⟩ := hcall
  have hsplit : rq.runIDs = (looked ++ [id]) ++ todo := by simpa using hids
  unfold Service.look
  cases hrun : s.system.index.runs.lookup id with
  | some run =>
    obtain rfl := h.keyed id run hrun
    exact ⟨hdecoded, looked ++ [run.id], hsplit, hcovers.found⟩
  | none =>
    cases stored with
    | none =>
      show id ∈ rq.runIDs
      rw [hids]
      exact List.mem_append_right _ List.mem_cons_self
    | some run =>
      have hmissed : Seen.Covers _ (looked ++ [({ run with id } : TestRun).id]) := hcovers.missed
      exact ⟨hdecoded, looked ++ [id], hsplit, hmissed⟩

omit h in
/-- A plan has an index for each shard, made when the runs of the query were all there. -/
theorem index_bind {runs : List TestRun} {q : ConcreteQuery} {now : RunID → Int}
    {plan : ShardedFilter} {i : ShardedWPTIndex}
    (hplan : (i.bind cases runs (some q) now).2 = .ok plan) : runs ≠ [] ∧
      i.shards.mapM (fun shard => syncMakeIndex shard (runs.map TestRun.id) ∅) =
        .ok (plan.map Prod.fst) := by
  rw [ShardedWPTIndex.bind] at hplan
  split_ifs at hplan with hruns
  refine ⟨hruns, ?_⟩
  simp only [ShardedWPTIndex.syncExtractRuns] at hplan
  cases hidxs : i.shards.mapM fun shard => syncMakeIndex shard (runs.map TestRun.id) ∅ with
  | error err =>
    rw [hidxs] at hplan
    cases hplan
  | ok idxs =>
    rw [hidxs] at hplan
    cases hplan
    rw [List.map_map]
    exact congrArg Except.ok (List.map_id idxs).symm


/-- A run without a plan was not asked for, or was evicted since it was found. -/
theorem noPlan {rq : SearchRequest} {seen : Seen} (hcovers : seen.Covers rq.runIDs)
    (hsome : ¬(seen.runs = [] ∧ seen.missing ≠ [])) (hpos : 1 ≤ numShards) {q : ConcreteQuery}
    {now : RunID → Int} {err : IndexError}
    (herr : (s.system.index.bind cases seen.runs (some q) now).2 = .error err) :
    rq.runIDs = [] ∨ ∃ id ∈ rq.runIDs, id ∉ s.system.reports := by
  by_cases hruns : seen.runs = []
  · have hmissing : seen.missing = [] := by
      by_contra hne
      exact hsome ⟨hruns, hne⟩
    have hperm := hcovers.perm
    rw [hruns, hmissing] at hperm
    exact .inl hperm.symm.eq_nil
  · right
    by_contra hall
    push Not at hall
    have hresident : ∀ run ∈ seen.runs, run.id ∈ s.system.index.runs := by
      intro run hrun
      have hmem := hall run.id (hcovers.runs.subset (List.mem_map_of_mem hrun))
      rwa [← Finmap.mem_keys, h.represents.keys, Finmap.mem_keys] at hmem
    obtain ⟨plan, hplan⟩ := (bind_isOk h.system.resident (h.shards_ne_nil hpos) cases hruns q
      now).mpr hresident
    rw [herr] at hplan
    cases hplan

/-- **Step**: the query is bound to the runs that were found, or the request ends with an error. -/
theorem bind (hpos : 1 ≤ numShards) (hsep : Separates fingerprint64 names) {k : Nat}
    {rq : SearchRequest} {seen : Seen}
    (hcall : (SearchCall.looking rq [] seen).Inv fingerprint64 names cases numShards
      maxRunsPerRequest s.system) (fetched : Fetched) (now : RunID → Int) :
    (s.bind cases k rq seen fetched now).Invariant fingerprint64 names cases numShards
      maxRunsPerRequest := by
  obtain ⟨hdecoded, looked, hids, hcovers⟩ := hcall
  rw [List.append_nil] at hids
  subst hids
  unfold Service.bind
  split_ifs with hnone
  · refine h.setSearch (SearchResponse.Sound.mk ?_ ?_ ?_)
    · obtain ⟨hruns, -⟩ := hnone
      exact ⟨rfl, hruns ▸ hcovers.runs, hcovers.missing, hruns ▸ hcovers.perm⟩
    · exact (if_neg hnone.2).symm
    · exact .inl ⟨rfl, rfl, hnone.2⟩
  · cases hopts : rq.opts with
    | none => exact h.setSearch (show rq.opts = none from hopts)
    | some opts =>
      -- binding is a step of the system, and what it saw is the snapshot of the request
      set q := Service.userQuery rq seen fetched with hq
      have hstep : s.system.step fingerprint64 cases (.bind seen.runs (some q) now) =
          some { s.system with
            index := (s.system.index.bind cases seen.runs (some q) now).1 } := rfl
      have hbound := h.index hpos hsep
        (show Label.Loads names (.bind seen.runs (some q) now) from trivial)
        hstep
      cases hplan : (s.system.index.bind cases seen.runs (some q) now).2 with
      | error err =>
        simp only [hplan]
        refine hbound.setSearch ?_
        rcases h.noPlan hcovers hnone hpos hplan with hempty | ⟨id, hid, hreports⟩
        · exact .inl hempty
        · refine .inr ⟨id, hid, fun reports hmem => ?_⟩
          cases hmem
          exact hreports
      | ok plan =>
        simp only [hplan]
        obtain ⟨hruns, hidxs⟩ := index_bind hplan
        have hresident := (bind_isOk h.system.resident (h.shards_ne_nil hpos) cases hruns q
          now).mp ⟨plan, hplan⟩
        refine hbound.setSearch ⟨hdecoded, hcovers, hopts, hruns, hq, ⟨s.system, rfl,
          h.system.shards, h.represents, (later_of_step hpos h.system hstep).1, hresident, hidxs⟩,
          fun j results hdone => ?_⟩
        rw [Finmap.lookup_empty] at hdone
        cases hdone

/-- **Step**: the plan is executed on one more shard, as it is now. -/
theorem shard (hsep : Separates fingerprint64 names) {rq : SearchRequest} {seen : Seen}
    {snapshot : Snapshot} {exec : Execution} {j : Nat} {shard : WPTIndex} {idx : Index}
    (hcall : (SearchCall.executing rq seen snapshot exec).Inv fingerprint64 names cases numShards
      maxRunsPerRequest s.system) (hshard : s.system.index.shards[j]? = some shard)
    (hidx : exec.plan[j]? = some idx) (order : RangeOrder TestID) :
    (Service.searchShard cases rq seen snapshot exec j shard idx order).Inv fingerprint64 names
      cases numShards maxRunsPerRequest s.system := by
  obtain ⟨hdecoded, hexec⟩ := hcall
  obtain ⟨bound, hreports, hlen, hrep, hlater, hresident, hplan⟩ := hexec.bound
  obtain ⟨old, hold, hmake⟩ := (getElem?_of_mapM_ok hplan).2 j idx hidx
  have hall : ∀ id ∈ seen.runs.map TestRun.id, id ∈ bound.index.runs := by
    intro id hid
    obtain ⟨run, hrun, rfl⟩ := List.mem_map.mp hid
    exact hresident run hrun
  obtain ⟨results, hresults, hpart⟩ := @shard_results_later _ _ cases _ _ _ _ _ hsep hrep
    h.represents hlater hall (asksOnly_bindToRuns snapshot.fetched rq.query seen.runs) _ _ _ _ hold
    hmake hshard exec.opts order
  -- so the shard does not panic
  have hsearch : syncRunFilter order (seen.runs.map TestRun.id) exec.opts
      (idx.withTests shard, newFilter cases (idx.withTests shard) exec.q) = some results := by
    rw [hexec.q_eq, Service.userQuery, hexec.covers.ids_eq]
    exact hresults
  unfold Service.searchShard
  simp only [hsearch]
  refine ⟨hdecoded, { hexec with
    done := fun j' results' hdone => ?_ }⟩
  rw [GoMap.lookup_insert_eq_ite] at hdone
  split_ifs at hdone with heq
  · cases hdone
    rw [heq, hpart, hreports]
  · exact hexec.done j' results' hdone

omit h in
/-- The rows of the naive answer are those that were asked for. -/
theorem mem_selectedRows_iff_asked {rq : SearchRequest} (hdecoded : rq.query.Decoded)
    {opts : AggregationOpts} {snapshot : Snapshot} {runs : List TestRun} {n : TestName} :
    n ∈ selectedRows cases snapshot.reports (runs.map TestRun.id)
        (bindToRuns snapshot.fetched rq.query runs) opts ↔
      Asked cases rq opts snapshot runs n := by
  have hholds : ∀ row, holds cases row (bindToRuns snapshot.fetched rq.query runs) = true ↔
      Holds cases snapshot.fetched row rq.query runs := by
    intro row
    rcases hdecoded with htrue | hwell
    · rw [htrue, bindToRuns, holds_trueQ, Holds]
      exact iff_of_true rfl trivial
    · exact iff_of_eq (congrFun (bound_bindToRuns cases snapshot.fetched row rq.query hwell) runs)
  rw [mem_selectedRows_iff, selected, Bool.and_eq_true, Bool.and_eq_true, hholds, and_assoc,
    Bool.not_eq_true']
  refine and_congr ?_ Iff.rfl
  rw [List.any_map, List.any_eq_true]
  exact exists_congr fun run => and_congr_right fun _ => bne_iff_ne

omit h in
/-- **Step**: when every shard is done, the results are those of the request's snapshot. -/
theorem finish (hpos : 1 ≤ numShards) {rq : SearchRequest} {seen : Seen} {snapshot : Snapshot}
    {exec : Execution}
    (hcall : (SearchCall.executing rq seen snapshot exec).Inv fingerprint64 names cases numShards
      maxRunsPerRequest s.system) (hdone : ∀ j ∈ List.range exec.plan.length, j ∈ exec.done) :
    (Service.finish rq seen snapshot exec).Inv fingerprint64 names cases numShards
      maxRunsPerRequest s.system := by
  obtain ⟨hdecoded, hexec⟩ := hcall
  obtain ⟨bound, hreports, hlen, hrep, -, hresident, hplan⟩ := hexec.bound
  have hids := hexec.covers
  set ids := seen.runs.map TestRun.id with hidsdef
  set q := bindToRuns snapshot.fetched rq.query seen.runs with hq
  -- every test is on one shard, so the shards' answers sum up to the naive one
  have htotal : (((List.range exec.plan.length).map fun j => (exec.done.lookup j).getD 0).sum).map
      unordered = naiveSearch cases snapshot.reports ids q exec.opts := by
    have hparts : (List.range exec.plan.length).map (fun j =>
        ((exec.done.lookup j).getD 0).map unordered) =
          (List.range numShards).map (shardSearch fingerprint64 numShards cases snapshot.reports ids
            q exec.opts) := by
      rw [(getElem?_of_mapM_ok hplan).1, hlen] at hdone ⊢
      refine List.map_congr_left fun j hj => ?_
      obtain ⟨results, hresults⟩ := Finmap.mem_iff.mp (hdone j hj)
      rw [hresults, Option.getD_some]
      exact hexec.done j results hresults
    have hsum := map_list_sum (Multiset.mapAddMonoidHom unordered)
      ((List.range exec.plan.length).map fun j => (exec.done.lookup j).getD 0)
    rw [List.map_map] at hsum
    refine (hsum.trans (congrArg List.sum hparts)).trans ?_
    exact sum_map_parts (fun test _ => Nat.mod_lt _ hpos) _
  refine SearchResponse.Sound.mk ?_ rfl (.inr ⟨exec.opts, snapshot, hexec.opts, rfl,
    hexec.nonempty, fun run hrun => ?_, ?_⟩)
  · exact ⟨rfl, hids.runs, hids.missing, hids.perm⟩
  · rw [← hreports, ← Finmap.mem_keys, hrep.keys, Finmap.mem_keys]
    exact hresident run hrun
  · refine ⟨selectedRows cases snapshot.reports ids q exec.opts,
      fun n => mem_selectedRows_iff_asked hdecoded, ?_⟩
    show Multiset.map unordered (Multiset.map (cull exec.opts) _) = _
    rw [Multiset.map_map,
      show unordered ∘ cull exec.opts = UnorderedResult.cull exec.opts ∘ unordered from rfl,
      ← Multiset.map_map, htotal, naiveSearch, Multiset.map_map]
    rfl

/-- **One step** keeps the invariant, whichever request or call moves. -/
theorem step (hpos : 1 ≤ numShards) (hsep : Separates fingerprint64 names) {label : ServiceLabel}
    (hloads : label.Loads names)
    (hstep : s.step fingerprint64 cases maxRunsPerRequest label = some s') :
    s'.Invariant fingerprint64 names cases numShards maxRunsPerRequest := by
  cases label with
  | index label =>
    obtain ⟨system, hsystem, rfl⟩ := Option.map_eq_some_iff.mp hstep
    exact h.index hpos hsep hloads hsystem
  | request k rq =>
    rw [Service.step] at hstep
    split_ifs at hstep
    cases hstep
    refine h.setSearch ?_
    unfold Service.request
    split_ifs with hmany
    · exact ⟨rfl, hmany⟩
    · exact ⟨hloads, [], rfl, .empty⟩
  | look k stored =>
    rw [Service.step] at hstep
    split at hstep <;> cases hstep
    next hk => exact h.setSearch (h.look (h.searches k _ hk) stored)
  | bind k fetched now =>
    rw [Service.step] at hstep
    split at hstep <;> cases hstep
    next hk => exact h.bind hpos hsep (h.searches k _ hk) fetched now
  | shard k j order =>
    rw [Service.step] at hstep
    split at hstep
    · next hk =>
      split at hstep
      · next hshard hidx =>
        split_ifs at hstep
        cases hstep
        exact h.setSearch (h.shard hsep (h.searches k _ hk) hshard hidx order)
      · cases hstep
    · cases hstep
  | answer k =>
    rw [Service.step] at hstep
    split at hstep
    · next hk =>
      split_ifs at hstep with hdone
      cases hstep
      exact h.setSearch (finish hpos (h.searches k _ hk) hdone)
    · cases hstep

end Service.Invariant

end Proofs

end WptFyi.Cache
