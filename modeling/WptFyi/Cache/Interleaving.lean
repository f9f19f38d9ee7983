import WptFyi.Cache.Residency
import WptFyi.Lib.Runs

/-!
# Concurrent calls on the sharded index

Any number of `IngestRun`, `EvictRuns` and `Bind` calls run at once. What they
do under the index's lock is one step each; `IngestRun` has three such steps
and loads the report between the first two. The label of a step says which call
moves and resolves every choice: the report that was loaded, the orders in which
maps are visited, the times, the listing an eviction works on.

The invariant is there to show that a store never fails. Between the mark and the store of a call
others can do anything, and the store is an error when the run is already there; that would lose
the run's results silently, since the error is only logged. So the invariant has to say that nobody
else has stored the run: whoever stores a run has marked it first, a mark is refused while the ID is
in flight or resident, and the ID stays in flight until the call that marked it clears it
(`InFlightMatches`: the IDs in flight are those of the calls between mark and clear, each of one
call). A run that a call may still store is therefore not resident (`IngestCall.pendingID`), and
the data that it brings has one part for each shard (`DataFits`), which is what the loop over the
shards needs. With `Resident` for the rest, every step is one of the equations of `Residency`.

The history variable `reports` remembers what each resident run was ingested from. No step reads it;
it is what the results of searches are compared with later.

- `System.step`: one step of one call;
- `Invariant`: the records of residency agree, and the IDs in flight are those
  of the calls between mark and clear, each of one call;
- `Invariant.step`, `Invariant.reachable`: a step keeps it, and so does every run;
- `reachable_consistent`: what follows in every reachable state, with the error
  branches that cannot be taken.
-/

namespace WptFyi.Cache

open Lib Query Shared

/-- Where an `IngestRun` call stands. -/
inductive IngestCall where
  /-- Marked; the report is being loaded. -/
  | loading (run : TestRun)
  /-- The report is cut into the data of the shards. -/
  | storing (run : TestRun) (report : Report) (data : List ShardData)
  /-- About to run the deferred clear, and to return `err`. -/
  | clearing (run : TestRun) (err : Option IndexError)
  | returned (err : Option IndexError)

/-- The run of a call between its mark and its clear. -/
def IngestCall.inFlightID : IngestCall → Option RunID
  | loading run => some run.id
  | storing run _ _ => some run.id
  | clearing run _ => some run.id
  | returned _ => none

/-- The index and the ingestions. `reports` is a history variable: the report
that each resident run was ingested from. -/
structure System where
  index : ShardedWPTIndex
  calls : GoMap Nat IngestCall
  reports : GoMap RunID Report

/-- The steps. -/
inductive Label where
  | mark (c : Nat) (run : TestRun)
  | load (c : Nat) (outcome : Except String Report) (order : String → RangeOrder String)
  | store (c : Nat) (now : Int)
  | clear (c : Nat)
  | evict (percent : Percent) (entries : List (Σ _ : Int, Int))
  | bind (runs : List TestRun) (q : Option ConcreteQuery) (now : RunID → Int)

namespace System

/-- The system before any call, over a new index. -/
def start (numShards : Nat) : System := ⟨.new numShards, ∅, ∅⟩

/-- The call `c` goes on to `call`. -/
def setCall (s : System) (c : Nat) (call : IngestCall) : System :=
  { s with calls := s.calls.insert c call }

section Steps

variable (fingerprint64 : String → UInt64) (cases : CaseMapping)

/-- `IngestRun` up to its mark. -/
def mark (s : System) (c : Nat) (run : TestRun) : System :=
  if run.id = 0 then s.setCall c (.returned (some .zeroRun))
  else match s.index.syncMarkInProgress run with
    | (index, some err) => { s with index }.setCall c (.returned (some err))
    | (index, none) => { s with index }.setCall c (.loading run)

/-- The part of `IngestRun` between the locked steps. -/
def load (s : System) (c : Nat) (run : TestRun) (outcome : Except String Report)
    (order : String → RangeOrder String) : System :=
  match outcome with
  | .error message => s.setCall c (.clearing run (some (.loadFailed message)))
  | .ok report =>
    match shardReport fingerprint64 order report.results
        (List.replicate s.index.shards.length ∅) with
    | .error err => s.setCall c (.clearing run (some err))
    | .ok data => s.setCall c (.storing run report data)

/-- The store; an error is only logged. -/
def store (s : System) (c : Nat) (run : TestRun) (report : Report) (data : List ShardData)
    (now : Int) : System :=
  match s.index.syncStoreRun run data now with
  | (index, some _) => { s with index }.setCall c (.clearing run none)
  | (index, none) =>
    { s with index, reports := s.reports.insert run.id report }.setCall c (.clearing run none)

/-- The deferred clear; an error is only logged. -/
def clear (s : System) (c : Nat) (run : TestRun) (err : Option IndexError) : System :=
  { s with index := (s.index.syncClearInProgress run).1 }.setCall c (.returned err)

/-- `EvictRuns`. -/
def evict (s : System) (percent : Percent) (entries : List (Σ _ : Int, Int)) : System :=
  { s with
    index := (s.index.syncEvictRuns percent entries).1
    reports := s.reports.eraseAll (s.index.lru.evictLRU percent entries).1 }

/-- The steps that are enabled. -/
def step (s : System) : Label → Option System
  | .mark c run => if c ∈ s.calls then none else some (s.mark c run)
  | .load c outcome order =>
    match s.calls.lookup c with
    | some (.loading run) => some (s.load fingerprint64 c run outcome order)
    | _ => none
  | .store c now =>
    match s.calls.lookup c with
    | some (.storing run report data) => some (s.store c run report data now)
    | _ => none
  | .clear c =>
    match s.calls.lookup c with
    | some (.clearing run err) => some (s.clear c run err)
    | _ => none
  | .evict percent entries =>
    if s.index.lru.IsListing entries then some (s.evict percent entries) else none
  | .bind runs q now => some { s with index := (s.index.bind cases runs q now).1 }

/-- The steps there are, with what each one finds. -/
inductive Moves (s : System) : Label → System → Prop where
  | mark {c : Nat} {run : TestRun} (hc : c ∉ s.calls) : Moves s (.mark c run) (s.mark c run)
  | load {c : Nat} {run : TestRun} (hc : s.calls.lookup c = some (.loading run))
    (outcome : Except String Report) (order : String → RangeOrder String) :
    Moves s (.load c outcome order) (s.load fingerprint64 c run outcome order)
  | store {c : Nat} {run : TestRun} {report : Report} {data : List ShardData}
    (hc : s.calls.lookup c = some (.storing run report data)) (now : Int) :
    Moves s (.store c now) (s.store c run report data now)
  | clear {c : Nat} {run : TestRun} {err : Option IndexError}
    (hc : s.calls.lookup c = some (.clearing run err)) : Moves s (.clear c) (s.clear c run err)
  | evict (percent : Percent) {entries : List (Σ _ : Int, Int)}
    (hentries : s.index.lru.IsListing entries) :
    Moves s (.evict percent entries) (s.evict percent entries)
  | bind (runs : List TestRun) (q : Option ConcreteQuery) (now : RunID → Int) :
    Moves s (.bind runs q now) { s with index := (s.index.bind cases runs q now).1 }

variable {fingerprint64 cases}

theorem moves_of_step {s s' : System} {label : Label}
    (h : s.step fingerprint64 cases label = some s') : Moves fingerprint64 cases s label s' := by
  cases label with
  | mark c run =>
    rw [step] at h
    split_ifs at h with hc
    cases h
    exact .mark hc
  | load c outcome order =>
    rw [step] at h
    split at h
    · next hc =>
      cases h
      exact .load hc outcome order
    · cases h
  | store c now =>
    rw [step] at h
    split at h
    · next hc =>
      cases h
      exact .store hc now
    · cases h
  | clear c =>
    rw [step] at h
    split at h
    · next hc =>
      cases h
      exact .clear hc
    · cases h
  | evict percent entries =>
    rw [step] at h
    split_ifs at h with hentries
    cases h
    exact .evict percent hentries
  | bind runs q now =>
    cases h
    exact .bind runs q now

end Steps

end System

/-! ## The calls

The invariant follows one ID at a time: it is in flight exactly while one call stands between its
mark and its clear, and that call alone stores it. What the call has loaded fits the shards. -/

/-- The IDs in flight are those of the calls between mark and clear, each of one
call. -/
structure InFlightMatches (calls : GoMap Nat IngestCall) (inFlight : Finset RunID) : Prop where
  mem_iff : ∀ id, id ∈ inFlight ↔
    ∃ c call, calls.lookup c = some call ∧ call.inFlightID = some id
  unique : ∀ {c c' call call' id}, calls.lookup c = some call → calls.lookup c' = some call' →
    call.inFlightID = some id → call'.inFlightID = some id → c = c'

namespace InFlightMatches

variable {calls : GoMap Nat IngestCall} {inFlight : Finset RunID} {c : Nat}
  {call next : IngestCall} {id : RunID}

/-- A call goes on and keeps its ID. -/
theorem keep (h : InFlightMatches calls inFlight) (hc : calls.lookup c = some call)
    (hnext : next.inFlightID = call.inFlightID) :
    InFlightMatches (calls.insert c next) inFlight := by
  -- every call that is there afterwards stands for one that was there and is in flight for the same
  -- run
  have hold : ∀ {c' call'}, (calls.insert c next).lookup c' = some call' →
      ∃ old, calls.lookup c' = some old ∧ old.inFlightID = call'.inFlightID := by
    intro c' call' hcall'
    rw [GoMap.lookup_insert_eq_ite] at hcall'
    split_ifs at hcall' with heq
    · cases hcall'
      exact ⟨call, heq ▸ hc, hnext.symm⟩
    · exact ⟨call', hcall', rfl⟩
  constructor
  · intro id
    rw [h.mem_iff]
    constructor
    · rintro ⟨c', call', hcall', hid⟩
      by_cases heq : c' = c
      · subst heq
        cases hc.symm.trans hcall'
        exact ⟨c', next, Finmap.lookup_insert _, hnext.trans hid⟩
      · exact ⟨c', call', by rw [Finmap.lookup_insert_of_ne _ heq]; exact hcall', hid⟩
    · rintro ⟨c', call', hcall', hid⟩
      obtain ⟨old, hlookup, hsame⟩ := hold hcall'
      exact ⟨c', old, hlookup, hsame.trans hid⟩
  · intro c₁ c₂ call₁ call₂ id h₁ h₂ hid₁ hid₂
    obtain ⟨old₁, hlookup₁, hsame₁⟩ := hold h₁
    obtain ⟨old₂, hlookup₂, hsame₂⟩ := hold h₂
    exact h.unique hlookup₁ hlookup₂ (hsame₁.trans hid₁) (hsame₂.trans hid₂)

/-- A new call that holds no ID. -/
theorem add_idle (h : InFlightMatches calls inFlight) (hc : c ∉ calls)
    (hnext : next.inFlightID = none) : InFlightMatches (calls.insert c next) inFlight := by
  have hold : ∀ {c' call' id}, (calls.insert c next).lookup c' = some call' →
      call'.inFlightID = some id → calls.lookup c' = some call' := by
    intro c' call' id hcall' hid
    rw [GoMap.lookup_insert_eq_ite] at hcall'
    split_ifs at hcall' with heq
    · cases hcall'
      rw [hnext] at hid
      cases hid
    · exact hcall'
  constructor
  · intro id
    rw [h.mem_iff]
    constructor
    · rintro ⟨c', call', hcall', hid⟩
      have hne : c' ≠ c := fun heq => hc (heq ▸ Finmap.mem_of_lookup_eq_some hcall')
      exact ⟨c', call', by rw [Finmap.lookup_insert_of_ne _ hne]; exact hcall', hid⟩
    · rintro ⟨c', call', hcall', hid⟩
      exact ⟨c', call', hold hcall' hid, hid⟩
  · intro c₁ c₂ call₁ call₂ id h₁ h₂ hid₁ hid₂
    exact h.unique (hold h₁ hid₁) (hold h₂ hid₂) hid₁ hid₂

/-- A new call takes an ID that is free. -/
theorem add_marked (h : InFlightMatches calls inFlight) (hc : c ∉ calls)
    (hnext : next.inFlightID = some id) (hfree : id ∉ inFlight) :
    InFlightMatches (calls.insert c next) (insert id inFlight) := by
  -- a call that holds an ID is the new one, or an old one with another ID
  have hold : ∀ {c' call' id'}, (calls.insert c next).lookup c' = some call' →
      call'.inFlightID = some id' → (c' = c ∧ id' = id) ∨
        (c' ≠ c ∧ id' ≠ id ∧ calls.lookup c' = some call') := by
    intro c' call' id' hcall' hid'
    rw [GoMap.lookup_insert_eq_ite] at hcall'
    split_ifs at hcall' with heq
    · cases hcall'
      exact Or.inl ⟨heq, Option.some_inj.mp (hid'.symm.trans hnext)⟩
    · refine Or.inr ⟨heq, ?_, hcall'⟩
      rintro rfl
      exact hfree ((h.mem_iff id').mpr ⟨c', call', hcall', hid'⟩)
  constructor
  · intro id'
    rw [Finset.mem_insert, h.mem_iff]
    constructor
    · rintro (rfl | ⟨c', call', hcall', hid'⟩)
      · exact ⟨c, next, Finmap.lookup_insert _, hnext⟩
      · have hne : c' ≠ c := fun heq => hc (heq ▸ Finmap.mem_of_lookup_eq_some hcall')
        exact ⟨c', call', by rw [Finmap.lookup_insert_of_ne _ hne]; exact hcall', hid'⟩
    · rintro ⟨c', call', hcall', hid'⟩
      rcases hold hcall' hid' with ⟨_, rfl⟩ | ⟨_, _, hlookup⟩
      · exact Or.inl rfl
      · exact Or.inr ⟨c', call', hlookup, hid'⟩
  · intro c₁ c₂ call₁ call₂ id' h₁ h₂ hid₁ hid₂
    rcases hold h₁ hid₁ with ⟨rfl, rfl⟩ | ⟨_, hne₁, hlookup₁⟩
    · rcases hold h₂ hid₂ with ⟨rfl, _⟩ | ⟨_, hne₂, _⟩
      · rfl
      · exact absurd rfl hne₂
    · rcases hold h₂ hid₂ with ⟨_, rfl⟩ | ⟨_, _, hlookup₂⟩
      · exact absurd rfl hne₁
      · exact h.unique hlookup₁ hlookup₂ hid₁ hid₂

/-- A call gives its ID back. -/
theorem release (h : InFlightMatches calls inFlight) (hc : calls.lookup c = some call)
    (hcall : call.inFlightID = some id) (hnext : next.inFlightID = none) :
    InFlightMatches (calls.insert c next) (inFlight.erase id) := by
  -- no other call is in flight for the run that is released
  have hold : ∀ {c' call' id'}, (calls.insert c next).lookup c' = some call' →
      call'.inFlightID = some id' → id' ≠ id ∧ calls.lookup c' = some call' := by
    intro c' call' id' hcall' hid'
    rw [GoMap.lookup_insert_eq_ite] at hcall'
    split_ifs at hcall' with heq
    · cases hcall'
      rw [hnext] at hid'
      cases hid'
    · refine ⟨?_, hcall'⟩
      rintro rfl
      exact heq (h.unique hcall' hc hid' hcall)
  constructor
  · intro id'
    rw [Finset.mem_erase, h.mem_iff]
    constructor
    · rintro ⟨hne, c', call', hcall', hid'⟩
      have hother : c' ≠ c := by
        rintro rfl
        cases hc.symm.trans hcall'
        exact hne (Option.some_inj.mp (hid'.symm.trans hcall))
      exact ⟨c', call', by rw [Finmap.lookup_insert_of_ne _ hother]; exact hcall', hid'⟩
    · rintro ⟨c', call', hcall', hid'⟩
      obtain ⟨hne, hlookup⟩ := hold hcall' hid'
      exact ⟨hne, c', call', hlookup, hid'⟩
  · intro c₁ c₂ call₁ call₂ id' h₁ h₂ hid₁ hid₂
    exact h.unique (hold h₁ hid₁).2 (hold h₂ hid₂).2 hid₁ hid₂

end InFlightMatches

/-- The run of a call that may still store it. -/
def IngestCall.pendingID : IngestCall → Option RunID
  | loading run => some run.id
  | storing run _ _ => some run.id
  | _ => none

theorem IngestCall.inFlightID_of_pendingID {call : IngestCall} {id : RunID}
    (h : call.pendingID = some id) : call.inFlightID = some id := by
  cases call with
  | loading run => exact h
  | storing run report data => exact h
  | clearing run err => cases h
  | returned err => cases h

/-- A call that is about to store has data for every shard. -/
def IngestCall.DataFits (numShards : Nat) : IngestCall → Prop
  | storing _ _ data => data.length = numShards
  | _ => True

/-- Distributing the results of a report keeps the number of shards. -/
theorem length_shardReport {fingerprint64 : String → UInt64} {order : String → RangeOrder String}
    {results : List TestResults} {shardData data : List ShardData}
    (h : shardReport fingerprint64 order results shardData = .ok data) :
    data.length = shardData.length := by
  induction results generalizing shardData with
  | nil =>
    cases h
    rfl
  | cons res results ih =>
    rw [shardReport] at h
    split at h
    · cases h
    · rw [ih h, List.length_set]

/-- **The invariant** of the system. -/
structure System.Invariant (numShards : Nat) (s : System) : Prop where
  resident : Resident s.index
  shards : s.index.shards.length = numShards
  inFlight : InFlightMatches s.calls s.index.inFlight
  pending : ∀ {c call id}, s.calls.lookup c = some call → call.pendingID = some id →
    id ∉ s.index.runs
  data : ∀ {c call}, s.calls.lookup c = some call → call.DataFits numShards

namespace System.Invariant

variable {numShards : Nat} {fingerprint64 : String → UInt64} {cases : CaseMapping} {s : System}

theorem start (numShards : Nat) : (System.start numShards).Invariant numShards where
  resident := Resident.new numShards
  shards := List.length_replicate
  inFlight := ⟨by simp [System.start, ShardedWPTIndex.new], by simp [System.start]⟩
  pending := by simp [System.start]
  data := by simp [System.start]

/-- What is known of every call stays known when one call goes on. -/
theorem forall_insert {P : IngestCall → Prop} {calls : GoMap Nat IngestCall} {c : Nat}
    {next : IngestCall} (h : ∀ {c call}, calls.lookup c = some call → P call) (hnext : P next)
    {c' : Nat} {call' : IngestCall} (hcall' : (calls.insert c next).lookup c' = some call') :
    P call' := by
  rw [GoMap.lookup_insert_eq_ite] at hcall'
  split_ifs at hcall' with heq
  · cases hcall'
    exact hnext
  · exact h hcall'

/-- A step of a call that leaves the runs as they are. -/
theorem setCall_of_runs_eq (h : s.Invariant numShards) {index : ShardedWPTIndex} {c : Nat}
    {next : IngestCall} {reports : GoMap RunID Report} (hresident : Resident index)
    (hshards : index.shards = s.index.shards) (hruns : index.runs = s.index.runs)
    (hinFlight : InFlightMatches (s.calls.insert c next) index.inFlight)
    (hpending : ∀ id, next.pendingID = some id → id ∉ s.index.runs)
    (hdata : next.DataFits numShards) :
    ({ index, calls := s.calls.insert c next, reports } : System).Invariant numShards where
  resident := hresident
  shards := by rw [hshards, h.shards]
  inFlight := hinFlight
  pending := by
    intro c' call' id hcall' hid
    rw [hruns]
    have hall := @forall_insert (fun call => ∀ id, call.pendingID = some id → id ∉ s.index.runs)
      s.calls c next (fun hcall _ hid => h.pending hcall hid) hpending c' call' hcall'
    exact hall id hid
  data := forall_insert h.data hdata

/-- **Step**: marking a run as in progress. -/
theorem mark (h : s.Invariant numShards) {c : Nat} (hc : c ∉ s.calls) (run : TestRun) :
    (s.mark c run).Invariant numShards := by
  unfold System.mark ShardedWPTIndex.syncMarkInProgress
  split_ifs with hzero hexists hloading
  · exact h.setCall_of_runs_eq h.resident rfl rfl (h.inFlight.add_idle hc rfl)
      (by simp [IngestCall.pendingID]) trivial
  · exact h.setCall_of_runs_eq h.resident rfl rfl (h.inFlight.add_idle hc rfl)
      (by simp [IngestCall.pendingID]) trivial
  · exact h.setCall_of_runs_eq h.resident rfl rfl (h.inFlight.add_idle hc rfl)
      (by simp [IngestCall.pendingID]) trivial
  · refine h.setCall_of_runs_eq ⟨h.resident.lru, h.resident.results⟩ rfl rfl
      (h.inFlight.add_marked hc rfl hloading) ?_ trivial
    intro id hid
    cases hid
    exact hexists

/-- **Step**: the report of a run is loaded and distributed, or the call ends. -/
theorem load (h : s.Invariant numShards) {c : Nat} {run : TestRun}
    (hc : s.calls.lookup c = some (.loading run)) (outcome : Except String Report)
    (order : String → RangeOrder String) :
    (s.load fingerprint64 c run outcome order).Invariant numShards := by
  unfold System.load
  cases outcome with
  | error message =>
    exact h.setCall_of_runs_eq h.resident rfl rfl (h.inFlight.keep hc rfl)
      (by simp [IngestCall.pendingID]) trivial
  | ok report =>
    simp only
    split
    · exact h.setCall_of_runs_eq h.resident rfl rfl (h.inFlight.keep hc rfl)
        (by simp [IngestCall.pendingID]) trivial
    · next data hdata =>
      refine h.setCall_of_runs_eq h.resident rfl rfl (h.inFlight.keep hc rfl) ?_ ?_
      · intro id hid
        exact h.pending hc hid
      · rw [IngestCall.DataFits, length_shardReport hdata, List.length_replicate, h.shards]

/-- **Step**: the run is stored in all shards and its mark is cleared. -/
theorem store (h : s.Invariant numShards) {c : Nat} {run : TestRun} {report : Report}
    {data : List ShardData} (hc : s.calls.lookup c = some (.storing run report data)) (now : Int) :
    (s.store c run report data now).Invariant numShards := by
  have hrun : run.id ∉ s.index.runs := h.pending hc rfl
  have hlen : data.length = s.index.shards.length := (h.data hc).trans h.shards.symm
  have hresident := h.resident.syncStoreRun hrun hlen now
  rw [System.store]
  rw [syncStoreRun_spec h.resident hrun hlen] at hresident ⊢
  constructor
  · exact hresident
  · show (List.zipWith _ s.index.shards data).length = numShards
    rw [List.length_zipWith, hlen, min_self, h.shards]
  · exact h.inFlight.keep hc rfl
  · intro c' call' id hcall' hid
    show id ∉ s.index.runs.insert run.id run
    have hcall : (s.calls.insert c (.clearing run none)).lookup c' = some call' := hcall'
    rw [GoMap.lookup_insert_eq_ite] at hcall
    split_ifs at hcall with heq
    · cases hcall
      cases hid
    · rw [Finmap.mem_insert, not_or]
      refine ⟨?_, h.pending hcall hid⟩
      -- no other call holds the ID that is stored
      rintro rfl
      exact heq (h.inFlight.unique hcall hc (IngestCall.inFlightID_of_pendingID hid) rfl)
  · intro c' call' hcall'
    exact @forall_insert (IngestCall.DataFits numShards) s.calls c (.clearing run none) h.data
      trivial c' call' hcall'

theorem clear (h : s.Invariant numShards) {c : Nat} {run : TestRun} {err : Option IndexError}
    (hc : s.calls.lookup c = some (.clearing run err)) :
      (s.clear c run err).Invariant numShards := by
  have hmem : run.id ∈ s.index.inFlight := (h.inFlight.mem_iff _).mpr ⟨c, _, hc, rfl⟩
  unfold System.clear ShardedWPTIndex.syncClearInProgress
  rw [if_pos hmem]
  exact h.setCall_of_runs_eq ⟨h.resident.lru, h.resident.results⟩ rfl rfl
    (h.inFlight.release hc rfl rfl) (by simp [IngestCall.pendingID]) trivial

/-- **Step**: the runs that the LRU gives up leave the index and every shard. -/
theorem evict (h : s.Invariant numShards) (percent : Percent) {entries : List (Σ _ : Int, Int)}
    (hentries : s.index.lru.IsListing entries) : (s.evict percent entries).Invariant numShards := by
  have hresident := h.resident.syncEvictRuns percent hentries
  rcases syncEvictRuns_spec h.resident percent hentries with ⟨_, heq⟩ | ⟨_, _, heq⟩
  · rw [System.evict, heq]
    exact ⟨h.resident, h.shards, h.inFlight, h.pending, h.data⟩
  · rw [System.evict]
    rw [heq] at hresident ⊢
    refine ⟨hresident, ?_, h.inFlight, ?_, h.data⟩
    · show (s.index.shards.map _).length = numShards
      rw [List.length_map, h.shards]
    · intro c call id hcall hid
      show id ∉ s.index.runs.eraseAll _
      rw [← Finmap.mem_keys, GoMap.keys_eraseAll]
      exact fun hmem => h.pending hcall hid (Finmap.mem_keys.mp (Finset.mem_sdiff.mp hmem).1)

theorem bind (h : s.Invariant numShards) (hpos : 1 ≤ numShards) (runs : List TestRun)
    (q : Option ConcreteQuery) (now : RunID → Int) :
    ({ s with index := (s.index.bind cases runs q now).1 } : System).Invariant numShards := by
  have hshards : s.index.shards ≠ [] := by
    rw [← List.length_pos_iff, h.shards]
    exact hpos
  obtain ⟨lru, heq, hkeys⟩ := bind_index_spec h.resident hshards cases runs q now
  rw [heq]
  exact ⟨⟨hkeys, h.resident.results⟩, h.shards, h.inFlight, h.pending, h.data⟩

/-- **One step** keeps the invariant, whichever call moves. -/
theorem step (hpos : 1 ≤ numShards) {label : Label} {s' : System} (h : s.Invariant numShards)
    (hstep : s.step fingerprint64 cases label = some s') : s'.Invariant numShards := by
  cases System.moves_of_step hstep with
  | mark hc => exact h.mark hc _
  | load hc outcome order => exact h.load hc outcome order
  | store hc now => exact h.store hc now
  | clear hc => exact h.clear hc
  | evict percent hentries => exact h.evict percent hentries
  | bind runs q now => exact h.bind hpos runs q now

/-- **Every run** keeps it. -/
theorem reachable (hpos : 1 ≤ numShards)
    (h : Reachable (System.step fingerprint64 cases) (System.start numShards) s) :
    s.Invariant numShards :=
  Reachable.invariant (System.Invariant.start numShards) (fun h hstep => h.step hpos hstep) h

end System.Invariant

/-! ## What holds between the steps

The invariant read from outside, without the calls: what is resident, and what `Bind` says about a
list of runs. -/

/-- What the calls can rely on. -/
structure System.Consistent (cases : CaseMapping) (s : System) : Prop where
  lruKeys : s.index.lru.values.keys = s.index.runs.keys
  shardKeys : ∀ shard ∈ s.index.shards, shard.results.keys = s.index.runs.keys
  inFlight_iff : ∀ id, id ∈ s.index.inFlight ↔
    ∃ c call, s.calls.lookup c = some call ∧ call.inFlightID = some id
  oneIngest : ∀ c c' call call' id, s.calls.lookup c = some call → s.calls.lookup c' = some call' →
    call.inFlightID = some id → call'.inFlightID = some id → c = c'
  /-- A store is of a run that is not there, and does not fail. -/
  store : ∀ c run report data now, s.calls.lookup c = some (.storing run report data) →
    run.id ∉ s.index.runs ∧ (s.index.syncStoreRun run data now).2 = none
  clear : ∀ c run err, s.calls.lookup c = some (.clearing run err) →
    (s.index.syncClearInProgress run).2 = none
  /-- An eviction fails when there is nothing to evict, and not half-way. -/
  evict : ∀ percent entries err, s.index.lru.IsListing entries →
    (s.index.syncEvictRuns percent entries).2 = .error err → err = .noRuns ∧ s.index.runs = ∅
  bind : ∀ runs q now, runs ≠ [] →
    ((∃ plan, (s.index.bind cases runs (some q) now).2 = .ok plan) ↔
      ∀ run ∈ runs, run.id ∈ s.index.runs)

/-- What callers can see follows from the invariant. -/
theorem System.Invariant.consistent {numShards : Nat} (hpos : 1 ≤ numShards) {s : System}
    (h : s.Invariant numShards) (cases : CaseMapping) : s.Consistent cases where
  lruKeys := h.resident.lru
  shardKeys := h.resident.results
  inFlight_iff := h.inFlight.mem_iff
  oneIngest _ _ _ _ _ := h.inFlight.unique
  store c run report data now hc := by
    have hrun : run.id ∉ s.index.runs := h.pending hc rfl
    have hlen : data.length = s.index.shards.length := (h.data hc).trans h.shards.symm
    exact ⟨hrun, by rw [syncStoreRun_spec h.resident hrun hlen]⟩
  clear c run err hc := by
    have hmem : run.id ∈ s.index.inFlight := (h.inFlight.mem_iff _).mpr ⟨c, _, hc, rfl⟩
    rw [ShardedWPTIndex.syncClearInProgress, if_pos hmem]
  evict percent entries err hentries herr := by
    rcases syncEvictRuns_spec h.resident percent hentries with ⟨hempty, heq⟩ | ⟨_, _, heq⟩
    · rw [heq] at herr
      cases herr
      exact ⟨rfl, hempty⟩
    · rw [heq] at herr
      cases herr
  bind runs q now hruns := by
    have hshards : s.index.shards ≠ [] := by
      rw [← List.length_pos_iff, h.shards]
      exact hpos
    exact bind_isOk h.resident hshards cases hruns q now

/-- **Consistency under concurrency**: in every state that calls can reach by
any interleaving of their steps, the records of residency agree, a run is
ingested by one call at a time, and stores, clears and evictions do not fail. -/
theorem reachable_consistent {numShards : Nat} (hpos : 1 ≤ numShards)
    (fingerprint64 : String → UInt64) (cases : CaseMapping) {s : System}
    (h : Reachable (System.step fingerprint64 cases) (System.start numShards) s) :
    s.Consistent cases :=
  (System.Invariant.reachable hpos h).consistent hpos cases

/-- Two calls that ingest one run, and a third that ingests another. -/
def overlappingIngests : List Label :=
  [.mark 0 { id := 1, browserName := "chrome" }, .mark 1 { id := 1, browserName := "chrome" },
    .mark 2 { id := 2, browserName := "firefox" },
    .load 2 (.ok ⟨[⟨"/a.html", "OK", []⟩]⟩) fun _ => sortedOrder id Function.injective_id,
    .load 0 (.ok ⟨[]⟩) fun _ => sortedOrder id Function.injective_id,
    .store 2 10, .store 0 11, .clear 0, .clear 2]

theorem consistent_overlappingIngests :
    ∃ s, run (System.step (fun _ => 7) ⟨id, (· == ·)⟩) (System.start 2) overlappingIngests =
        some s ∧
      s.Consistent ⟨id, (· == ·)⟩ := by
  obtain ⟨s, hs⟩ : ∃ s, run (System.step (fun _ => 7) ⟨id, (· == ·)⟩) (System.start 2)
      overlappingIngests = some s := ⟨_, rfl⟩
  exact ⟨s, hs, reachable_consistent (by decide) (fun _ => 7) ⟨id, (· == ·)⟩
    ⟨overlappingIngests, hs⟩⟩

end WptFyi.Cache
