import WptFyi.Cache.Interleaving
import WptFyi.Lib.Float64

/-!
# Evictions (`cache/index/index.go`, `cache/lru/lru.go`)

`EvictRuns` takes a fraction as a double, clamps it, and has the LRU clamp it once more and
multiply it by the number of runs. What an eviction is to remove is told from the accesses
of the run before it: the time at which each was made by a store or by a search.

The times in the LRU are state; the accesses of a history are not. `accessLog` computes the latter
from the labels of a run, each with the state it met, since a store that fails or a search with an
unknown run makes no access. `lastAccess_of_run` is the invariant that connects the two: whatever
the LRU keeps has the time of its last access in the log. It is kept by evictions because they only
remove entries, and by stores and searches because the last write to an entry is the last access.

The number of runs to remove is the floor of a product of doubles, and the product is rounded to the
nearest one. Below `2 ^ 53` rounding cannot lead past a whole number (`Lib.Float64`), so the number
is the whole number before or after the exact product; with three runs and the double nearest to two
thirds it is the one after.

- `ShardedWPTIndex.evictRuns`: the method, for a fraction that is rounded to a double;
- `accessLog`, `lastAccess`: the accesses of a run, and the last one to a test run;
- `Evicts`: what an eviction does to the index;
- `floorOfProduct_bounds`: what the rounding can do to the number;
- `evictRuns_evicts`: so many runs go, the ones accessed longest ago; the number is that of
  the rounded product, which can be one more than the fraction has.
-/

namespace WptFyi.Cache

open Lib Query Shared

/-! ## The number of runs

`EvictLRU` multiplies a `float64` with the length and cuts off the fraction. The product is rounded
to the nearest `float64`, and it is what is rounded that is cut, so the number can be one more than
the fraction says. -/

/-- `math.Max(0.0, math.Min(1.0, percent))`. -/
def clampPercent (percent : ℚ) : ℚ := max 0 (min 1 percent)

/-- `math.Floor(float64(n) * percent)`. -/
def floorOfProduct (percent : ℚ) (n : Nat) : Nat :=
  ⌊Float64.round (Float64.round n * percent)⌋.toNat

/-- The percentage of `EvictLRU`. From `2 ^ 53` entries on, more than a map can have, the product
could be rounded to more than there are (`floorOf_ofFloat_of_lt`). -/
def Percent.ofFloat (percent : ℚ) : Percent where
  floorOf n := min n (floorOfProduct (clampPercent percent) n)
  floorOf_le _ := min_le_left _ _

/-- `EvictRuns`, of a fraction that is rounded to a double. -/
def ShardedWPTIndex.evictRuns (i : ShardedWPTIndex) (percent : ℚ)
    (entries : List (Σ _ : Int, Int)) : ShardedWPTIndex × Except IndexError Nat :=
  i.syncEvictRuns (.ofFloat (clampPercent (Float64.round percent))) entries

theorem clampPercent_mem (percent : ℚ) : 0 ≤ clampPercent percent ∧ clampPercent percent ≤ 1 :=
  ⟨le_max_left _ _, max_le zero_le_one (min_le_left _ _)⟩

@[simp] theorem clampPercent_clampPercent (percent : ℚ) :
    clampPercent (clampPercent percent) = clampPercent percent := by
  obtain ⟨hnonneg, hle⟩ := clampPercent_mem percent
  rw [clampPercent, min_eq_right hle, max_eq_right hnonneg]

/-- The product is rounded to no more than the next whole number, and to no less than the
one before it. -/
theorem floorOfProduct_bounds {percent : ℚ} (hpercent : 0 ≤ percent ∧ percent ≤ 1) {n : Nat}
    (hn : n < 2 ^ 53) :
    ⌊n * percent⌋ ≤ floorOfProduct percent n ∧ floorOfProduct percent n ≤ ⌈n * percent⌉ := by
  have hproduct : 0 ≤ n * percent := mul_nonneg (Nat.cast_nonneg n) hpercent.1
  have hle : n * percent ≤ n := mul_le_of_le_one_right (Nat.cast_nonneg n) hpercent.2
  have habs : |n * percent| < 2 ^ 53 := by
    rw [abs_of_nonneg hproduct]
    exact lt_of_le_of_lt hle (by exact_mod_cast hn)
  have hlower : ⌊n * percent⌋ ≤ ⌊Float64.round (n * percent)⌋ :=
    Int.le_floor.mpr (Float64.le_round habs (Int.floor_le _))
  have hupper : ⌊Float64.round (n * percent)⌋ ≤ ⌈n * percent⌉ := by
    have := Float64.round_le habs (Int.le_ceil (n * percent))
    exact_mod_cast (Int.floor_le _).trans this
  have hfloor : 0 ≤ ⌊n * percent⌋ := Int.floor_nonneg.mpr hproduct
  have hceil : ⌈n * percent⌉ ≤ n := Int.ceil_le.mpr (by exact_mod_cast hle)
  unfold floorOfProduct
  rw [Float64.round_natCast hn]
  omega

theorem floorOfProduct_le {percent : ℚ} (hpercent : 0 ≤ percent ∧ percent ≤ 1) {n : Nat}
    (hn : n < 2 ^ 53) : floorOfProduct percent n ≤ n := by
  have hle : n * percent ≤ n := mul_le_of_le_one_right (Nat.cast_nonneg n) hpercent.2
  have hceil : ⌈n * percent⌉ ≤ n := Int.ceil_le.mpr (by exact_mod_cast hle)
  exact_mod_cast (floorOfProduct_bounds hpercent hn).2.trans hceil

/-- Of as many entries as there can be the number is that of the code. -/
theorem Percent.floorOf_ofFloat_of_lt (percent : ℚ) {n : Nat} (hn : n < 2 ^ 53) :
    (Percent.ofFloat percent).floorOf n = floorOfProduct (clampPercent percent) n :=
  min_eq_right (floorOfProduct_le (clampPercent_mem percent) hn)

/-! ## The LRU -/

section Listing

variable {l : Lru} {entries : List (Σ _ : Int, Int)}

/-- How many values an eviction removes. -/
theorem Lru.length_evictLRU (percent : Percent) (hne : entries ≠ []) :
    (l.evictLRU percent entries).1.length = max 1 (percent.floorOf entries.length) := by
  have hlength := List.length_pos_iff.mpr hne
  have hfloor := percent.floorOf_le entries.length
  unfold evictLRU
  rw [if_neg (by omega)]
  simp only [List.length_map, List.length_take]
  omega

/-- **Oldest first**: what an eviction leaves was accessed no earlier. -/
theorem Lru.evictLRU_oldest (h : l.IsListing entries) (percent : Percent) {v v' : Int}
    (hv : v ∈ (l.evictLRU percent entries).1) (hv' : v' ∈ l.values.keys)
    (hkept : v' ∉ (l.evictLRU percent entries).1) :
    ∃ time time', l.values.lookup v = some time ∧ l.values.lookup v' = some time' ∧
      time ≤ time' := by
  have hlookup : ∀ e ∈ entries, l.values.lookup e.1 = some e.2 := by
    intro e he
    refine Finmap.lookup_eq_some_iff.mpr ?_
    rw [← h.1]
    exact he
  obtain ⟨time', htime'⟩ := Finmap.mem_iff.mp (Finmap.mem_keys.mp hv')
  have hentry : (⟨v', time'⟩ : Σ _ : Int, Int) ∈ entries := by
    have hmem := Finmap.lookup_eq_some_iff.mp htime'
    rw [← h.1] at hmem
    exact hmem
  unfold evictLRU at hv hkept
  split_ifs at hv hkept with hnil
  · cases hv
  · simp only at hv hkept
    generalize hnum : max 1 (percent.floorOf entries.length) = num at hv hkept
    obtain ⟨e, he, rfl⟩ := List.mem_map.mp hv
    have hdrop : (⟨v', time'⟩ : Σ _ : Int, Int) ∈ entries.drop num := by
      rw [← List.take_append_drop num entries, List.mem_append] at hentry
      exact hentry.resolve_left fun htake => hkept (List.mem_map.mpr ⟨_, htake, rfl⟩)
    -- what is kept stands behind the cut in a list that is sorted by time
    have hsorted := h.2
    rw [← List.take_append_drop num entries] at hsorted
    exact ⟨e.2, time', hlookup e (List.mem_of_mem_take he), htime',
      (List.pairwise_append.mp hsorted).2.2 e he _ hdrop⟩

end Listing

/-! ## The accesses of a run -/

section Accesses

variable (fingerprint64 : String → UInt64) (cases : CaseMapping)

/-- The accesses of a search: to its runs, if all of them are there. -/
def bindAccesses (i : ShardedWPTIndex) (runs : List TestRun) (q : Option ConcreteQuery)
    (now : RunID → Int) : List (RunID × Int) :=
  match (i.bind cases runs q now).2 with
  | .ok _ => runs.map fun run => (run.id, now run.id)
  | .error _ => []

/-- The accesses of one step: the run of a store, or the runs of a search. -/
def accessesOf (s : System) : Label → List (RunID × Int)
  | .store c now =>
    match s.calls.lookup c with
    | some (.storing run _ data) =>
      if (s.index.syncStoreRun run data now).2 = none then [(run.id, now)] else []
    | _ => []
  | .bind runs q now => bindAccesses cases s.index runs q now
  | _ => []

/-- The accesses of a run, in their order. -/
def accessLog (s : System) : List Label → List (RunID × Int)
  | [] => []
  | label :: labels =>
    accessesOf cases s label ++
      match s.step fingerprint64 cases label with
      | none => []
      | some s' => accessLog s' labels

/-- The time of the last access to a run. -/
def lastAccess (log : List (RunID × Int)) (id : RunID) : Option Int := log.reverse.lookup id

end Accesses

/-- What an eviction does to an index: the runs removed are distinct, were there, and were
accessed no later than those that stay, and nothing else changes. -/
structure Evicts (log : List (RunID × Int)) (i i' : ShardedWPTIndex) (removed : List RunID) :
    Prop where
  nodup : removed.Nodup
  resident : ∀ id ∈ removed, id ∈ i.runs
  oldest : ∀ id ∈ removed, ∀ id' ∈ i.runs.keys, id' ∉ removed →
    ∃ time time', lastAccess log id = some time ∧ lastAccess log id' = some time' ∧ time ≤ time'
  runs : i'.runs = i.runs.eraseAll removed
  lru : i'.lru.values = i.lru.values.eraseAll removed
  shards : i'.shards =
    i.shards.map fun shard => { shard with results := shard.results.eraseAll removed }
  inFlight : i'.inFlight = i.inFlight

/-! ## What the LRU knows

A run is accessed when it is stored and when a query is bound to it. The log of these accesses is
kept beside the system, and the LRU has the last one of each run that it still knows. -/

section Steps

variable {fingerprint64 : String → UInt64} {cases : CaseMapping} {numShards : Nat}

theorem values_foldl_access (l : Lru) (ids : List RunID) (now : RunID → Int) :
    (ids.foldl (fun l id => l.access id (now id)) l).values =
      l.values.insertAll (ids.map fun id => (id, now id)) := by
  induction ids generalizing l with
  | nil => rfl
  | cons id ids ih =>
    rw [List.foldl_cons, ih]
    rfl

/-- Binding sets the times of the runs of the query, and of no others. -/
theorem values_bind (i : ShardedWPTIndex) (runs : List TestRun) (q : Option ConcreteQuery)
    (now : RunID → Int) :
    (i.bind cases runs q now).1.lru.values =
      i.lru.values.insertAll (bindAccesses cases i runs q now) := by
  unfold bindAccesses ShardedWPTIndex.bind
  by_cases hruns : runs = []
  · simp only [if_pos hruns]
    rfl
  · simp only [if_neg hruns]
    cases q with
    | none => rfl
    | some q =>
      simp only
      unfold ShardedWPTIndex.syncExtractRuns
      cases i.shards.mapM fun shard => syncMakeIndex shard (runs.map TestRun.id) ∅ with
      | error err => rfl
      | ok idxs =>
        show (Lru.values (List.foldl _ _ _)) = _
        rw [values_foldl_access, List.map_map]
        rfl

/-- **One step** of the LRU: it is written the accesses of the step, or loses the victims of
an eviction. -/
theorem values_step {s s' : System} {label : Label} (hs : s.Invariant numShards)
    (hstep : s.step fingerprint64 cases label = some s') :
    s'.index.lru.values = s.index.lru.values.insertAll (accessesOf cases s label) ∨
      accessesOf cases s label = [] ∧
        ∃ removed, s'.index.lru.values = s.index.lru.values.eraseAll removed := by
  cases System.moves_of_step hstep with
  | mark hc =>
    refine Or.inl ?_
    unfold System.mark ShardedWPTIndex.syncMarkInProgress
    split_ifs <;> rfl
  | load hc outcome order =>
    refine Or.inl ?_
    unfold System.load
    cases outcome with
    | error message => rfl
    | ok report => simp only; split <;> rfl
  | @store c run report data hcall now =>
    refine Or.inl ?_
    -- no other call has stored the run, so the store succeeds
    have hstored := syncStoreRun_spec hs.resident (hs.pending hcall rfl)
      ((hs.data hcall).trans hs.shards.symm) now
    have haccess : accessesOf cases s (.store c now) = [(run.id, now)] := by
      simp only [accessesOf, hcall, hstored, if_true]
    rw [haccess, System.store, hstored]
    rfl
  | clear hc =>
    refine Or.inl ?_
    unfold System.clear ShardedWPTIndex.syncClearInProgress
    split_ifs <;> rfl
  | evict percent hentries =>
    refine Or.inr ⟨rfl, ?_⟩
    unfold System.evict
    rcases syncEvictRuns_spec hs.resident percent hentries with ⟨-, heq⟩ | ⟨-, -, heq⟩
    · exact ⟨[], by rw [heq]; rfl⟩
    · rw [heq]
      unfold Lru.evictLRU
      split_ifs
      · exact ⟨[], rfl⟩
      · exact ⟨_, rfl⟩
  | bind runs q now => exact Or.inl (values_bind s.index runs q now)

/-- **A run** of the system: the LRU has the last accesses of the runs it keeps. -/
theorem lastAccess_of_run (hpos : 1 ≤ numShards) {labels : List Label} {s s' : System}
    {log : List (RunID × Int)} (hs : s.Invariant numShards)
    (hlog : ∀ id time, s.index.lru.values.lookup id = some time → lastAccess log id = some time)
    (hrun : run (System.step fingerprint64 cases) s labels = some s') :
    ∀ id time, s'.index.lru.values.lookup id = some time →
      lastAccess (log ++ accessLog fingerprint64 cases s labels) id = some time := by
  induction labels generalizing s log with
  | nil =>
    cases hrun
    rw [accessLog, List.append_nil]
    exact hlog
  | cons label labels ih =>
    rw [run_cons] at hrun
    obtain ⟨s₁, hstep, hrest⟩ := Option.bind_eq_some_iff.mp hrun
    rw [accessLog, hstep, ← List.append_assoc]
    refine ih (hs.step hpos hstep) (fun id time htime => ?_) hrest
    unfold lastAccess at hlog ⊢
    rw [List.reverse_append, List.lookup_append]
    -- a step enters its accesses, or evicts without any
    rcases values_step hs hstep with hvalues | ⟨hnone, removed, hvalues⟩
    · rw [hvalues, GoMap.lookup_insertAll] at htime
      cases hlast : (accessesOf cases s label).reverse.lookup id with
      | some time' =>
        rw [hlast] at htime
        exact htime
      | none =>
        rw [hlast] at htime
        exact hlog id time htime
    · rw [hvalues, GoMap.lookup_eraseAll] at htime
      rw [hnone]
      split at htime
      · cases htime
      · exact hlog id time htime

/-! ## Evictions

What goes was accessed before what stays, by the log of accesses, and as many runs go as the
rounded product says. -/

/-- **An eviction** of an index whose LRU has the times of the accesses. -/
theorem evicts_of_resident {i : ShardedWPTIndex} (hi : Resident i) (hruns : i.runs ≠ ∅)
    {log : List (RunID × Int)}
    (hlog : ∀ id time, i.lru.values.lookup id = some time → lastAccess log id = some time)
    (percent : ℚ) {entries : List (Σ _ : Int, Int)} (hentries : i.lru.IsListing entries) :
    ∃ removed, (i.evictRuns percent entries).2 = .ok removed.length ∧
      removed.length = max 1
        ((Percent.ofFloat (clampPercent (Float64.round percent))).floorOf i.runs.keys.card) ∧
      Evicts log i (i.evictRuns percent entries).1 removed := by
  rw [ShardedWPTIndex.evictRuns]
  generalize Percent.ofFloat (clampPercent (Float64.round percent)) = fraction
  obtain ⟨hempty, -⟩ | ⟨-, hremoved, heq⟩ := syncEvictRuns_spec hi fraction hentries
  · exact absurd hempty hruns
  rw [heq]
  obtain ⟨hnodup, hmem⟩ := Lru.evictLRU_spec hentries fraction
  -- what is evicted is a part of the listing
  have hne : entries ≠ [] := by
    rintro rfl
    exact hremoved (by simp [ShardedWPTIndex.victims, Lru.evictLRU])
  refine ⟨i.victims fraction entries, rfl, ?_, ?_⟩
  · rw [ShardedWPTIndex.victims, Lru.length_evictLRU fraction hne, hentries.length, hi.lru]
  · constructor
    · exact hnodup
    · intro id hid
      have hkey := hmem id hid
      rwa [hi.lru, Finmap.mem_keys] at hkey
    · intro id hid id' hid' hkept
      rw [← hi.lru] at hid'
      obtain ⟨time, time', htime, htime', hle⟩ :=
        Lru.evictLRU_oldest hentries fraction hid hid' hkept
      exact ⟨time, time', hlog id time htime, hlog id' time' htime', hle⟩
    · rfl
    · unfold ShardedWPTIndex.victims Lru.evictLRU
      split_ifs <;> rfl
    · rfl
    · rfl

/-- An eviction leaves fewer runs, unless there is none. -/
theorem card_runs_evictRuns {i : ShardedWPTIndex} (hi : Resident i) (percent : ℚ)
    {entries : List (Σ _ : Int, Int)} (hentries : i.lru.IsListing entries) :
    (i.evictRuns percent entries).1.runs.keys.card ≤ i.runs.keys.card - 1 := by
  unfold ShardedWPTIndex.evictRuns
  generalize Percent.ofFloat (clampPercent (Float64.round percent)) = fraction
  obtain ⟨hempty, heq⟩ | ⟨-, hremoved, heq⟩ := syncEvictRuns_spec hi fraction hentries
  · rw [heq, hempty]
    exact Nat.zero_le _
  · rw [heq]
    obtain ⟨id, hid⟩ := List.exists_mem_of_ne_nil _ hremoved
    have hkey : id ∈ i.runs.keys := by
      rw [← hi.lru]
      exact (Lru.evictLRU_spec hentries fraction).2 id hid
    refine Nat.le_sub_one_of_lt (Finset.card_lt_card ?_)
    rw [GoMap.keys_eraseAll]
    refine Finset.ssubset_iff_of_subset Finset.sdiff_subset |>.mpr ⟨id, hkey, fun hmem => ?_⟩
    exact (Finset.mem_sdiff.mp hmem).2 (List.mem_toFinset.mpr hid)

/-- **Evictions one after the other** empty an index, whatever their fractions are. -/
theorem evictRuns_empties
    (sort : (l : Lru) → {entries : List (Σ _ : Int, Int) // l.IsListing entries})
    {i : ShardedWPTIndex} (hi : Resident i) {percents : List ℚ}
    (hpercents : i.runs.keys.card ≤ percents.length) :
    (percents.foldl (fun i percent => (i.evictRuns percent (sort i.lru).1).1) i).runs = ∅ := by
  induction percents generalizing i with
  | nil =>
    have hkeys : i.runs.keys = ∅ := Finset.card_eq_zero.mp (Nat.le_zero.mp hpercents)
    refine Finmap.ext_lookup fun id => Finmap.lookup_eq_none.mpr ?_
    rw [List.foldl_nil, ← Finmap.mem_keys, hkeys]
    exact Finset.notMem_empty id
  | cons percent percents ih =>
    rw [List.foldl_cons]
    have hless := card_runs_evictRuns hi percent (sort i.lru).2
    rw [List.length_cons] at hpercents
    exact ih (hi.syncEvictRuns _ (sort i.lru).2) (by omega)

/-- **`EvictRuns`** in any state that the calls reach: the count of runs that the rounded
product has, at least one, and those that were accessed longest ago. The product is off by less
than one: the count is the whole number before or after it. -/
theorem evictRuns_evicts (hpos : 1 ≤ numShards) {labels : List Label} {s : System}
    (hrun : run (System.step fingerprint64 cases) (System.start numShards) labels = some s)
    (hruns : s.index.runs ≠ ∅) (percent : ℚ) {entries : List (Σ _ : Int, Int)}
    (hentries : s.index.lru.IsListing entries) :
    let clamped := clampPercent (Float64.round percent)
    let n := s.index.runs.keys.card
    (∃ removed, (s.index.evictRuns percent entries).2 = .ok removed.length ∧
      removed.length = max 1 (min n (floorOfProduct clamped n)) ∧
      (n < 2 ^ 53 → removed.length = max 1 (floorOfProduct clamped n) ∧
        max 1 ⌊n * clamped⌋ ≤ removed.length ∧ removed.length ≤ max 1 ⌈n * clamped⌉) ∧
      Evicts (accessLog fingerprint64 cases (System.start numShards) labels) s.index
        (s.index.evictRuns percent entries).1 removed) ∧
    ∀ (sort : (l : Lru) → {entries : List (Σ _ : Int, Int) // l.IsListing entries})
      (percents : List ℚ), s.index.runs.keys.card ≤ percents.length →
      (percents.foldl (fun i percent => (i.evictRuns percent (sort i.lru).1).1) s.index).runs =
        ∅ := by
  intro clamped n
  have hinv : s.Invariant numShards := System.Invariant.reachable hpos ⟨labels, hrun⟩
  have hstart : ∀ id time,
      (System.start numShards).index.lru.values.lookup id = some time →
        lastAccess [] id = some time := by
    intro id time htime
    simp [System.start, ShardedWPTIndex.new, Lru.empty] at htime
  have hlog := lastAccess_of_run hpos (System.Invariant.start numShards) hstart hrun
  rw [List.nil_append] at hlog
  refine ⟨?_, fun sort percents hpercents => evictRuns_empties sort hinv.resident hpercents⟩
  obtain ⟨removed, hok, hlength, hevicts⟩ :=
    evicts_of_resident hinv.resident hruns hlog percent hentries
  -- the float is clamped in the index and again in the LRU
  have hclamped : clampPercent clamped = clamped := clampPercent_clampPercent _
  refine ⟨removed, hok, ?_, fun hn => ?_, hevicts⟩
  · rw [hlength]
    show max 1 (min n (floorOfProduct (clampPercent clamped) n)) = _
    rw [hclamped]
  · rw [Percent.floorOf_ofFloat_of_lt _ hn] at hlength
    have hcount : removed.length = max 1 (floorOfProduct clamped n) := by rw [hlength, hclamped]
    obtain ⟨hlower, hupper⟩ := floorOfProduct_bounds (clampPercent_mem (Float64.round percent)) hn
    rw [hcount]
    push_cast
    exact ⟨rfl, max_le_max le_rfl hlower, max_le_max le_rfl hupper⟩

end Steps

/-! ## Two thirds of three runs -/

/-- Three runs are ingested, and the first is searched again. -/
def threeIngests : List Label :=
  let sorted := fun _ : String => sortedOrder id Function.injective_id
  [.mark 0 { id := 1, browserName := "chrome" }, .load 0 (.ok ⟨[]⟩) sorted, .store 0 10, .clear 0,
    .mark 1 { id := 2, browserName := "firefox" }, .load 1 (.ok ⟨[]⟩) sorted, .store 1 11,
    .clear 1,
    .mark 2 { id := 3, browserName := "safari" }, .load 2 (.ok ⟨[]⟩) sorted, .store 2 12, .clear 2,
    .bind [{ id := 1, browserName := "chrome" }] (some .trueQ) fun _ => 13]

/-- The double nearest to two thirds, which is less. -/
def twoThirds : ℚ := 6004799503160661 / 2 ^ 53

/-- Two thirds of three runs: the product is rounded, and two runs are removed. -/
theorem evictRuns_evicts_twoThirds :
    ∃ s, run (System.step (fun _ => 7) ⟨id, (· == ·)⟩) (System.start 1) threeIngests = some s ∧
      ∃ removed, removed.length = 2 ∧
        Evicts (accessLog (fun _ => 7) ⟨id, (· == ·)⟩ (System.start 1) threeIngests) s.index
          (s.index.evictRuns twoThirds [⟨2, 11⟩, ⟨3, 12⟩, ⟨1, 13⟩]).1 removed := by
  obtain ⟨s, hs, hlisting, hruns, hcount⟩ :
      ∃ s, run (System.step (fun _ => 7) ⟨id, (· == ·)⟩) (System.start 1) threeIngests = some s ∧
        s.index.lru.IsListing [⟨2, 11⟩, ⟨3, 12⟩, ⟨1, 13⟩] ∧ s.index.runs ≠ ∅ ∧
        max 1 (min s.index.runs.keys.card
          (floorOfProduct (clampPercent (Float64.round twoThirds)) s.index.runs.keys.card)) = 2 :=
    ⟨_, rfl, by decide +kernel, by decide +kernel, by decide +kernel⟩
  obtain ⟨⟨removed, -, hlength, -, hevicts⟩, -⟩ :=
    evictRuns_evicts (Nat.le_refl 1) hs hruns twoThirds hlisting
  exact ⟨s, hs, removed, hlength.trans hcount, hevicts⟩

/-- **The rounded product**: two runs go, where the fraction of three is less than two. -/
theorem evictRuns_twoThirds :
    Float64.round twoThirds = twoThirds ∧
      ∃ s, run (System.step (fun _ => 7) ⟨id, (· == ·)⟩) (System.start 1) threeIngests = some s ∧
        s.index.lru.IsListing [⟨2, 11⟩, ⟨3, 12⟩, ⟨1, 13⟩] ∧ s.index.runs.keys.card = 3 ∧
        (s.index.evictRuns twoThirds [⟨2, 11⟩, ⟨3, 12⟩, ⟨1, 13⟩]).2 = .ok 2 ∧
        max 1 ⌊3 * clampPercent twoThirds⌋ = 1 :=
  ⟨by decide +kernel, _, rfl, by decide +kernel, by decide +kernel, by decide +kernel,
    by decide +kernel⟩

end WptFyi.Cache
