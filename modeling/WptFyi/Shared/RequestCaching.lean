import WptFyi.Lib.GoMap
import WptFyi.Lib.Runs

/-!
# Cached responses (`shared/request_caching.go`, `shared/cache.go`)

A caching handler looks a request up in Redis, and has its delegate answer what it does not
find. The answer goes to the client through a writer that keeps a copy of each write that
the client took, and a copy with status 200 is stored. Requests of different clients run at
the same time: a step of the system is the lookup of one request, the whole answer of a
delegate, or the end of an entry's time in the cache.

The cache is right as long as every entry is the whole answer of its key, whoever asked for it;
that is the invariant `Inv`, which does not speak of the requests under way. A step stores at most
one entry (`step_cases`), and that entry is the copy of one answer, so all comes down to when such
a copy is whole. A writer that fails in the middle, as when the client goes away, makes it a part.

- `delegateAndCache`: the copy that one answer leaves in the cache;
- `Transparent`: what is served from the cache is the body of the delegate;
- `StoresOnlyWhole`: of one answer, what may be stored at all;
- `transparent_of_careful`: the runs in which both hold. A write that fails leaves the rest
  of the copy as it is, so it fails only where nothing would be stored.
-/

namespace WptFyi.Shared.RequestCaching

open Lib

universe u

abbrev Bytes := List UInt8

def statusOK : Nat := 200

/-! ## Delegates -/

/-- What a delegate does for a key: a `WriteHeader` unless it has none, then its calls of
`Write`. Some handlers return at the first write that fails. -/
structure Answer where
  header : Option Nat := none
  writes : List Bytes
  stopsOnError : Bool := false
  /-- Other codes make the response writer panic. -/
  valid : ∀ code ∈ header, 100 ≤ code ∧ code ≤ 999 := by decide

namespace Answer

/-- The status the client gets. -/
def status (answer : Answer) : Nat := answer.header.getD statusOK

/-- The complete body. -/
def body (answer : Answer) : Bytes := answer.writes.flatten

/-- The writes that are made, each with whether the client's connection fails. -/
def attempts (stopsOnError : Bool) : List Bytes → List Bool → List (Bytes × Bool)
  | [], _ => []
  | data :: writes, fails =>
    let failed := fails.headD false
    (data, failed) :: if failed && stopsOnError then [] else attempts stopsOnError writes fails.tail

end Answer

/-! ## The writer that keeps a copy -/

/-- `cachingResponseWriter`. Its buffer never returns an error. -/
structure CachingResponseWriter where
  b : Bytes := []
  statusCode : Nat := 0

namespace CachingResponseWriter

/-- `Write`, where the write to the client may fail. -/
def write (w : CachingResponseWriter) (data : Bytes) (failed : Bool) : CachingResponseWriter :=
  let w := if w.statusCode = 0 then { w with statusCode := statusOK } else w
  if failed then w else { w with b := w.b ++ data }

/-- `WriteHeader`. -/
def writeHeader (w : CachingResponseWriter) (statusCode : Nat) : CachingResponseWriter :=
  { w with statusCode }

end CachingResponseWriter

/-- The delegate's `ServeHTTP` with that writer. -/
def serveHTTP (answer : Answer) (fails : List Bool) : CachingResponseWriter :=
  let cw : CachingResponseWriter := {}
  let cw := match answer.header with
    | some code => cw.writeHeader code
    | none => cw
  (Answer.attempts answer.stopsOnError answer.writes fails).foldl
    (fun cw write => cw.write write.1 write.2) cw

/-! ## The cache -/

/-- `redisWriteCloser`. -/
structure RedisWriteCloser where
  b : Bytes := []
  hasWritten : Bool := false
  isClosed : Bool := false

namespace RedisWriteCloser

/-- `Write`. -/
def write (mw : RedisWriteCloser) (p : Bytes) : RedisWriteCloser :=
  let mw := { mw with hasWritten := true }
  if mw.isClosed then mw else { mw with b := mw.b ++ p }

/-- `Close`: what Redis is asked to set, where that succeeds. -/
def close (mw : RedisWriteCloser) (setFails : Bool) : Option Bytes :=
  if !mw.hasWritten || setFails then none else some mw.b

end RedisWriteCloser

/-- `WriteTo`: a buffer that is empty is not written at all. -/
def CachingResponseWriter.writeTo (w : CachingResponseWriter) (wc : RedisWriteCloser) :
    RedisWriteCloser :=
  if w.b.length > 0 then wc.write w.b else wc

/-- `CacheStatusOK`. -/
def cacheStatusOK (statusCode : Nat) (_payload : Bytes) : Bool := statusCode == statusOK

/-- `delegateAndCache`: the entry that is stored, if there is one. -/
def delegateAndCache (answer : Answer) (fails : List Bool) (openFails setFails : Bool) :
    Option Bytes :=
  let cw := serveHTTP answer fails
  if !cacheStatusOK cw.statusCode cw.b then none
  else if openFails then none
  else (cw.writeTo {}).close setFails

/-! ## The system -/

section System

variable {κ : Type u} [DecidableEq κ]

/-- The entries, and the keys that delegates are to answer. -/
structure State (κ : Type u) where
  cache : GoMap κ Bytes := ∅
  pending : List κ := []

inductive Action (κ : Type u) where
  /-- A request up to its cache read. -/
  | request (key : κ) (cacheable readFails : Bool)
  /-- The delegate's answer to a request that is pending. -/
  | answer (i : Nat) (fails : List Bool) (openFails setFails : Bool)
  /-- An entry expires, or is deleted. -/
  | expire (key : κ)

/-- The cases of `ServeHTTP`: the entry that is found and can be read. -/
def cacheHit (s : State κ) (key : κ) (cacheable readFails : Bool) : Option Bytes :=
  if !cacheable || readFails then none else s.cache.lookup key

/-- One step; a request that is not cacheable leaves nothing behind. -/
def step (delegate : κ → Answer) (s : State κ) : Action κ → Option (State κ)
  | .request key cacheable readFails =>
    if !cacheable then some s
    else
      match cacheHit s key cacheable readFails with
      | some _ => some s
      | none => some { s with pending := s.pending ++ [key] }
  | .answer i fails openFails setFails =>
    match s.pending[i]? with
    | none => none
    | some key =>
      let s := { s with pending := s.pending.eraseIdx i }
      match delegateAndCache (delegate key) fails openFails setFails with
      | none => some s
      | some data => some { s with cache := s.cache.insert key data }
  | .expire key => some { s with cache := s.cache.erase key }

/-- The response to a request that is served from the cache, status and body. -/
def servedFromCache (s : State κ) (key : κ) (cacheable readFails : Bool) :
    Option (Nat × Bytes) :=
  (cacheHit s key cacheable readFails).map fun data => (statusOK, data)

/-- What any request is served from the cache is what its delegate answers with. -/
def Transparent (delegate : κ → Answer) (s : State κ) : Prop :=
  ∀ key cacheable readFails response, servedFromCache s key cacheable readFails = some response →
    response = ((delegate key).status, (delegate key).body) ∧ response.1 = statusOK

end System

/-- The client did not get all that was written. -/
def CutShort (answer : Answer) (fails : List Bool) : Prop :=
  ∃ write ∈ Answer.attempts answer.stopsOnError answer.writes fails, write.2 = true

/-- A response that was cut short or was not 200 is not stored. -/
def StoresOnlyWhole (answer : Answer) (fails : List Bool) (openFails setFails : Bool) : Prop :=
  CutShort answer fails ∨ answer.status ≠ statusOK →
    delegateAndCache answer fails openFails setFails = none

/-- Some part of the body reaches the client. -/
def ReachesClient (answer : Answer) (fails : List Bool) : Prop :=
  ∃ write ∈ Answer.attempts answer.stopsOnError answer.writes fails,
    write.2 = false ∧ write.1 ≠ []

/-- No write to the client fails in an answer with status 200, unless nothing gets there at
all or the cache cannot be written. -/
def CarefulAnswer (answer : Answer) (fails : List Bool) (openFails setFails : Bool) : Prop :=
  answer.status = statusOK → CutShort answer fails → ReachesClient answer fails →
    openFails ∨ setFails

/-- The condition on the steps of a run. -/
def Careful {κ : Type u} (delegate : κ → Answer) (s : State κ) : Action κ → Prop
  | .answer i fails openFails setFails =>
    ∀ key ∈ s.pending[i]?, CarefulAnswer (delegate key) fails openFails setFails
  | _ => True

/-! ## One answer

The copy has each write that the client took, so it is whole if none of them failed. With status
200 it is stored, whole or not. -/

theorem CachingResponseWriter.write_statusCode (w : CachingResponseWriter) (data : Bytes)
    (failed : Bool) :
    (w.write data failed).statusCode = if w.statusCode = 0 then statusOK else w.statusCode := by
  unfold write
  split <;> split <;> rfl

theorem CachingResponseWriter.write_b (w : CachingResponseWriter) (data : Bytes) (failed : Bool) :
    (w.write data failed).b = w.b ++ if failed then [] else data := by
  unfold write
  cases failed
  · split <;> rfl
  · split <;> exact (List.append_nil _).symm

/-- What the client took is what the copy gains. -/
theorem foldl_write_b (writes : List (Bytes × Bool)) (w : CachingResponseWriter) :
    (writes.foldl (fun cw write => cw.write write.1 write.2) w).b =
      w.b ++ (writes.map fun write => if write.2 then [] else write.1).flatten := by
  induction writes generalizing w with
  | nil => simp
  | cons write writes ih =>
    rw [List.foldl_cons, ih, CachingResponseWriter.write_b, List.map_cons, List.flatten_cons,
      List.append_assoc]

theorem foldl_write_statusCode (writes : List (Bytes × Bool)) (w : CachingResponseWriter) :
    (writes.foldl (fun cw write => cw.write write.1 write.2) w).statusCode =
      if w.statusCode = 0 ∧ writes ≠ [] then statusOK else w.statusCode := by
  induction writes generalizing w with
  | nil => simp
  | cons write writes ih =>
    rw [List.foldl_cons, ih, CachingResponseWriter.write_statusCode]
    by_cases hzero : w.statusCode = 0 <;> simp [hzero, statusOK]

/-- The copy of an answer. -/
def copied (answer : Answer) (fails : List Bool) : Bytes :=
  ((Answer.attempts answer.stopsOnError answer.writes fails).map
    fun write => if write.2 then [] else write.1).flatten

theorem serveHTTP_b (answer : Answer) (fails : List Bool) :
    (serveHTTP answer fails).b = copied answer fails := by
  unfold serveHTTP
  rw [foldl_write_b]
  cases answer.header <;> rfl

/-- There is something to copy when something reaches the client. -/
theorem copied_ne_nil_iff (answer : Answer) (fails : List Bool) :
    copied answer fails ≠ [] ↔ ReachesClient answer fails := by
  rw [copied, Ne, List.flatten_eq_nil_iff, not_forall]
  unfold ReachesClient
  constructor
  · rintro ⟨data, h⟩
    obtain ⟨hdata, hne⟩ := Classical.not_imp.mp h
    obtain ⟨write, hwrite, rfl⟩ := List.mem_map.mp hdata
    cases hfailed : write.2
    · rw [hfailed] at hne
      exact ⟨write, hwrite, hfailed, hne⟩
    · rw [hfailed] at hne
      exact absurd rfl hne
  · rintro ⟨write, hwrite, hfailed, hne⟩
    refine ⟨write.1, Classical.not_imp.mpr ⟨List.mem_map.mpr ⟨write, hwrite, ?_⟩, hne⟩⟩
    rw [hfailed]
    rfl

/-- The recorded status is 200 for an answer of that status that writes at all. -/
theorem serveHTTP_statusCode (answer : Answer) (fails : List Bool) :
    (serveHTTP answer fails).statusCode =
      match answer.header with
      | some code => code
      | none =>
        if Answer.attempts answer.stopsOnError answer.writes fails = [] then 0 else statusOK := by
  unfold serveHTTP
  rw [foldl_write_statusCode]
  cases hheader : answer.header with
  | none =>
    by_cases hnil : Answer.attempts answer.stopsOnError answer.writes fails = [] <;> simp [hnil]
  | some code =>
    -- a valid code is not the zero of a writer that has none yet
    have hcode : code ≠ 0 := by
      have := (answer.valid code (by rw [hheader]; rfl)).1
      omega
    exact if_neg fun h => hcode h.1

/-- **What one answer stores**: the copy, if the status is 200, something got to the client
and the cache takes it. -/
theorem delegateAndCache_eq (answer : Answer) (fails : List Bool) (openFails setFails : Bool) :
    delegateAndCache answer fails openFails setFails =
      if answer.status = statusOK ∧ copied answer fails ≠ [] ∧ openFails = false ∧ setFails = false
      then some (copied answer fails) else none := by
  have hclose : ((serveHTTP answer fails).writeTo {}).close setFails =
      if copied answer fails ≠ [] ∧ setFails = false then some (copied answer fails) else none := by
    unfold CachingResponseWriter.writeTo
    rw [serveHTTP_b]
    by_cases hnil : copied answer fails = []
    · rw [hnil]
      cases setFails <;> rfl
    · rw [if_pos (List.length_pos_iff.mpr hnil)]
      cases setFails <;> simp [RedisWriteCloser.write, RedisWriteCloser.close, hnil]
  -- an answer without a header has status 200 from its first write on
  have hstatus : copied answer fails ≠ [] →
      (cacheStatusOK (serveHTTP answer fails).statusCode (serveHTTP answer fails).b = true ↔
        answer.status = statusOK) := by
    intro hne
    rw [cacheStatusOK, beq_iff_eq, serveHTTP_statusCode]
    unfold Answer.status
    cases answer.header with
    | some code => rfl
    | none =>
      have hattempts : Answer.attempts answer.stopsOnError answer.writes fails ≠ [] := by
        intro hnil
        rw [copied, hnil] at hne
        exact hne rfl
      simp [hattempts]
  unfold delegateAndCache
  simp only
  rw [hclose]
  by_cases hne : copied answer fails = []
  · simp [hne]
  · by_cases hok : answer.status = statusOK
    · rw [(hstatus hne).mpr hok]
      cases openFails <;> cases setFails <;> simp [hne, hok]
    · rw [Bool.eq_false_of_not_eq_true fun h => hok ((hstatus hne).mp h)]
      simp [hok]

/-- An answer of which no write fails is copied as it is. -/
theorem copied_of_not_cutShort {answer : Answer} {fails : List Bool}
    (h : ¬ CutShort answer fails) : copied answer fails = answer.body := by
  unfold CutShort at h
  unfold copied Answer.body
  refine congrArg List.flatten ?_
  generalize answer.writes = writes at h ⊢
  induction writes generalizing fails with
  | nil => rfl
  | cons data writes ih =>
    rw [Answer.attempts] at h ⊢
    have hfailed : fails.headD false = false :=
      Bool.eq_false_of_not_eq_true fun hfailed => h ⟨_, List.mem_cons_self, hfailed⟩
    simp only [hfailed, Bool.false_and, Bool.false_eq_true, if_false, List.map_cons,
      List.mem_cons] at h ⊢
    rw [ih fun ⟨write, hwrite, hsnd⟩ => h ⟨write, Or.inr hwrite, hsnd⟩]

/-- **What may be stored**: an answer stores whole responses only iff it is careful. -/
theorem storesOnlyWhole_iff (answer : Answer) (fails : List Bool) (openFails setFails : Bool) :
    StoresOnlyWhole answer fails openFails setFails ↔
      CarefulAnswer answer fails openFails setFails := by
  unfold StoresOnlyWhole CarefulAnswer
  rw [delegateAndCache_eq, ← copied_ne_nil_iff]
  constructor
  · intro h hok hcut hne
    have hnone := h (Or.inl hcut)
    by_contra hcache
    obtain ⟨hopen, hset⟩ := not_or.mp hcache
    rw [if_pos ⟨hok, hne, by simpa using hopen, by simpa using hset⟩] at hnone
    cases hnone
  · intro h hbad
    refine if_neg ?_
    rintro ⟨hok, hne, rfl, rfl⟩
    rcases hbad with hcut | hstatus
    · exact absurd (h hok hcut hne) (by decide)
    · exact hstatus hok

/-! ## Runs

If nothing but whole answers is stored, what is served from the cache is a whole answer, too,
whatever requests run at the same time. -/

section Runs

variable {κ : Type u} [DecidableEq κ] {delegate : κ → Answer}

/-- Every entry is the whole answer of its key. -/
def Inv (delegate : κ → Answer) (s : State κ) : Prop :=
  ∀ key data, s.cache.lookup key = some data →
    (delegate key).status = statusOK ∧ data = (delegate key).body

theorem inv_init : Inv delegate {} := by
  intro key data h
  exact absurd h (by simp)

theorem Inv.transparent {s : State κ} (h : Inv delegate s) : Transparent delegate s := by
  intro key cacheable readFails response hserved
  obtain ⟨data, hhit, rfl⟩ := Option.map_eq_some_iff.mp hserved
  unfold cacheHit at hhit
  split at hhit
  · cases hhit
  · obtain ⟨hstatus, rfl⟩ := h key data hhit
    exact ⟨by rw [hstatus], rfl⟩

/-- What a careful answer stores is whole. -/
theorem stored_of_careful {answer : Answer} {fails : List Bool} {openFails setFails : Bool}
    (h : CarefulAnswer answer fails openFails setFails) {data : Bytes}
    (hstored : delegateAndCache answer fails openFails setFails = some data) :
    answer.status = statusOK ∧ data = answer.body := by
  have hwhole := (storesOnlyWhole_iff _ _ _ _).mpr h
  have hcut : ¬ CutShort answer fails := fun hcut =>
    nomatch (hwhole (Or.inl hcut)).symm.trans hstored
  rw [delegateAndCache_eq] at hstored
  split at hstored
  · next hcond =>
    cases hstored
    exact ⟨hcond.1, copied_of_not_cutShort hcut⟩
  · cases hstored

/-- What a step does to the entries: nothing, drop one, or store the answer to a request
that is pending. -/
theorem step_cases {s s' : State κ} {a : Action κ} (h : step delegate s a = some s') :
    s'.cache = s.cache ∨ (∃ key, s'.cache = s.cache.erase key) ∨
      ∃ i fails openFails setFails, a = .answer i fails openFails setFails ∧
        ∃ key ∈ s.pending[i]?, ∃ data,
          delegateAndCache (delegate key) fails openFails setFails = some data ∧
            s'.cache = s.cache.insert key data := by
  cases a with
  | request key cacheable readFails =>
    simp only [step] at h
    split at h
    · cases h
      exact Or.inl rfl
    · -- the read fails, misses or is answered from the cache, which stays as it is
      split at h <;> cases h <;> exact Or.inl rfl
  | expire key =>
    simp only [step] at h
    cases h
    exact Or.inr (Or.inl ⟨key, rfl⟩)
  | answer i fails openFails setFails =>
    simp only [step] at h
    split at h
    · cases h
    · next key hkey =>
      split at h
      · cases h
        exact Or.inl rfl
      · next data hstored =>
        cases h
        exact Or.inr (Or.inr ⟨i, fails, openFails, setFails, rfl, key, hkey, data, hstored, rfl⟩)

/-- **Step**: a careful step keeps every entry whole. -/
theorem Inv.step {s s' : State κ} {a : Action κ} (h : Inv delegate s)
    (hcareful : Careful delegate s a) (hstep : step delegate s a = some s') : Inv delegate s' := by
  intro key' data' hdata'
  rcases step_cases hstep with hcache | ⟨key, hcache⟩ |
    ⟨i, fails, openFails, setFails, rfl, hanswer⟩
  · rw [hcache] at hdata'
    exact h key' data' hdata'
  · rw [hcache] at hdata'
    by_cases hkey : key' = key
    · rw [hkey, Finmap.lookup_erase] at hdata'
      cases hdata'
    · rw [Finmap.lookup_erase_ne hkey] at hdata'
      exact h key' data' hdata'
  · obtain ⟨key, hkey, data, hstored, hcache⟩ := hanswer
    rw [hcache, GoMap.lookup_insert_eq_ite] at hdata'
    split at hdata'
    · next heq =>
      cases hdata'
      rw [heq]
      exact stored_of_careful (hcareful key hkey) hstored
    · exact h key' data' hdata'

/-- **Caching is transparent** in the runs whose answers are careful, and those answers are
the ones that store whole responses only. -/
theorem transparent_of_careful (delegate : κ → Answer) :
    (∀ s, ReachableWith (step delegate) (Careful delegate) {} s → Transparent delegate s) ∧
      ∀ answer fails openFails setFails, StoresOnlyWhole answer fails openFails setFails ↔
        CarefulAnswer answer fails openFails setFails := by
  refine ⟨fun s h => ?_, storesOnlyWhole_iff⟩
  have hinv : Inv delegate s := h.invariant inv_init fun hinv hcareful hstep =>
    hinv.step hcareful hstep
  exact hinv.transparent

/-- Two requests for a key, of which the first is answered in two writes. -/
theorem transparent_twoWrites :
    let delegate : Nat → Answer := fun _ => { writes := [[1, 2], [3]] }
    ∃ s, run (step delegate) {} [.request 7 true false, .answer 0 [] false false] = some s ∧
      servedFromCache s 7 true false = some (statusOK, [1, 2, 3]) ∧ Transparent delegate s := by
  intro delegate
  have hcareful : ∀ a ∈ [Action.request 7 true false, .answer 0 [] false false], ∀ s,
      Careful delegate s a := by
    intro a ha s
    rcases List.mem_pair.mp ha with rfl | rfl
    · trivial
    · exact fun key _ _ hcut => absurd hcut (by unfold CutShort; decide)
  exact ⟨_, rfl, by decide +kernel,
    (transparent_of_careful delegate).1 _ (ReachableWith.init.run hcareful rfl)⟩

/-- **A client that goes away** after the first write leaves its part for the others. -/
theorem not_transparent_closedConnection :
    let delegate : Nat → Answer := fun _ => { writes := [[1, 2], [3]] }
    ∃ s, run (step delegate) {} [.request 7 true false, .answer 0 [false, true] false false] =
        some s ∧
      ¬ Transparent delegate s ∧ ¬ StoresOnlyWhole (delegate 7) [false, true] false false := by
  intro delegate
  refine ⟨_, rfl, fun h => ?_, fun h => ?_⟩
  · have hserved := h 7 true false (statusOK, [1, 2]) (by decide +kernel)
    exact absurd hserved.1 (by decide)
  · have hnone := h (Or.inl (by unfold CutShort; decide))
    exact absurd hnone (by decide)

end Runs

end WptFyi.Shared.RequestCaching
