import WptFyi.Lib.Runs
import WptFyi.Lib.GoMap
import WptFyi.Screenshots.Batches
import WptFyi.Screenshots.RecentHashes

/-!
# Storing screenshots (`api/screenshot`)

Each file of an upload is stored on its own: the image in the bucket, under its hash, and then
what is known of it in Datastore. Neither is done in a transaction, and any number of uploads is
under way at once.

The order of the two is what makes the listing safe. The invariant `Inv` has a part for what is
stored, `Kept`: an object is under the hash of its content, and an entity has its object. Its other
part, `JobOk`, says of each file that the steps behind it have left what they should. As objects
and entities stay once they are there (`Grows`), a step for one file keeps the part of every other
one, although two uploads may write the same object or entity at the same time.

Some failures are only logged, and one is taken for a missing entity. Runs without these are
`Careful`; others may leave a file that was answered with success and is not stored.

- `storeScreenshot`: the steps for a file;
- `step`: a step of the server;
- `Inv`: the invariant, kept by every step;
- `hashes_have_images`, `process_stored`: what is known has its image, and an upload
  that was answered is stored.
-/

namespace WptFyi.Screenshots

open Lib Lib.GoStrings

/-- A screenshot in Datastore. -/
structure Entity extends Screenshot where
  counter : Nat
deriving DecidableEq

/-- `Key`. -/
def Screenshot.key (s : Screenshot) : String := s.hashDigest ++ ":" ++ s.hashMethod

/-- The name of the object of a screenshot. -/
def Screenshot.object (s : Screenshot) : String := s.hash ++ ".png"

/-- How far a file is. -/
inductive Progress
  | waiting
  | opened
  | hashed (s : Screenshot)
  /-- Back at the start, unless that failed. -/
  | rewound (s : Screenshot) (ok : Bool)
  | missing (s : Screenshot) (ok : Bool)
  /-- The object is there, or taken to be. -/
  | present (s : Screenshot)
  | read (e : Entity)
  | stored (s : Screenshot)
  | failed
deriving DecidableEq

/-- The end of a file. -/
def Progress.ended : Progress → Bool
  | .stored _ => true
  | .failed => true
  | _ => false

/-- The file was stored. -/
def Progress.ok : Progress → Bool
  | .stored _ => true
  | _ => false

/-- An upload of screenshots. -/
structure Request where
  hashMethod : String
  labels : List String
  jobs : List (Image × Progress)
  status : Option Nat

/-- The bucket, Datastore, and the uploads that the server handles. -/
structure Server where
  objects : GoMap String Image := ∅
  entities : GoMap String Entity := ∅
  requests : GoMap Nat Request := ∅

/-- What happens next to a file. -/
inductive Move
  | openFile (ok : Bool)
  | hash (ok : Bool)
  | seek (ok : Bool)
  /-- `Attrs`, which can also fail for another reason than that there is no object. -/
  | attrs (fails : Bool)
  | write (ok : Bool)
  | get (fails : Bool) (toStringSlice : RangeOrder String)
  | put (ok : Bool) (now : Int)

/-- A step of the server; a file is named by its upload and its place. -/
inductive Event
  | post (k : Nat) (hashMethod browser browserVersion os osVersion : String) (images : List Image)
  | job (k j : Nat) (move : Move)
  | answer (k : Nat)
  | drop (k : Nat)

section Steps

variable (sha1 : Image → String)

/-- `NewScreenshot` and `SetHashFromFile`; no other method is supported. -/
def hashFile (hashMethod : String) (labels : List String) (image : Image) : Option Screenshot :=
  let hashMethod := if hashMethod = "" then "sha1" else hashMethod
  if hashMethod = "sha1" then
    some { hashDigest := sha1 image, hashMethod, labels := labels.filter (· ≠ ""), lastUsed := 0 }
  else none

/-- `Store`, as far as the entity that is put. -/
def mergeOld (toStringSlice : RangeOrder String) (s : Screenshot) : Option Entity → Entity
  | some old =>
    { toScreenshot := { s with labels := (toStringSlice (s.labels ++ old.labels).toFinset).1 }
      counter := old.counter + 1 }
  | none => { toScreenshot := s, counter := 0 }

/-- `storeScreenshot`, a step of it. -/
def storeScreenshot (srv : Server) (req : Request) (image : Image) :
    Progress → Move → Option (Server × Progress)
  | .waiting, .openFile ok => some (srv, if ok then .opened else .failed)
  | .opened, .hash ok =>
    match hashFile sha1 req.hashMethod req.labels image, ok with
    | some s, true => some (srv, .hashed s)
    | _, _ => some (srv, .failed)
  | .hashed s, .seek ok => some (srv, .rewound s ok)
  | .rewound s ok, .attrs fails =>
    -- only one error means that there is no object
    some (srv, if fails || s.object ∈ srv.objects then .present s else .missing s ok)
  | .missing s rewound, .write ok =>
    if ok then
      -- at the end of the file there is nothing to copy
      let content := if rewound then image else []
      some ({ srv with objects := srv.objects.insert s.object content }, .present s)
    else some (srv, .failed)
  | .present s, .get fails toStringSlice =>
    if s.hashDigest = "" ∨ s.hashMethod = "" then some (srv, .failed)
    else
      let old := if fails then none else srv.entities.lookup s.key
      some (srv, .read (mergeOld toStringSlice s old))
  | .read e, .put ok now =>
    if ok then
      let e : Entity := { e with lastUsed := now }
      some ({ srv with entities := srv.entities.insert e.key e }, .stored e.toScreenshot)
    else some (srv, .failed)
  | _, _ => none

/-- A step of `uploadScreenshotHandler`. -/
def step (srv : Server) : Event → Option Server
  | .post k hashMethod browser browserVersion os osVersion images =>
    if k ∈ srv.requests then none
    else
      let req : Request :=
        { hashMethod := hashMethod
          labels := [browser, browserVersion, os, osVersion]
          jobs := images.map (·, .waiting)
          status := if images = [] then some 400 else none }
      some { srv with requests := srv.requests.insert k req }
  | .job k j move => do
    let req ← srv.requests.lookup k
    let (image, progress) ← req.jobs[j]?
    let (srv, progress) ← storeScreenshot sha1 srv req image progress move
    return { srv with
      requests := srv.requests.insert k { req with jobs := req.jobs.set j (image, progress) } }
  | .answer k => do
    let req ← srv.requests.lookup k
    if req.status = none ∧ req.jobs.all (·.2.ended) then
      let status := if req.jobs.all (·.2.ok) then 201 else 500
      some { srv with requests := srv.requests.insert k { req with status := some status } }
    else none
  | .drop k => some { srv with requests := srv.requests.erase k }

end Steps

/-! ## What holds

A screenshot is listed after its image was put, by the job that has both. Jobs may fail between the
two, which leaves an image that nothing lists. -/

/-- Nothing fails that is only logged, or taken for something else. -/
def Move.Careful : Move → Prop
  | .seek ok => ok = true
  | .attrs fails => fails = false
  | _ => True

def Event.Careful : Event → Prop
  | .job _ _ move => move.Careful
  | _ => True

section Invariant

variable {sha1 : Image → String} {objects objects' : GoMap String Image}
  {entities entities' : GoMap String Entity} {image : Image} {srv srv' : Server}

/-- The screenshot is that of the image. -/
structure Names (sha1 : Image → String) (image : Image) (s : Screenshot) : Prop where
  hashMethod : s.hashMethod = "sha1"
  hashDigest : s.hashDigest = sha1 image

theorem Names.object_eq {s : Screenshot} (h : Names sha1 image s) :
    s.object = "sha1:" ++ sha1 image ++ ".png" := by
  rw [Screenshot.object, Screenshot.hash, h.hashMethod, h.hashDigest]
  rfl

/-- An object is under the hash of its content, and what is known of a screenshot has its object. -/
structure Kept (sha1 : Image → String) (objects : GoMap String Image)
    (entities : GoMap String Entity) : Prop where
  hashed : ∀ name image, objects.lookup name = some image →
    name = "sha1:" ++ sha1 image ++ ".png"
  backed : ∀ key e, entities.lookup key = some e → key = e.key ∧ e.hashMethod = "sha1" ∧
    e.object ∈ objects

/-- What a file has done is there. -/
def JobOk (sha1 : Image → String) (objects : GoMap String Image) (entities : GoMap String Entity)
    (image : Image) : Progress → Prop
  | .hashed s => Names sha1 image s
  | .rewound s ok => Names sha1 image s ∧ ok = true
  | .missing s ok => Names sha1 image s ∧ ok = true
  | .present s => Names sha1 image s ∧ s.object ∈ objects
  | .read e => Names sha1 image e.toScreenshot ∧ e.object ∈ objects
  | .stored s => Names sha1 image s ∧ s.object ∈ objects ∧ s.key ∈ entities
  | _ => True

/-- The invariant of the server. -/
structure Inv (sha1 : Image → String) (srv : Server) : Prop where
  kept : Kept sha1 srv.objects srv.entities
  jobs : ∀ k req, srv.requests.lookup k = some req → ∀ job ∈ req.jobs,
    JobOk sha1 srv.objects srv.entities job.1 job.2
  answered : ∀ k req, srv.requests.lookup k = some req → req.status = some 201 →
    ∀ job ∈ req.jobs, job.2.ok = true

/-- Objects and entities stay, perhaps with another value. -/
structure Grows (srv srv' : Server) : Prop where
  objects : ∀ name ∈ srv.objects, name ∈ srv'.objects
  entities : ∀ key ∈ srv.entities, key ∈ srv'.entities

theorem Grows.refl (srv : Server) : Grows srv srv := ⟨fun _ h => h, fun _ h => h⟩

theorem JobOk.mono {progress : Progress}
    (h : JobOk sha1 srv.objects srv.entities image progress) (hgrows : Grows srv srv') :
    JobOk sha1 srv'.objects srv'.entities image progress := by
  cases progress with
  | present s => exact ⟨h.1, hgrows.objects _ h.2⟩
  | read e => exact ⟨h.1, hgrows.objects _ h.2⟩
  | stored s => exact ⟨h.1, hgrows.objects _ h.2.1, hgrows.entities _ h.2.2⟩
  | hashed s => exact h
  | rewound s ok => exact h
  | missing s ok => exact h
  | _ => trivial

/-- What a step for a file leaves. -/
structure StepOk (sha1 : Image → String) (srv srv' : Server) (image : Image)
    (progress : Progress) : Prop where
  requests : srv'.requests = srv.requests
  grows : Grows srv srv'
  kept : Kept sha1 srv'.objects srv'.entities
  job : JobOk sha1 srv'.objects srv'.entities image progress

theorem StepOk.same (hkept : Kept sha1 srv.objects srv.entities) {progress : Progress}
    (hjob : JobOk sha1 srv.objects srv.entities image progress) :
    StepOk sha1 srv srv image progress :=
  ⟨rfl, Grows.refl srv, hkept, hjob⟩

theorem StepOk.failed (hkept : Kept sha1 srv.objects srv.entities) :
    StepOk sha1 srv srv image .failed := StepOk.same hkept trivial

/-- The object is written under the hash of the image. -/
theorem StepOk.write (hkept : Kept sha1 srv.objects srv.entities) {s : Screenshot}
    (hnames : Names sha1 image s) :
    StepOk sha1 srv { srv with objects := srv.objects.insert s.object image } image
      (.present s) where
  requests := rfl
  grows := ⟨fun _ h => Finmap.mem_insert.mpr (.inr h), fun _ h => h⟩
  kept := by
    refine ⟨fun name image' hname => ?_, fun key e he => ?_⟩
    · change (srv.objects.insert s.object image).lookup name = some image' at hname
      rw [GoMap.lookup_insert_eq_ite] at hname
      split_ifs at hname with heq
      · cases hname
        exact heq.trans hnames.object_eq
      · exact hkept.hashed name image' hname
    · obtain ⟨hkey, hmethod, hobject⟩ := hkept.backed key e he
      exact ⟨hkey, hmethod, Finmap.mem_insert.mpr (.inr hobject)⟩
  job := ⟨hnames, Finmap.mem_insert.mpr (.inl rfl)⟩

/-- The entity is put after its object. -/
theorem StepOk.put (hkept : Kept sha1 srv.objects srv.entities) {e : Entity}
    (hnames : Names sha1 image e.toScreenshot) (hobject : e.object ∈ srv.objects) :
    StepOk sha1 srv { srv with entities := srv.entities.insert e.key e } image
      (.stored e.toScreenshot) where
  requests := rfl
  grows := ⟨fun _ h => h, fun _ h => Finmap.mem_insert.mpr (.inr h)⟩
  kept := by
    refine ⟨hkept.hashed, fun key e' he => ?_⟩
    change (srv.entities.insert e.key e).lookup key = some e' at he
    rw [GoMap.lookup_insert_eq_ite] at he
    split_ifs at he with heq
    · cases he
      exact ⟨heq, hnames.hashMethod, hobject⟩
    · exact hkept.backed key e' he
  job := ⟨hnames, hobject, Finmap.mem_insert.mpr (.inl rfl)⟩

theorem names_of_hashFile {hashMethod : String} {labels : List String} {s : Screenshot}
    (h : hashFile sha1 hashMethod labels image = some s) : Names sha1 image s := by
  rw [hashFile] at h
  by_cases hsha1 : (if hashMethod = "" then "sha1" else hashMethod) = "sha1"
  · rw [if_pos hsha1] at h
    rw [← Option.some.inj h]
    exact ⟨hsha1, rfl⟩
  · rw [if_neg hsha1] at h
    cases h

theorem Names.mergeOld {s : Screenshot} (h : Names sha1 image s)
    (toStringSlice : RangeOrder String) (old : Option Entity) :
    Names sha1 image (mergeOld toStringSlice s old).toScreenshot ∧
      (mergeOld toStringSlice s old).object = s.object := by
  cases old with
  | none => exact ⟨h, rfl⟩
  | some old => exact ⟨⟨h.hashMethod, h.hashDigest⟩, rfl⟩

/-- **A step for a file** keeps what is stored and does what the file's progress says. -/
theorem storeScreenshot_spec (hkept : Kept sha1 srv.objects srv.entities) {req : Request}
    {progress progress' : Progress} {move : Move}
    (hjob : JobOk sha1 srv.objects srv.entities image progress) (hcareful : move.Careful)
    (hstep : storeScreenshot sha1 srv req image progress move = some (srv', progress')) :
    StepOk sha1 srv srv' image progress' := by
  rw [storeScreenshot.eq_def] at hstep
  split at hstep
  · next ok =>
    cases hstep
    refine StepOk.same hkept ?_
    cases ok <;> trivial
  · split at hstep
    · next s _ hhash =>
      cases hstep
      exact StepOk.same hkept (names_of_hashFile hhash)
    · cases hstep
      exact StepOk.same hkept trivial
  · cases hstep
    exact StepOk.same hkept ⟨hjob, hcareful⟩
  · next s ok fails =>
    obtain rfl : fails = false := hcareful
    rw [Bool.false_or] at hstep
    cases hstep
    refine StepOk.same hkept ?_
    -- the object is written only when the bucket does not have it
    by_cases hobject : s.object ∈ srv.objects
    · rw [if_pos (decide_eq_true hobject)]
      exact ⟨hjob.1, hobject⟩
    · rw [if_neg (by simpa using hobject)]
      exact hjob
  · next s rewound ok =>
    obtain ⟨hnames, rfl⟩ := hjob
    cases ok with
    | true =>
      cases hstep
      exact StepOk.write hkept hnames
    | false =>
      cases hstep
      exact StepOk.failed hkept
  · next s fails toStringSlice =>
    by_cases hhash : s.hashDigest = "" ∨ s.hashMethod = ""
    · rw [if_pos hhash] at hstep
      cases hstep
      exact StepOk.failed hkept
    · rw [if_neg hhash] at hstep
      cases hstep
      obtain ⟨hnames, hobject⟩ :=
        hjob.1.mergeOld toStringSlice (if fails then none else srv.entities.lookup s.key)
      exact StepOk.same hkept ⟨hnames, hobject ▸ hjob.2⟩
  · next e ok now =>
    cases ok with
    | true =>
      cases hstep
      exact StepOk.put (e := { e with lastUsed := now }) hkept
        ⟨hjob.1.hashMethod, hjob.1.hashDigest⟩ hjob.2
    | false =>
      cases hstep
      exact StepOk.failed hkept
  · cases hstep

/-- Another upload, or the same one further on. -/
theorem Inv.insert (h : Inv sha1 srv) {k : Nat} {req : Request}
    (hjobs : ∀ job ∈ req.jobs, JobOk sha1 srv.objects srv.entities job.1 job.2)
    (hanswered : req.status = some 201 → ∀ job ∈ req.jobs, job.2.ok = true) :
    Inv sha1 { srv with requests := srv.requests.insert k req } where
  kept := h.kept
  jobs k' req' hreq' := by
    change (srv.requests.insert k req).lookup k' = some req' at hreq'
    rw [GoMap.lookup_insert_eq_ite] at hreq'
    split_ifs at hreq'
    · cases hreq'
      exact hjobs
    · exact h.jobs k' req' hreq'
  answered k' req' hreq' := by
    change (srv.requests.insert k req).lookup k' = some req' at hreq'
    rw [GoMap.lookup_insert_eq_ite] at hreq'
    split_ifs at hreq'
    · cases hreq'
      exact hanswered
    · exact h.answered k' req' hreq'

/-- A file that has ended makes no step. -/
theorem not_ended_of_step {req : Request} {progress progress' : Progress} {move : Move}
    (h : storeScreenshot sha1 srv req image progress move = some (srv', progress')) :
    progress.ended = false := by
  cases progress with
  | stored s => cases h
  | failed => cases h
  | _ => rfl

theorem ended_of_ok {progress : Progress} (h : progress.ok = true) : progress.ended = true := by
  cases progress with
  | stored s => rfl
  | _ => cases h

theorem lookup_of_lookup_erase {k k' : Nat} {req : Request} {requests : GoMap Nat Request}
    (h : (requests.erase k).lookup k' = some req) : requests.lookup k' = some req := by
  by_cases hk : k' = k
  · rw [hk, Finmap.lookup_erase] at h
    cases h
  · rwa [Finmap.lookup_erase_ne hk] at h

/-- **One step** of the server keeps the invariant. -/
theorem Inv.step (h : Inv sha1 srv) {event : Event} (hcareful : event.Careful)
    (hstep : step sha1 srv event = some srv') : Inv sha1 srv' := by
  cases event with
  | post k hashMethod browser browserVersion os osVersion images =>
    rw [Screenshots.step] at hstep
    split_ifs at hstep with hk hempty
    · cases hstep
      exact h.insert (by simp [hempty]) nofun
    · cases hstep
      refine h.insert (fun job hjob => ?_) nofun
      obtain ⟨image, -, rfl⟩ := List.mem_map.mp hjob
      trivial
  | job k j move =>
    rw [Screenshots.step] at hstep
    obtain ⟨req, hreq, hstep⟩ := Option.bind_eq_some_iff.mp hstep
    obtain ⟨⟨image, progress⟩, hjob, hstep⟩ := Option.bind_eq_some_iff.mp hstep
    obtain ⟨⟨srv₁, progress'⟩, hmove, hstep⟩ := Option.bind_eq_some_iff.mp hstep
    cases hstep
    have hmem : (image, progress) ∈ req.jobs := List.mem_of_getElem? hjob
    have hok := storeScreenshot_spec h.kept (h.jobs k req hreq _ hmem) hcareful hmove
    have h₁ : Inv sha1 srv₁ := by
      refine ⟨hok.kept, fun k' req' hreq' job hjob => ?_, fun k' req' hreq' => ?_⟩
      · rw [hok.requests] at hreq'
        exact (h.jobs k' req' hreq' job hjob).mono hok.grows
      · rw [hok.requests] at hreq'
        exact h.answered k' req' hreq'
    refine h₁.insert (fun job' hjob' => ?_) fun hstatus => ?_
    · rcases List.mem_or_eq_of_mem_set hjob' with hold | rfl
      · exact (h.jobs k req hreq job' hold).mono hok.grows
      · exact hok.job
    · -- an answered upload has no file under way, so none of them moves
      have hended := ended_of_ok (h.answered k req hreq hstatus _ hmem)
      rw [not_ended_of_step hmove] at hended
      cases hended
  | answer k =>
    rw [Screenshots.step] at hstep
    obtain ⟨req, hreq, hstep⟩ := Option.bind_eq_some_iff.mp hstep
    split_ifs at hstep with hended hok
    · cases hstep
      exact h.insert (h.jobs k req hreq) fun _ => List.all_eq_true.mp hok
    · cases hstep
      exact h.insert (h.jobs k req hreq) nofun
  | drop k =>
    cases hstep
    refine ⟨h.kept, fun k' req' hreq' => ?_, fun k' req' hreq' => ?_⟩
    · exact h.jobs k' req' (lookup_of_lookup_erase hreq')
    · exact h.answered k' req' (lookup_of_lookup_erase hreq')

end Invariant

/-! ## Every state

By induction over the events of any number of uploads. With it each hash that the page gets has an
image. -/

section Reachability

variable {sha1 : Image → String} {srv : Server}

theorem inv_init : Inv sha1 {} where
  kept := ⟨fun name image h => (by cases h), fun key e h => (by cases h)⟩
  jobs k req hreq := by cases hreq
  answered k req hreq := by cases hreq

theorem inv_of_reachable (h : ReachableWith (step sha1) (fun _ event => event.Careful) {} srv) :
    Inv sha1 srv :=
  h.invariant inv_init fun hinv hcareful hstep => hinv.step hcareful hstep

/-- An object of this name has content with this hash. -/
theorem Inv.content (h : Inv sha1 srv) {hash : String}
    (hobject : "sha1:" ++ hash ++ ".png" ∈ srv.objects) :
    ∃ image, srv.objects.lookup ("sha1:" ++ hash ++ ".png") = some image ∧ sha1 image = hash := by
  obtain ⟨image, himage⟩ := Finmap.mem_iff.mp hobject
  refine ⟨image, himage, ?_⟩
  have hname := h.kept.hashed _ image himage
  rw [← String.toList_inj] at hname ⊢
  simpa using hname.symm

/-- A hash that is listed comes from one of the hits. -/
theorem mem_addHits {totalLimit : Int} {all : Finset String} {hits : List Screenshot}
    {hash : String} (h : hash ∈ addHits totalLimit all hits) :
    hash ∈ all ∨ ∃ s ∈ hits, s.hash = hash := by
  induction hits generalizing all with
  | nil => exact .inl h
  | cons s hits ih =>
    rw [addHits] at h
    have hinsert : hash ∈ insert s.hash all → hash ∈ all ∨ ∃ t ∈ s :: hits, t.hash = hash :=
      fun hmem => (Finset.mem_insert.mp hmem).elim
        (fun heq => .inr ⟨s, List.mem_cons_self, heq.symm⟩) .inl
    split_ifs at h
    · exact hinsert h
    · rcases ih h with hold | ⟨t, ht, heq⟩
      · exact hinsert hold
      · exact .inr ⟨t, List.mem_cons_of_mem _ ht, heq⟩

theorem mem_screenshots_of_getAll {ds : Datastore} {q : Query} {hits : List Screenshot}
    (hlimit : 0 ≤ q.limit) (h : ds.getAll q = .ok hits) {s : Screenshot} (hs : s ∈ hits) :
    s ∈ ds.screenshots := by
  obtain ⟨listing, hperm, -, rfl⟩ := ds.getAll_spec q hits hlimit h
  exact (List.mem_filter.mp (hperm.subset (List.mem_of_mem_take hs))).1

/-- What the rounds gather is in the store. -/
theorem mem_rounds {ds : Datastore} {totalLimit : Int} {labels : List String}
    {all : Finset String} {hash : String} (h : hash ∈ (rounds ds totalLimit labels all).1) :
    hash ∈ all ∨ ∃ s ∈ ds.screenshots, s.hash = hash := by
  induction labels generalizing all with
  | nil =>
    rw [rounds] at h
    split_ifs at h with hlt
    · split at h
      · exact .inl h
      · next hits hhits =>
        refine (mem_addHits h).imp_right ?_
        rintro ⟨s, hs, heq⟩
        exact ⟨s, mem_screenshots_of_getAll (by dsimp only; omega) hhits hs, heq⟩
    · exact .inl h
  | cons label labels ih =>
    rw [rounds] at h
    split_ifs at h with hlt
    · split at h
      · exact .inl h
      · next hits hhits =>
        rcases ih h with hadded | hstored
        · refine (mem_addHits hadded).imp_right ?_
          rintro ⟨s, hs, heq⟩
          exact ⟨s, mem_screenshots_of_getAll (by dsimp only; omega) hhits hs, heq⟩
        · exact .inr hstored
    · exact .inl h

/-- **Every hash has its image**: what is listed for a run that is to come is in the bucket, with
this hash, whatever uploads are under way or were given up. -/
theorem hashes_have_images
    (h : ReachableWith (step sha1) (fun _ event => event.Careful) {} srv) (ds : Datastore)
    (hds : ∀ s ∈ ds.screenshots, ∃ key e, srv.entities.lookup key = some e ∧ e.toScreenshot = s)
    (toStringSlice : RangeOrder String) (browser browserVersion os osVersion : String)
    (limit : Option Int) :
    ∀ hash ∈ (recentScreenshotHashes ds toStringSlice browser browserVersion os osVersion limit).1,
      ∃ image, srv.objects.lookup (hash ++ ".png") = some image ∧ hash = "sha1:" ++ sha1 image := by
  intro hash hhash
  have hinv := inv_of_reachable h
  rw [recentScreenshotHashes] at hhash
  have hrounds := (mem_rangeOrder _ _ _).mp hhash
  obtain ⟨s, hs, rfl⟩ := (mem_rounds hrounds).resolve_left (Finset.notMem_empty _)
  obtain ⟨key, e, he, rfl⟩ := hds s hs
  obtain ⟨-, hmethod, hobject⟩ := hinv.kept.backed key e he
  have hhash : e.hash = "sha1:" ++ e.hashDigest := by
    rw [Screenshot.hash, hmethod]
    rfl
  rw [Screenshot.object, hhash] at hobject
  obtain ⟨image, himage, hsha1⟩ := hinv.content hobject
  exact ⟨image, hhash ▸ himage, by rw [hhash, hsha1]⟩

/-- The digests of `abc` and of nothing. -/
def digestOf (image : Image) : String :=
  if image = [97, 98, 99] then "a9993e364706816aba3e25717850c26c9cd0d89d"
  else "da39a3ee5e6b4b0d3255bfef95601890afd80709"

/-- An upload of one image that goes well. -/
def uploadEvents : List Event :=
  [.post 0 "" "chrome" "90" "linux" "" [[97, 98, 99]], .job 0 0 (.openFile true),
    .job 0 0 (.hash true), .job 0 0 (.seek true), .job 0 0 (.attrs false), .job 0 0 (.write true),
    .job 0 0 (.get false (sortedOrder id Function.injective_id)), .job 0 0 (.put true 5),
    .answer 0]

theorem run_uploadEvents_isSome : (run (step digestOf) {} uploadEvents).isSome := by
  decide +kernel

def uploaded : Server := (run (step digestOf) {} uploadEvents).get run_uploadEvents_isSome

theorem reachable_uploaded :
    ReachableWith (step digestOf) (fun _ event => event.Careful) {} uploaded :=
  ReachableWith.init.run (by simp [uploadEvents, Event.Careful, Move.Careful])
    (Option.some_get _).symm

/-- What Datastore has of the image. -/
def listed : List Screenshot :=
  (uploaded.entities.lookup "a9993e364706816aba3e25717850c26c9cd0d89d:sha1").toList.map
    Entity.toScreenshot

theorem hashes_have_images_uploaded :
    ∃ image, uploaded.objects.lookup
        ("sha1:a9993e364706816aba3e25717850c26c9cd0d89d" ++ ".png") = some image ∧
      "sha1:a9993e364706816aba3e25717850c26c9cd0d89d" = "sha1:" ++ digestOf image :=
  hashes_have_images reachable_uploaded (.ofScreenshots listed)
    (fun s hs => by
      obtain ⟨e, he, rfl⟩ := List.mem_map.mp hs
      exact ⟨_, e, Option.mem_toList.mp he, rfl⟩)
    (sortedOrder id Function.injective_id) "chrome" "" "" "" none _ (by decide +kernel)

/-- **What was answered is stored**: when every batch of a file of screenshots was answered with
201, each image on its lines is known, and an image with its hash is in the bucket. -/
theorem process_stored
    (h : ReachableWith (step sha1) (fun _ event => event.Careful) {} srv) {lines : List String}
    (hposted : ∀ batch ∈ process lines, ∃ k req, srv.requests.lookup k = some req ∧
      req.jobs.map Prod.fst = batch ∧ req.status = some 201) :
    ∀ line ∈ lines, ∀ image, imageOf line = some image →
      sha1 image ++ ":sha1" ∈ srv.entities ∧
        ∃ image', srv.objects.lookup ("sha1:" ++ sha1 image ++ ".png") = some image' ∧
          sha1 image' = sha1 image := by
  intro line hline image himage
  have hinv := inv_of_reachable h
  have hin : image ∈ (process lines).flatten := by
    rw [flatten_process]
    exact List.mem_filterMap.mpr ⟨line, hline, himage⟩
  obtain ⟨batch, hbatch, hin⟩ := List.mem_flatten.mp hin
  obtain ⟨k, req, hreq, rfl, hstatus⟩ := hposted batch hbatch
  obtain ⟨⟨image, progress⟩, hjob, rfl⟩ := List.mem_map.mp hin
  have hok := hinv.answered k req hreq hstatus _ hjob
  have hdone := hinv.jobs k req hreq _ hjob
  cases progress with
  | stored s =>
    obtain ⟨hnames, hobject, hentity⟩ := hdone
    rw [hnames.object_eq] at hobject
    rw [Screenshot.key, hnames.hashMethod, hnames.hashDigest, String.append_assoc] at hentity
    exact ⟨hentity, hinv.content hobject⟩
  | _ => cases hok

/-- The image of a file with one line is stored under its hash. -/
theorem process_stored_uploaded :
    digestOf [97, 98, 99] ++ ":sha1" ∈ uploaded.entities ∧
      ∃ image', uploaded.objects.lookup ("sha1:" ++ digestOf [97, 98, 99] ++ ".png") = some image' ∧
        digestOf image' = digestOf [97, 98, 99] := by
  have hline : "data:image/png;base64,YWJj" ∈ ["data:image/png;base64,YWJj", "# a comment"] :=
    List.mem_cons_self
  refine process_stored reachable_uploaded (fun batch hbatch => ?_) _ hline _ (by decide +kernel)
  have hbatches : process ["data:image/png;base64,YWJj", "# a comment"] = [[[97, 98, 99]]] := by
    decide +kernel
  rw [hbatches, List.mem_singleton] at hbatch
  have hrequest : ((uploaded.requests.lookup 0).map fun req =>
      (req.jobs.map Prod.fst, req.status)) = some ([[97, 98, 99]], some 201) := by decide +kernel
  obtain ⟨req, hreq, heq⟩ := Option.map_eq_some_iff.mp hrequest
  obtain ⟨himages, hstatus⟩ := Prod.mk.inj heq
  exact ⟨0, req, hreq, himages.trans hbatch.symm, hstatus⟩

end Reachability

end WptFyi.Screenshots
