import WptFyi.Lib.GoStrings
import WptFyi.Lib.Runs
import WptFyi.Processor.WPTReport
import WptFyi.Receiver.PendingTestRuns

/-!
# From an upload to a test run (`api/receiver`, `results-processor`)

The receiver stores what was uploaded and queues a task; the queue delivers a task until a
processor answers it; the processor stores the merged results and has the receiver create
the run. Processors run side by side, any of them can stop at any time, and a request is
handled whenever it arrives, also when nobody waits for the answer any more.

Whoever uploads may name a callback URL. The run is then posted there and the reports on its
stage go to that host, be it this deployment or another one.

An answer other than success is no step of its own. A processor whose request fails raises,
which is a `crash` here, and the queue delivers the task again. It does so until the task is
too old (`task_age_limit` in `webapp/web/queue.yaml`), so a report whose run the receiver
refuses to create is tried again and again and then dropped (`expireTask`).

- `prepareLabels`, `normalizeProduct`, `createTestRun`: what a processor asks for;
- `processReport`: the moves of a processor, in the order of `process_report`;
- `step`: a step of the receiver, a processor, the queue or a request under way.
-/

namespace WptFyi.Receiver

open Lib Lib.GoStrings Shared

/-! ## Reports and requests

What is in a report and in the requests that are sent about it, as far as the receiver, the
processor and the API read it. -/

/-- The metadata of a report, `run_info`; what is not there is empty. -/
structure ReportInfo where
  product : String := ""
  browserVersion : String := ""
  os : String := ""
  osVersion : String := ""
  revision : String := ""
  browserChannel : String := ""
deriving DecidableEq

/-- A report that was loaded and finalized, with the digest of its files. -/
structure LoadedReport where
  info : ReportInfo
  hashsum : String
deriving DecidableEq

/-- A deployment: its buckets, and which callback URLs lead to it. -/
structure Deployment where
  rawResults : String
  results : String
  /-- A run that is posted to this URL is created here. -/
  createsAt : String → Bool
  /-- A report on a stage that is sent to the host of this URL is handled here. -/
  reportsAt : String → Bool

/-- `re.sub('[^A-Za-z0-9._-]', '_', name)`. -/
def sanitize (name : String) : String :=
  String.ofList (name.toList.map fun c =>
    if c.isAlphanum || c = '.' || c = '_' || c = '-' then c else '_')

/-- `os.path.join`, of a second path that is relative. -/
def pathJoin (a b : String) : String :=
  if a = "" || hasSuffix a "/" then a ++ b else a ++ "/" ++ b

/-- `gs_to_public_url`. -/
def publicURL (path : String) : String := "https://storage.googleapis.com/" ++ path

namespace LoadedReport

variable (r : LoadedReport) (b : Deployment)

/-- `product_id`, sanitized. -/
def productId : String :=
  let name := join [r.info.product, r.info.browserVersion, r.info.os] '-'
  let name := if r.info.osVersion = "" then name else name ++ "-" ++ r.info.osVersion
  sanitize (name ++ "-" ++ String.ofList (r.hashsum.toList.take 10))

/-- `sha_product_path`. -/
def shaProductPath : String := pathJoin r.info.revision r.productId

/-- `sha_summary_path`. -/
def shaSummaryPath : String := r.shaProductPath ++ "-summary_v2.json.gz"

/-- Where the merged report goes, without the scheme. -/
def rawResultsPath : String := b.rawResults ++ "/" ++ r.shaProductPath ++ "/report.json"

/-- Where the summary goes. -/
def resultsPath : String := b.results ++ "/" ++ r.shaSummaryPath

/-- `raw_results_url`. -/
def rawResultsURL : String := publicURL (r.rawResultsPath b)

/-- `results_url`. -/
def resultsURL : String := publicURL (r.resultsPath b)

end LoadedReport

/-- What an upload asks for, once its files are stored. -/
structure Upload where
  uploader : String
  results : List String
  screenshots : List String
  archives : List String
  extraParams : List (String × String)
deriving DecidableEq

/-- A task of the queue. -/
structure Task extends Upload where
  id : Int
deriving DecidableEq

namespace Task

/-- `params.get(key)`; an empty value is not sent. -/
def param (t : Task) (key : String) : Option String :=
  (t.extraParams.lookup key).filter (· ≠ "")

def callbackURL (t : Task) : Option String := t.param "callback_url"

def labels (t : Task) : String := (t.param "labels").getD ""

end Task

/-- The body of the request that creates a run; the ID is zero when none was reserved. The
labels are sent in order. -/
structure CreateRequest extends ProductAtRevision where
  id : Int
  resultsURL : String
  rawResultsURL : String
  labels : Finset String
deriving DecidableEq

/-- A stored run. -/
structure StoredRun extends ProductAtRevision where
  resultsURL : String
  rawResultsURL : String
  labels : Finset String
deriving DecidableEq

/-! ## Labels -/

/-- `RELEASE_CHANNEL_LABELS`. -/
def releaseChannelLabels : Finset String := {"stable", "beta", "experimental"}

/-- `_channel_to_labels`. -/
def channelToLabels (browser channel : String) : Finset String :=
  let labels : Finset String := {channel}
  let labels :=
    if channel = "preview" then insert "experimental" labels
    else if channel = "dev" ∧ browser ≠ "chrome" then insert "experimental" labels
    else if channel = "canary" ∧ browser = "chrome" then insert "experimental" labels
    else if channel = "canary" ∧ browser = "deno" then insert "experimental" labels
    else if channel = "nightly" ∧ browser ≠ "chrome" then insert "experimental" labels
    else labels
  let labels := if channel = "release" then insert "stable" labels else labels
  if channel = "canary" ∧ (browser = "edgechromium" ∨ browser = "edge") then
    insert "nightly" labels
  else labels

/-- `prepare_labels`. -/
def prepareLabels (info : ReportInfo) (labelsStr uploader : String) : Finset String :=
  let labels : Finset String :=
    {info.product, uploader} ∪ ((split labelsStr ',').map WptFyi.Processor.strip).toFinset
  let labels :=
    if info.browserChannel ≠ "" then labels ∪ channelToLabels info.product info.browserChannel
    else if labels ∩ releaseChannelLabels = ∅ then insert "stable" labels
    else labels
  labels.erase ""

/-- A channel is among the labels that stand for it. -/
theorem mem_channelToLabels (browser channel : String) :
    channel ∈ channelToLabels browser channel := by
  have hinsert : ∀ {p : Prop} [Decidable p] {label : String} {labels : Finset String},
      channel ∈ labels → channel ∈ if p then insert label labels else labels := by
    intro p _ label labels h
    split_ifs
    · exact Finset.mem_insert_of_mem h
    · exact h
  have hself : channel ∈ ({channel} : Finset String) := Finset.mem_singleton_self channel
  rw [channelToLabels]
  refine hinsert (hinsert ?_)
  split_ifs
  case neg => exact hself
  all_goals exact Finset.mem_insert_of_mem hself

/-- The assertion of `create_test_run`: every run has a label. -/
theorem prepareLabels_nonempty (info : ReportInfo) (labelsStr uploader : String) :
    (prepareLabels info labelsStr uploader).Nonempty := by
  rw [prepareLabels]
  split_ifs with hchannel hnone
  · have hmem := mem_channelToLabels info.product info.browserChannel
    exact ⟨_, Finset.mem_erase.mpr ⟨hchannel, Finset.mem_union_right _ hmem⟩⟩
  · exact ⟨"stable", Finset.mem_erase.mpr ⟨by decide, Finset.mem_insert_self _ _⟩⟩
  · obtain ⟨label, hlabel⟩ := Finset.nonempty_iff_ne_empty.mpr hnone
    obtain ⟨hmem, hrelease⟩ := Finset.mem_inter.mp hlabel
    have hne : label ≠ "" := by
      rintro rfl
      exact absurd hrelease (by decide)
    exact ⟨label, Finset.mem_erase.mpr ⟨hne, hmem⟩⟩

/-- `normalize_product`: the product that a run is of, and labels for what it was. -/
def normalizeProduct (product : String) : String × Finset String :=
  if product = "edgechromium" ∨ product = "edge" then ("edge", {"edge", "edgechromium"})
  else if product = "webkitgtk_minibrowser" then ("webkitgtk", {"webkitgtk", "minibrowser"})
  else if product = "wpewebkit_minibrowser" then ("wpewebkit", {"wpewebkit", "minibrowser"})
  else (product, ∅)

/-! ## Requests -/

/-- The payload of `create_test_run`, with the metadata of the report. The URLs are those of
the product that the report names. -/
def createTestRun (b : Deployment) (t : Task) (r : LoadedReport) : CreateRequest where
  browserName := (normalizeProduct r.info.product).1
  browserVersion := r.info.browserVersion
  osName := r.info.os
  osVersion := r.info.osVersion
  revision := String.ofList (r.info.revision.toList.take 10)
  fullRevisionHash := r.info.revision
  id := t.id
  resultsURL := r.resultsURL b
  rawResultsURL := r.rawResultsURL b
  labels := prepareLabels r.info t.labels t.uploader ∪ (normalizeProduct r.info.product).2

/-- The checks of `HandleResultsCreate`, and the run that it stores. -/
def CreateRequest.testRun (req : CreateRequest) : Option StoredRun :=
  if req.fullRevisionHash.utf8ByteSize ≠ 40 then none
  else if req.revision ≠ "" && !hasPrefix req.fullRevisionHash req.revision then none
  else some
    { toProductAtRevision :=
        { req.toProductAtRevision with
          revision := String.ofList (req.fullRevisionHash.toList.take 10) }
      resultsURL := req.resultsURL
      rawResultsURL := req.rawResultsURL
      labels := req.labels }

/-! ## States

A state has the queue, the files, the processors at work, the requests on their way, and the runs.
Each part has one function that changes it. -/

/-- Why a processor drops its task. -/
inductive Outcome
  | empty
  | invalid
  | duplicate (rawResultsURL : String)
  | created (id : Int) (rawResultsURL : String)
  | createdAt (url : String)
deriving DecidableEq

/-- A processor, by what it has done. -/
inductive Processor
  | started (t : Task)
  | downloaded (t : Task)
  | loaded (t : Task) (r : LoadedReport)
  | checked (t : Task) (r : LoadedReport)
  | rawUploaded (t : Task) (r : LoadedReport)
  | summaryUploaded (t : Task) (r : LoadedReport)
  | uploaded (t : Task) (r : LoadedReport)
  | checkedAgain (t : Task) (r : LoadedReport)
  | creating (t : Task) (r : LoadedReport)
  | creatingAt (t : Task) (r : LoadedReport) (url : String)
  | finished (t : Task) (outcome : Outcome)
deriving DecidableEq

/-- How far the receiver is with a request to create a run. -/
inductive Progress
  | inFlight
  | added (id : Int)
  | answered (id : Int)
deriving DecidableEq

/-- A request to create a run. -/
structure Post where
  request : CreateRequest
  progress : Progress := .inFlight
deriving DecidableEq

/-- How far the receiver is with an upload. -/
inductive UploadCall
  | received (u : Upload)
  | reserved (u : Upload) (id : Int)
  | recorded (u : Upload) (id : Int)

/-- The datastore, the storage, the queue, the processors and what is under way. -/
structure Pipeline (Time : Type) where
  reserved : Finset Int := ∅
  runs : GoMap Int StoredRun := ∅
  pending : PendingStore Time := ∅
  files : Finset String := ∅
  tasks : List Task := []
  uploads : List UploadCall := []
  processors : GoMap Nat Processor := ∅
  /-- Reports on pending runs that have not been handled. -/
  updates : List (PendingTestRun Time) := []
  /-- Requests to create runs, by the processor that sent them. -/
  posts : GoMap Nat Post := ∅

namespace Pipeline

variable {Time : Type} (s : Pipeline Time)

def setProcessor (n : Nat) (p : Processor) : Pipeline Time :=
  { s with processors := s.processors.insert n p }

def eraseProcessor (n : Nat) : Pipeline Time := { s with processors := s.processors.erase n }

def addFile (path : String) : Pipeline Time := { s with files := insert path s.files }

def send (update : PendingTestRun Time) : Pipeline Time :=
  { s with updates := s.updates ++ [update] }

def setPost (n : Nat) (post : Post) : Pipeline Time := { s with posts := s.posts.insert n post }

def erasePost (n : Nat) : Pipeline Time := { s with posts := s.posts.erase n }

def addRun (id : Int) (run : StoredRun) : Pipeline Time :=
  { s with runs := s.runs.insert id run, reserved := insert id s.reserved }

/-- `UpdatePendingTestRun`, as the rest sees it. -/
def update (call : UpdateCall Time) : Pipeline Time :=
  { s with pending := (updatePendingTestRun s.pending call).1 }

/-- `check_existing_run`. -/
def hasRun (rawResultsURL : String) : Bool :=
  decide (∃ id ∈ s.runs.keys, (s.runs.lookup id).map StoredRun.rawResultsURL = some rawResultsURL)

end Pipeline

/-! ## Steps

An event is one thing that happens to one party: a request arrives, a task is taken, done, put back
or dropped, a file is written, an answer comes or is lost. `step` refuses what cannot happen. -/

section Steps

variable {Time : Type}

/-- A report on a pending run, of the product at a revision. -/
def statusReport (id : Int) (stage : PendingTestRunStage) (error : String)
    (p : ProductAtRevision) : PendingTestRun Time where
  id := id
  stage := stage
  error := error
  browserName := p.browserName
  browserVersion := p.browserVersion
  osName := p.osName
  osVersion := p.osVersion
  fullRevisionHash := p.fullRevisionHash.toUTF8.toList

/-- `update_status`: what is sent for a run with an ID. What goes to another host is of no
consequence here. -/
def updateStatus (b : Deployment) (s : Pipeline Time) (t : Task) (stage : PendingTestRunStage)
    (error : String) (info : ReportInfo) : Pipeline Time :=
  if t.id = 0 then s
  else if t.callbackURL.any (!b.reportsAt ·) then s
  else s.send (statusReport t.id stage error
    { browserName := info.product
      browserVersion := info.browserVersion
      osName := info.os
      osVersion := info.osVersion
      fullRevisionHash := info.revision })

/-- What the surroundings decide about the next move of a processor. -/
inductive Move
  | download (found : Bool)
  | load (loaded : Except (String × ReportInfo) LoadedReport)
  | check
  | upload
  | create
  | readAnswer

/-- The next move of a processor, in the order of `process_report`. -/
def processReport (b : Deployment) (s : Pipeline Time) (n : Nat) :
    Processor → Move → Option (Pipeline Time)
  | .started t, .download true => some (s.setProcessor n (.downloaded t))
  | .started t, .download false =>
    some ((updateStatus b s t 851 "" {}).setProcessor n (.finished t .empty))
  | .downloaded t, .load (.ok r) => some (s.setProcessor n (.loaded t r))
  | .downloaded t, .load (.error (err, info)) =>
    some ((updateStatus b s t 850 err info).setProcessor n (.finished t .invalid))
  | .loaded t r, .check =>
    if s.hasRun (r.rawResultsURL b) then
      some ((updateStatus b s t 852 "" r.info).setProcessor n
        (.finished t (.duplicate (r.rawResultsURL b))))
    else some (s.setProcessor n (.checked t r))
  | .checked t r, .upload =>
    some ((s.addFile (r.rawResultsPath b)).setProcessor n (.rawUploaded t r))
  -- the summary first, then the results of the tests
  | .rawUploaded t r, .upload =>
    some ((s.addFile (r.resultsPath b)).setProcessor n (.summaryUploaded t r))
  | .summaryUploaded t r, .upload => some (s.setProcessor n (.uploaded t r))
  | .uploaded t r, .check =>
    if s.hasRun (r.rawResultsURL b) then
      some ((updateStatus b s t 852 "" r.info).setProcessor n
        (.finished t (.duplicate (r.rawResultsURL b))))
    else some (s.setProcessor n (.checkedAgain t r))
  | .checkedAgain t r, .create =>
    match t.callbackURL.filter (!b.createsAt ·) with
    | some url => some (s.setProcessor n (.creatingAt t r url))
    | none => some ((s.setProcessor n (.creating t r)).setPost n { request := createTestRun b t r })
  | .creating t r, .readAnswer =>
    match s.posts.lookup n with
    | some { progress := .answered id, .. } =>
      some ((s.erasePost n).setProcessor n (.finished t (.created id (r.rawResultsURL b))))
    | _ => none
  | .creatingAt t _ url, .readAnswer => some (s.setProcessor n (.finished t (.createdAt url)))
  | _, _ => none

/-- `AddTestRun`: a run with an ID is only inserted, one without gets a new ID. -/
def addTestRun (s : Pipeline Time) (id newID : Int) (run : StoredRun) :
    Option (Pipeline Time × Int) :=
  if id ≠ 0 then if id ∈ s.runs then none else some (s.addRun id run, id)
  else if newID = 0 ∨ newID ∈ s.reserved ∨ newID ∈ s.runs then none
  else some (s.addRun newID run, newID)

/-- A step of one of the parties; an upload, task or report is named by its place. -/
inductive Event (Time : Type)
  | upload (u : Upload)
  | reserveID (k : Nat) (id : Int)
  | recordReceived (k : Nat) (createdNow updatedNow : Time)
  | scheduleTask (k : Nat)
  | abortUpload (k : Nat)
  | deliver (k n : Nat)
  | move (n : Nat) (move : Move)
  | crash (n : Nat)
  | answerTask (n : Nat)
  | expireTask (k : Nat)
  | handleUpdate (k : Nat) (createdNow updatedNow : Time)
  | loseUpdate (k : Nat)
  | addTestRun (n : Nat) (newID : Int)
  | markValid (n : Nat) (createdNow updatedNow : Time)
  | losePost (n : Nat)

/-- What `HandleResultsUpload` reports before it queues a task. -/
def receivedCall (u : Upload) (id : Int) (createdNow updatedNow : Time) : UpdateCall Time where
  newRun := { statusReport id 600 ""
    { browserName := "", fullRevisionHash := (u.extraParams.lookup "revision").getD "" } with
      uploader := u.uploader }
  createdNow := createdNow
  updatedNow := updatedNow

/-- A step of the receiver, a processor, the queue or a request under way. -/
def step (b : Deployment) (s : Pipeline Time) : Event Time → Option (Pipeline Time)
  | .upload u => some { s with uploads := s.uploads ++ [.received u] }
  | .reserveID k id =>
    match s.uploads[k]? with
    | some (.received u) =>
      -- an ID is reserved once
      if id = 0 ∨ id ∈ s.reserved then none
      else some { s with
        reserved := insert id s.reserved
        uploads := s.uploads.set k (.reserved u id) }
    | _ => none
  | .recordReceived k createdNow updatedNow =>
    match s.uploads[k]? with
    | some (.reserved u id) =>
      let call := receivedCall u id createdNow updatedNow
      match (updatePendingTestRun s.pending call).2 with
      | none => some { s.update call with uploads := s.uploads.set k (.recorded u id) }
      | some _ => some { s with uploads := s.uploads.eraseIdx k }
    | _ => none
  | .scheduleTask k =>
    match s.uploads[k]? with
    | some (.recorded u id) =>
      some { s with tasks := s.tasks ++ [{ u with id }], uploads := s.uploads.eraseIdx k }
    | _ => none
  | .abortUpload k => some { s with uploads := s.uploads.eraseIdx k }
  | .deliver k n =>
    match s.tasks[k]? with
    | some t =>
      -- the processor is a new one
      if n ∈ s.processors ∨ n ∈ s.posts then none
      else some ((updateStatus b s t 700 "" {}).setProcessor n (.started t))
    | none => none
  | .move n move => (s.processors.lookup n).bind fun p => processReport b s n p move
  | .crash n => some (s.eraseProcessor n)
  | .answerTask n =>
    match s.processors.lookup n with
    | some (.finished t _) =>
      some { s.eraseProcessor n with tasks := s.tasks.filter fun t' => t'.id ≠ t.id }
    | _ => none
  -- a processor that is at work on it goes on
  | .expireTask k =>
    if k < s.tasks.length then some { s with tasks := s.tasks.eraseIdx k } else none
  | .handleUpdate k createdNow updatedNow =>
    match s.updates[k]? with
    | some newRun =>
      some { s.update { newRun, createdNow, updatedNow } with updates := s.updates.eraseIdx k }
    | none => none
  | .loseUpdate k => some { s with updates := s.updates.eraseIdx k }
  | .addTestRun n newID =>
    match s.posts.lookup n with
    | some { request, progress := .inFlight } =>
      request.testRun.bind fun run =>
        (addTestRun s request.id newID run).map fun (s, id) =>
          s.setPost n { request, progress := .added id }
    | _ => none
  | .markValid n createdNow updatedNow =>
    match s.posts.lookup n with
    | some { request, progress := .added id } =>
      let newRun := statusReport id 800 "" request.toProductAtRevision
      -- an error is only logged
      some ((s.update { newRun, createdNow, updatedNow }).setPost n
        { request, progress := .answered id })
    | _ => none
  | .losePost n => some (s.erasePost n)

end Steps

end WptFyi.Receiver
