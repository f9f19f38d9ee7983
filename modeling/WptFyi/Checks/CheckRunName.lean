import WptFyi.Shared.ProductSpecRoundTrip

/-!
# The names of check runs (`api/checks`)

A check run is named after its host and its product. A re-run request is decoded
after the host is cut off; the search for an existing check run decodes the name
with the host in it.

Writing a name and reading it are done in three files. `CheckState.Name` puts the host, a dash and
the printed spec together; the webhook strips the host by a regular expression and parses the rest;
`updateCheckRunSummary` looks among the check runs of the app for one to update and parses the whole
name. The spec parser takes everything before the first dash, or before a bracket, for the browser,
so on the whole name it finds a browser called like the host. Nothing is called that, and no
existing check run is ever found. A re-run request does come back to its run
(`rerequestedSpec_name`), for all browsers that the parser knows.

- `browserName_eq_host`: the browser the search reads is the host's name;
- `not_nameDecodes`: so no name is decoded on both sides;
- `existingCheckRun_eq_none`: the search finds nothing, whatever the app has made;
- `length_afterSummaries`: and every summary creates a check run.

Left out are the suites, the texts of a summary and the calls of GitHub's API beside their outcome.
-/

namespace WptFyi.Checks

open Lib Lib.GoStrings Shared

/-! ## Names -/

/-- The fields of a `CheckState` that name and find its check run. -/
structure CheckState where
  hostName : String
  testRun : Option TestRun
  product : ProductSpec

/-- `Name`: the host, the browser and whether it is experimental. -/
def CheckState.name (state : CheckState) : String :=
  let host := if state.hostName = "" then "wpt.fyi" else state.hostName
  let spec : ProductSpec := { browserName := state.product.browserName }
  let spec := if state.product.isExperimental then { spec with labels := some {"experimental"} }
    else spec
  host ++ " - " ++ spec.string

/-- The hosts. -/
def hosts : List String := ["wpt.fyi", "staging.wpt.fyi"]

/-- The state of a run: browser and revision are the run's, its channel is the label. -/
structure DerivedFrom (state : CheckState) (run : TestRun) : Prop where
  testRun : state.testRun = some run
  product : state.product =
    { browserName := run.browserName, revision := run.revision, labels := some {run.channel} }

/-! ## Decoding a re-run request -/

/-- A match of `runNameRegex`: what follows the host, on the same line. -/
def runNameMatch (name : String) : Option String :=
  let after (host : String) : Option String :=
    if hasPrefix name host then some (String.ofList (name.toList.drop host.toList.length)) else none
  ((after "staging.wpt.fyi - ").or (after "wpt.fyi - ")).filter fun rest => '\n' ∉ rest.toList

section Decoding

variable (m : LowerCase)

/-- The spec a re-run request is for. -/
def rerequestedSpec (name : String) : ProductSpec × Option String :=
  parseProductSpec m ((runNameMatch name).getD name)

def wptfyiCheckAppID : Int := 23318

def wptfyiStagingCheckAppID : Int := 19965

/-- `isWPTFYIApp`. -/
def isWPTFYIApp (appID : Int) : Bool :=
  appID == wptfyiCheckAppID || appID == wptfyiStagingCheckAppID

/-- The fields of a `CheckRunEvent` that are read. -/
structure CheckRunEvent where
  action : String
  status : String
  /-- The identifier of the requested action. -/
  identifier : String
  name : String
  headSHA : String
  appID : Int

/-- What an event leads to. -/
inductive Handled where
  | ignored
  | ignoreFailure
  | cancelRun
  | scheduled (sha : String) (spec : ProductSpec)
  | failed (err : String)
deriving DecidableEq

/-- `handleCheckRunEvent`. -/
def handleCheckRunEvent (event : CheckRunEvent) : Handled :=
  let schedule : Handled := match rerequestedSpec m event.name with
    | (spec, none) => .scheduled event.headSHA spec
    | (_, some err) => .failed err
  if !isWPTFYIApp event.appID then .ignored
  else if event.action = "created" ∧ event.status ≠ "completed" ∨ event.action = "rerequested" then
    schedule
  else if event.action = "requested_action" then
    if event.identifier = "recompute" then schedule
    else if event.identifier = "ignore" then .ignoreFailure
    else if event.identifier = "cancel" then .cancelRun
    else .ignored
  else .ignored

/-! ## Looking for an existing check run -/

/-- A check run on GitHub. -/
structure CheckRun where
  id : Nat
  appID : Int
  name : String
deriving DecidableEq

/-- The first check run of the app whose name, taken as a spec, matches the run. -/
def existingCheckRun (appID : Int) (testRun : Option TestRun) (checkRuns : List CheckRun) :
    Option CheckRun :=
  testRun.bind fun testRun => checkRuns.find? fun run =>
    run.appID == appID && (parseProductSpec m run.name).1.matchesRun testRun

/-- The request sent to GitHub. -/
inductive Request where
  | update (id : Nat) (name : String)
  | create (name : String)
deriving DecidableEq

/-- `updateCheckRunSummary`. -/
def updateCheckRunSummary (appID : Int) (state : CheckState) (checkRuns : List CheckRun) :
    Request :=
  match existingCheckRun m appID state.testRun checkRuns with
  | some run => .update run.id state.name
  | none => .create state.name

/-- Both decoders read a spec of the run in its check run's name. -/
structure NameDecodes (state : CheckState) (run : TestRun) : Prop where
  update : (parseProductSpec m state.name).1.matchesRun run = true
  rerequest : (rerequestedSpec m state.name).2 = none ∧
    (rerequestedSpec m state.name).1.matchesRun run = true

end Decoding

/-! ## What is read with the host in the name

The name of a check run starts with the host, if there is one. Then the host is what comes before
the first separator, so it is what is read as the browser. -/

section Host

variable {m : LowerCase}

/-- The browser of a product, whether it is accepted or not: what stands before the first dash, in
lower case, unless nothing does. -/
theorem browserName_parseProduct (product : String) :
    (parseProduct m product).1.browserName = "" ∨
      (parseProduct m product).1.browserName = m.toLower ((split product '-').headD "") := by
  have hhead : (split product '-').getD 0 "" = (split product '-').headD "" := by
    cases split product '-' <;> rfl
  unfold parseProduct
  simp only
  rw [hhead]
  split_ifs with hlen hbrowser
  · exact Or.inl rfl
  · exact Or.inr rfl
  · right
    split <;> try split_ifs
    all_goals rfl

/-- With or without an error, the browser is what stands before the first dash. -/
theorem browserName_parseProductSpec (s : String) :
    (parseProductSpec m s).1.browserName = "" ∨
      (parseProductSpec m s).1.browserName = m.toLower (specBrowser s) := by
  -- with or without labels, the product is what stands before them
  have hlabelled : ∀ (errMsg : String) (productSpec : ProductSpec) (name : String),
      productSpec.browserName = "" →
      (parseLabelled m errMsg productSpec name).1.browserName = "" ∨
        (parseLabelled m errMsg productSpec name).1.browserName =
          m.toLower ((split ((split name '[').headD "") '-').headD "") := by
    intro errMsg productSpec name hempty
    unfold parseLabelled
    split
    · next product labels hpieces =>
      rw [hpieces]
      split
      · exact Or.inl hempty
      · exact browserName_parseProduct product
    · next product hpieces =>
      rw [hpieces]
      exact browserName_parseProduct product
    · exact Or.inl hempty
  unfold parseProductSpec specBrowser specProduct
  simp only
  split
  · next name sha hpieces =>
    rw [hpieces]
    split
    · exact Or.inl rfl
    · exact hlabelled _ _ name rfl
  · next name hpieces =>
    rw [hpieces]
    exact hlabelled _ _ name rfl
  · exact Or.inl rfl

/-- What comes before the first `@` is before the cut at the SHA. -/
theorem prefix_head_splitAtNonMainAt {p : List Char} {s : String} (h : p <+: s.toList)
    (hat : '@' ∉ p) : p <+: ((splitAtNonMainAt s).headD "").toList := by
  unfold splitAtNonMainAt
  simp only
  split_ifs
  · exact prefix_head_split h hat
  · exact h
  · split
    · next noMain main hno _ =>
      split_ifs
      · exact prefix_head_split h hat
      · obtain ⟨a, b, hs, rfl, _⟩ := posFirstAtNoMain_eq_some hno
        rw [hs] at h ⊢
        rw [List.take_left, List.headD_cons, String.toList_ofList]
        exact prefix_of_prefix_append_cons h hat
    · exact prefix_head_split h hat

/-- The browser that is read is the host, up to the space before the dash. -/
theorem specBrowser_host (m : LowerCase) {host : String} (rest : String) (hhost : host ∈ hosts) :
    specBrowser (host ++ " - " ++ rest) = host ++ " " ∧ m.toLower (host ++ " ") = host ++ " " ∧
      host ++ " " ∉ defaultBrowsers ++ extraBrowsers := by
  have hfacts : '@' ∉ (host ++ " -").toList ∧ '[' ∉ (host ++ " -").toList ∧
      '-' ∉ (host ++ " ").toList ∧
      (host ++ " ").toList.all (fun c => c.val < 128 && c.toLower == c) = true ∧
      host ++ " " ∉ defaultBrowsers ++ extraBrowsers := by
    simp only [hosts, List.mem_cons, List.not_mem_nil, or_false] at hhost
    rcases hhost with rfl | rfl
    · exact ⟨by decide, by decide, by decide, by decide, by decide⟩
    · exact ⟨by decide, by decide, by decide, by decide, by decide⟩
  obtain ⟨hat, hopen, hdash, hascii, hknown⟩ := hfacts
  have hlower : m.toLower (host ++ " ") = host ++ " " := by
    refine m.toLower_of_ascii fun c hc => ?_
    simpa using List.all_eq_true.mp hascii c hc
  refine ⟨?_, hlower, hknown⟩
  have hprefix : (host ++ " -").toList <+: (host ++ " - " ++ rest).toList :=
    ⟨' ' :: rest.toList, by simp [String.toList_append]⟩
  obtain ⟨cs, hcs⟩ := prefix_head_split (prefix_head_splitAtNonMainAt hprefix hat) hopen
  have hproduct : specProduct (host ++ " - " ++ rest) =
      host ++ " " ++ String.singleton '-' ++ String.ofList cs := by
    rw [← String.toList_inj, specProduct, ← hcs]
    simp [String.toList_append]
  rw [specBrowser, hproduct, split_append_sep hdash, List.headD_cons]

/-- The browser read in a name is none, or the host. -/
theorem browserName_eq_host {state : CheckState} (hhost : state.hostName ∈ hosts) :
    (parseProductSpec m state.name).1.browserName ∉ defaultBrowsers ++ extraBrowsers := by
  have hne : state.hostName ≠ "" := by
    rintro hempty
    rw [hempty] at hhost
    exact absurd hhost (by decide)
  have hname : ∃ rest, state.name = state.hostName ++ " - " ++ rest := by
    unfold CheckState.name
    simp only
    rw [if_neg hne]
    exact ⟨_, rfl⟩
  obtain ⟨rest, hrest⟩ := hname
  obtain ⟨hbrowser, hlower, hknown⟩ := specBrowser_host m rest hhost
  rw [hrest]
  rcases browserName_parseProductSpec (m := m) (state.hostName ++ " - " ++ rest) with hnone | hsome
  · rw [hnone]
    decide
  · rw [hsome, hbrowser, hlower]
    exact hknown

end Host

/-! ## What is read without it

Without the host the name is the spec of the product with its channel, and the same spec is read
from it. -/

section Product

variable {m : LowerCase} {state : CheckState} {run : TestRun}

/-- The expression takes off a host that is known, if the rest is on one line. -/
theorem runNameMatch_append {host rest : String} (hhost : host ∈ hosts)
    (hline : '\n' ∉ rest.toList) : runNameMatch (host ++ " - " ++ rest) = some rest := by
  have hafter : hasPrefix (host ++ " - " ++ rest) (host ++ " - ") = true ∧
      String.ofList ((host ++ " - " ++ rest).toList.drop (host ++ " - ").toList.length) = rest := by
    refine ⟨hasPrefix_iff.mpr ?_, ?_⟩
    · rw [String.toList_append (s := host ++ " - ")]
      exact List.prefix_append _ _
    · rw [String.toList_append (s := host ++ " - "), List.drop_left, String.ofList_toList]
  have hfilter : (some rest).filter (fun rest => '\n' ∉ rest.toList) = some rest := by simp [hline]
  simp only [hosts, List.mem_cons, List.not_mem_nil, or_false] at hhost
  unfold runNameMatch
  simp only
  rcases hhost with rfl | rfl
  · have hstaging : hasPrefix ("wpt.fyi" ++ " - " ++ rest) "staging.wpt.fyi - " = false := by
      rw [← Bool.not_eq_true, hasPrefix_iff]
      intro hprefix
      simp [String.toList_append, List.cons_prefix_cons] at hprefix
    rw [hstaging, if_neg (by decide), Option.none_or]
    rw [show "wpt.fyi - " = "wpt.fyi" ++ " - " from rfl, if_pos hafter.1, hafter.2, hfilter]
  · rw [show "staging.wpt.fyi - " = "staging.wpt.fyi" ++ " - " from rfl, if_pos hafter.1, hafter.2,
      Option.some_or, hfilter]

/-- The parts of the spec in a name. -/
def nameParts (state : CheckState) : SpecParts where
  product := state.product.browserName
  labels := if state.product.isExperimental then some "experimental" else none
  sha := none

/-- The name of a check run, from its parts. -/
theorem name_eq_text (hhost : state.hostName ∈ hosts) :
    state.name = state.hostName ++ " - " ++ (nameParts state).text := by
  have hne : state.hostName ≠ "" := by
    rintro hempty
    rw [hempty] at hhost
    exact absurd hhost (by decide)
  have hlabel : labelText (({"experimental"} : Finset String).erase "") = "experimental" := by
    decide
  have hcard : 0 < (({"experimental"} : Finset String).erase "").card := by decide
  unfold CheckState.name nameParts SpecParts.text SpecParts.name
  simp only
  rw [if_neg hne]
  split_ifs
  · unfold ProductSpec.string
    simp only
    rw [hlabel, if_pos hcard]
    simp only [String.append_assoc]
    rfl
  · rfl

/-- The spec of a known browser. -/
theorem spec_nameParts (hknown : state.product.browserName ∈ defaultBrowsers ++ extraBrowsers) :
    (nameParts state).Valid ∧ (nameParts state).spec m =
      ({ browserName := state.product.browserName, revision := "latest",
         labels := (nameParts state).labels.map labelSet }, none) := by
  obtain ⟨hbrowser, hplain⟩ := plain_of_mem _ hknown
  -- a known browser has none of the characters that separate the parts
  have hat : '@' ∉ (nameParts state).name.toList := by
    rw [toList_name]
    unfold nameParts
    split_ifs <;> simp [notMem_of_plain hplain (c := '@') (by decide)]
  refine ⟨⟨notMem_of_plain hplain (by decide), ?_, atsAreMain_of_notMem hat, fun _ => ?_, ?_⟩, ?_⟩
  · intro labels hlabels
    unfold nameParts at hlabels
    simp only at hlabels
    split_ifs at hlabels
    rw [← Option.some_inj.mp hlabels]
    decide
  · rw [List.count_eq_zero.mpr hat]
    exact Nat.zero_le 1
  · rintro sha ⟨⟩
  · have hparse : parseProduct m state.product.browserName =
        ({ browserName := state.product.browserName }, none) := by
      have hjoin := parseProduct_join
        (.browser (toLower_of_plain m hplain) hbrowser : Parses m [state.product.browserName] _)
        fun piece hpiece => by
          rw [List.mem_singleton.mp hpiece]
          exact notMem_of_plain hplain (by decide)
      rwa [join_singleton] at hjoin
    show parseNamed m _ state.product.browserName = _
    rw [parseNamed, hparse]
    rfl

theorem channel_mem (h : run.channel ≠ "") : run.channel ∈ run.labels := by
  unfold TestRun.channel at h ⊢
  cases hfind : run.labels.find? _ with
  | none =>
    rw [hfind] at h
    exact absurd rfl h
  | some label => exact List.mem_of_find?_eq_some hfind

/-- A re-run request for a run of a known browser is for a spec of that run. -/
theorem rerequestedSpec_name (hhost : state.hostName ∈ hosts) (h : DerivedFrom state run)
    (hknown : run.browserName ∈ defaultBrowsers ++ extraBrowsers) :
    (rerequestedSpec m state.name).2 = none ∧
      (rerequestedSpec m state.name).1.matchesRun run = true := by
  have hbrowser : state.product.browserName = run.browserName := by rw [h.product]
  have hlabels : state.product.labels = some {run.channel} := by rw [h.product]
  rw [← hbrowser] at hknown
  obtain ⟨hvalid, hspec⟩ := spec_nameParts (m := m) hknown
  have hline : '\n' ∉ (nameParts state).text.toList := by
    show '\n' ∉ (nameParts state).name.toList
    rw [toList_name]
    unfold nameParts
    split_ifs <;> simp [notMem_of_plain (plain_of_mem _ hknown).2 (c := '\n') (by decide)]
  rw [rerequestedSpec, name_eq_text hhost, runNameMatch_append hhost hline, Option.getD_some,
    parseProductSpec_text m hvalid, hspec]
  refine ⟨rfl, ?_⟩
  -- neither a version nor a revision is named, so any run of the browser matches
  have hproduct : ∀ labels, ProductSpec.matchesProductAtRevision
      { browserName := state.product.browserName, revision := "latest", labels }
      run.toProductAtRevision = true := by
    intro labels
    simp [ProductSpec.matchesProductAtRevision, hbrowser, isLatest]
  rw [ProductSpec.matchesRun, hproduct, Bool.and_true]
  unfold nameParts
  -- the channel is named for experimental products only
  by_cases hexperimental : state.product.isExperimental = true
  · have hchannel : "experimental" = run.channel := by
      simpa [ProductSpec.isExperimental, hlabels] using hexperimental
    have hmem : "experimental" ∈ run.labels := hchannel ▸ channel_mem (hchannel ▸ by decide)
    have hset : labelSet "experimental" = {"experimental"} := by decide
    simp only [hexperimental, if_true, Option.map_some, hset, ProductSpec.matchesLabels,
      Finset.card_singleton, Nat.one_pos, Finset.singleton_subset_iff, TestRun.labelsSet,
      List.mem_toFinset, hmem, decide_true]
  · simp only [hexperimental, Bool.false_eq_true, if_false, Option.map_none,
      ProductSpec.matchesLabels]

end Product

/-! ## The two decoders

A re-run request has the host cut off and comes back to its product. The search for an existing
check run keeps the host and takes it for the browser. -/

theorem browserName_of_matchesRun {p : ProductSpec} {run : TestRun} (h : p.matchesRun run = true) :
    run.browserName = p.browserName := by
  simp only [ProductSpec.matchesRun, ProductSpec.matchesProductAtRevision, Bool.and_eq_true] at h
  by_contra hne
  rw [if_pos hne] at h
  exact absurd h.2 (by simp)

/-- **No name is decoded on both sides**: a spec that is accepted has a known browser,
and the search for an existing check run never reads one. -/
theorem not_nameDecodes (m : LowerCase) {state : CheckState} {run : TestRun}
    (hhost : state.hostName ∈ hosts) : ¬ NameDecodes m state run := by
  rintro ⟨hupdate, haccepted, hrerequest⟩
  rw [rerequestedSpec] at haccepted hrerequest
  refine browserName_eq_host (m := m) hhost ?_
  rw [← browserName_of_matchesRun hupdate, browserName_of_matchesRun hrerequest]
  exact browserName_mem_of_accepted haccepted

/-- Chrome's experimental run on the staging host. -/
theorem not_nameDecodes_staging :
    ¬ NameDecodes .ascii
      ⟨"staging.wpt.fyi", none, { browserName := "chrome", labels := some {"experimental"} }⟩
      { id := 1, browserName := "chrome", labels := ["experimental"] } :=
  not_nameDecodes .ascii (by decide)

/-- Chrome's experimental run on the production host is not found when its summary comes. -/
theorem not_nameDecodes_chrome :
    let run : TestRun := { id := 1, browserName := "chrome", revision := "1234567890",
                           labels := ["experimental"] }
    let state : CheckState := ⟨"wpt.fyi", some run,
      { browserName := "chrome", revision := "1234567890", labels := some {"experimental"} }⟩
    state.hostName ∈ hosts ∧ DerivedFrom state run ∧ ¬ NameDecodes .ascii state run := by
  refine ⟨by decide, ⟨rfl, by decide⟩, ?_⟩
  rintro ⟨hupdate, _⟩
  exact absurd hupdate (by decide)

/-- An existing check run is not found, whatever check runs the app has made. -/
theorem existingCheckRun_eq_none {m : LowerCase} {appID : Int} {testRun : Option TestRun}
    {checkRuns : List CheckRun}
    (hknown : ∀ run, testRun = some run → run.browserName ∈ defaultBrowsers ++ extraBrowsers)
    (hnames : ∀ run ∈ checkRuns, run.appID = appID →
      ∃ state : CheckState, state.hostName ∈ hosts ∧ run.name = state.name) :
    existingCheckRun m appID testRun checkRuns = none := by
  unfold existingCheckRun
  cases testRun with
  | none => rfl
  | some testRun =>
    refine List.find?_eq_none.mpr fun run hrun => ?_
    rw [Bool.and_eq_true, beq_iff_eq]
    rintro ⟨happ, hmatches⟩
    obtain ⟨state, hhost, hname⟩ := hnames run hrun happ
    refine browserName_eq_host (m := m) hhost ?_
    rw [← hname, ← browserName_of_matchesRun hmatches]
    exact hknown testRun rfl

/-- What GitHub has after the request. -/
def Request.apply (appID : Int) (checkRuns : List CheckRun) : Request → List CheckRun
  | .update id name => checkRuns.map fun run => if run.id = id then { run with name } else run
  | .create name => checkRuns ++ [⟨checkRuns.length, appID, name⟩]

/-- The check runs after a summary for each of the states. -/
def afterSummaries (m : LowerCase) (appID : Int) (checkRuns : List CheckRun)
    (states : List CheckState) : List CheckRun :=
  states.foldl (fun checkRuns state =>
    (updateCheckRunSummary m appID state checkRuns).apply appID checkRuns) checkRuns

/-- **Every summary creates a check run**, also one for a run that has one already. -/
theorem length_afterSummaries (m : LowerCase) {appID : Int} {states : List CheckState}
    {checkRuns : List CheckRun}
    (hstates : ∀ state ∈ states, state.hostName ∈ hosts ∧ ∀ run, state.testRun = some run →
      run.browserName ∈ defaultBrowsers ++ extraBrowsers)
    (hnames : ∀ run ∈ checkRuns, run.appID = appID →
      ∃ state : CheckState, state.hostName ∈ hosts ∧ run.name = state.name) :
    (afterSummaries m appID checkRuns states).length = checkRuns.length + states.length := by
  induction states generalizing checkRuns with
  | nil => rfl
  | cons state states ih =>
    obtain ⟨hstate, hstates⟩ := List.forall_mem_cons.mp hstates
    have hcreate : updateCheckRunSummary m appID state checkRuns = .create state.name := by
      rw [updateCheckRunSummary, existingCheckRun_eq_none hstate.2 hnames]
    have hafter : afterSummaries m appID checkRuns (state :: states) =
        afterSummaries m appID (checkRuns ++ [⟨checkRuns.length, appID, state.name⟩]) states := by
      rw [afterSummaries, List.foldl_cons, hcreate]
      rfl
    rw [hafter, ih hstates]
    · rw [List.length_append, List.length_singleton, List.length_cons]
      omega
    · intro run hrun happ
      rcases List.mem_append.mp hrun with hold | hnew
      · exact hnames run hold happ
      · rw [List.mem_singleton.mp hnew]
        exact ⟨state, hstate.1, rfl⟩

end WptFyi.Checks
