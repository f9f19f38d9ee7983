import WptFyi.History.Checkpoints
import WptFyi.Lib.Runs
import WptFyi.Lib.Timeline
import WptFyi.Webapp.SubtestTable

/-!
# The history chart (`api/test_history.go`, `test-results-history-timeline.js`)

The entries of the history job are changes of status. The handler groups those of a test by browser
and subtest, by date, and the page draws a bar from each change to the next one. The rows of the
chart are the subtests that the page shows, under the names that it makes of them.

What is drawn over the time of a run is what the run reported, since the entries up to a run
stand for the statuses after it (`Tells`). This is carried through the job by `Told`, which has a
part for every run so far: the entries are those up to the run, and later ones that a bar over the
run does not start with. A run more adds to the later entries of all runs before it
(`Told.append`); a commit or the end of an invocation writes no entry (`AllTold.commit`).

- `testHistoryHandler`, `updateChart`: the response, and the rows of the chart of a browser;
- `handleGetSubtestRows`: the names that the page makes of the rows of its table;
- `jobStep`: the job, as calls, commits and ends of invocations, in any order;
- `AllTold.run`: what the entries say of all runs so far;
- `at_chartOf_run`: over the time of each run the chart shows what the run reported.
-/

namespace WptFyi.History

open Lib Lib.DeltaLog

/-! ## The response -/

/-- `Subtest`: a change of status. -/
structure Subdata where
  date : String
  status : String
  runID : String
deriving DecidableEq

/-- `Browser`: the changes of each subtest. -/
abbrev BrowserData := GoMap String (List Subdata)

structure TestHistoryResponse where
  results : GoMap String BrowserData
  lastProcessed : String

/-- `sort.Slice` by date, which may list entries of one date in any order. -/
abbrev DateSort := (runs : List TestHistoryEntry) →
  {sorted : List TestHistoryEntry //
    sorted.Perm runs ∧ sorted.Pairwise fun run run' => ¬ run'.date < run.date}

def subdata (run : TestHistoryEntry) : Subdata := ⟨run.date, run.status, run.runID⟩

/-- A turn of the loop that groups the entries. -/
def addRun (testsByBrowser : GoMap String BrowserData) (run : TestHistoryEntry) :
    GoMap String BrowserData :=
  let browser := (testsByBrowser.lookup run.browserName).getD ∅
  testsByBrowser.insert run.browserName <|
    browser.insert run.subtestName ((browser.lookup run.subtestName).getD [] ++ [subdata run])

/-- `testHistoryHandler`, on what the job has stored. -/
def testHistoryHandler (sort : DateSort) (s : JobState) (testName : String) :
    TestHistoryResponse where
  results := (sort (s.entries.filter fun run => run.testName = testName)).1.foldl addRun ∅
  lastProcessed := s.date

/-- The changes that a response has for a subtest. -/
def TestHistoryResponse.changes (response : TestHistoryResponse)
    (browserName subtestName : String) : List Subdata :=
  ((response.results.lookup browserName).bind (·.lookup subtestName)).getD []

/-! ## The chart -/

/-- The colours of the style sheet of the page. -/
inductive StatusColor where
  | pass
  | fail
  | neutral
deriving DecidableEq

/-- `COLOR_MAPPING`. -/
def colorMapping (status : String) : StatusColor :=
  if status ∈ ["OK", "PASS"] then .pass
  else if status ∈ ["CRASHED", "ERROR", "FAIL", "NOTRUN", "PRECONDITION_FAILED", "TIMEOUT"] then
    .fail
  else .neutral

/-- A row of the data table; the time of an invalid date is none. -/
structure ChartRow where
  subtestDisplayName : String
  status : String
  statusColor : StatusColor
  tooltip : String
  startDate : Option Int
  endDate : Option Int
deriving DecidableEq

structure Chart where
  dataTableRows : List ChartRow := []
  chartRunIDs : List String := []
deriving DecidableEq

/-- What the page uses of dates: the milliseconds of a text, the time now, and the text of a date
in the language of the browser. -/
structure Clock where
  newDate : String → Option Int
  now : Int
  toLocaleDateString : Option Int → String

section Chart

variable (clock : Clock)

/-- The last processed date with an hour of padding, or the present. -/
def defaultEndDate (lastProcessed : String) : Int :=
  if lastProcessed = "" then clock.now
  else ((clock.newDate lastProcessed).map (· + 60 * 60 * 1000)).getD clock.now

/-- The members of every object that are functions with parameters: what is looked up under such
a name is a function, whose length is not zero. -/
def inheritedFunctions : List String :=
  ["constructor", "hasOwnProperty", "isPrototypeOf", "propertyIsEnumerable", "__defineGetter__",
    "__defineSetter__", "__lookupGetter__", "__lookupSetter__"]

def subtestDisplayName (subtestNames : List String) (subtestName : String) : String :=
  if subtestName = "" then if 1 < subtestNames.length then "Harness status" else "Test status"
  else subtestName

/-- The row of a change that lasted until `endDate`. -/
def chartRow (displayName : String) (dataPoint : Subdata) (endDate : Option Int) : ChartRow :=
  let startDate := clock.newDate dataPoint.date
  { subtestDisplayName := displayName, status := dataPoint.status
    statusColor := colorMapping dataPoint.status
    tooltip := dataPoint.status ++ " " ++ clock.toLocaleDateString startDate ++ "-" ++
      clock.toLocaleDateString endDate
    startDate, endDate }

/-- A turn of the loop of `updateChart`: the rows of a subtest, and the runs that they open. The
script fails at a name that finds a function. -/
def addSubtest (lastProcessed : String) (browserTestData : BrowserData) (subtestNames : List String)
    (chart : Chart) (subtestName : String) : Option Chart :=
  match browserTestData.lookup subtestName with
  | none => if subtestName ∈ inheritedFunctions then none else some chart
  | some data => some
    { dataTableRows := chart.dataTableRows ++ data.mapIdx fun i dataPoint =>
        chartRow clock (subtestDisplayName subtestNames subtestName) dataPoint <|
          (data[i + 1]?.map fun next => clock.newDate next.date).getD
            (some (defaultEndDate clock lastProcessed))
      chartRunIDs := chart.chartRunIDs ++ data.map Subdata.runID }

/-- `updateChart`. -/
def updateChart (lastProcessed : String) (browserTestData : Option BrowserData)
    (subtestNames : List String) : Option Chart :=
  match browserTestData with
  | none => some {}
  | some browserTestData =>
    subtestNames.foldlM (addSubtest clock lastProcessed browserTestData subtestNames) {}

/-- The chart of a browser on the page of a test. -/
def chartOf (response : TestHistoryResponse) (browserName : String) (subtestNames : List String) :
    Option Chart :=
  updateChart clock response.lastProcessed (response.results.lookup browserName) subtestNames

end Chart

/-- The rows of a label that are over a time, each with the run that a click on it opens. -/
def Chart.at (chart : Chart) (label : String) (t : Int) : List (ChartRow × String) :=
  (chart.dataTableRows.zip chart.chartRunIDs).filter fun row =>
    row.1.subtestDisplayName = label &&
      Bar.covers t ⟨row.1.status, row.1.startDate, row.1.endDate⟩

/-! ## The names on the page -/

/-- What `\s` matches in a JavaScript string. -/
def isJsWhitespace (c : Char) : Bool :=
  c.toNat ∈ [0x09, 0x0a, 0x0b, 0x0c, 0x0d, 0x20, 0xa0, 0x1680, 0x2000, 0x2001, 0x2002, 0x2003,
    0x2004, 0x2005, 0x2006, 0x2007, 0x2008, 0x2009, 0x200a, 0x2028, 0x2029, 0x202f, 0x205f,
    0x3000, 0xfeff]

/-- The name that the page makes of that of a row: none for the row of the test itself. -/
def pageName (name : String) : String :=
  if name = "Harness status" ∨ name = "Test status" then ""
  else String.ofList (name.toList.map fun c => if isJsWhitespace c then ' ' else c)

/-- `handleGetSubtestRows`. -/
def handleGetSubtestRows (rows : List Webapp.TestPage.ResultRow) : List String :=
  (rows.map fun subtestRow => pageName subtestRow.name).filter (· ≠ "Duration")

/-- Names that the chart keeps apart: none is that of two rows, looks like the row of the test
itself, or finds a function. -/
structure KeptApart (subtestNames : List String) : Prop where
  nodup : subtestNames.Nodup
  harness : "Harness status" ∉ subtestNames
  test : "Test status" ∉ subtestNames
  inherited : ∀ name ∈ subtestNames, name ∉ inheritedFunctions

/-- Rows that are kept apart are shown under different names. -/
theorem subtestDisplayName_inj {subtestNames : List String} (h : KeptApart subtestNames)
    {name name' : String} (hname : name ∈ subtestNames) (hname' : name' ∈ subtestNames)
    (heq : subtestDisplayName subtestNames name = subtestDisplayName subtestNames name') :
    name = name' := by
  have hlabel : ∀ name ∈ subtestNames,
      name ≠ if 1 < subtestNames.length then "Harness status" else "Test status" := by
    rintro name hmem rfl
    split_ifs at hmem
    · exact h.harness hmem
    · exact h.test hmem
  rw [subtestDisplayName, subtestDisplayName] at heq
  by_cases hempty : name = "" <;> by_cases hempty' : name' = ""
  · exact hempty.trans hempty'.symm
  · rw [if_pos hempty, if_neg hempty'] at heq
    exact absurd heq.symm (hlabel name' hname')
  · rw [if_neg hempty, if_pos hempty'] at heq
    exact absurd heq (hlabel name hname)
  · rwa [if_neg hempty, if_neg hempty'] at heq

/-- The job stores the name as the page writes it. -/
def WrittenAlike (name : String) : Prop := storedSubtestName name = pageName name

/-- A name that is not too long, that is no label, and whose white space is none of the few
characters on which the two languages differ. -/
theorem writtenAlike_of_plain {name : String} (hlength : name.length ≤ maxSubtestNameLength)
    (hlabel : name ≠ "Harness status" ∧ name ≠ "Test status")
    (hspace : ∀ c ∈ name.toList, isWhitespace c = isJsWhitespace c) : WrittenAlike name := by
  have hsame : subWhitespace name = pageName name := by
    rw [subWhitespace, pageName, if_neg (not_or.mpr hlabel)]
    exact congrArg String.ofList (List.map_congr_left fun c hc => by rw [hspace c hc])
  have hshort : ¬ (subWhitespace name).length > maxSubtestNameLength := by
    rw [subWhitespace, String.length_ofList, List.length_map, String.length_toList]
    omega
  show (if (subWhitespace name).length > maxSubtestNameLength then _ else subWhitespace name) = _
  rw [if_neg hshort, hsame]

/-! ## The job

The job as the list of its events, calls, commits and ends of invocations, and the calls of one
browser among them. -/

/-- What the job does between two of its states: a call of `process_single_run`, a checkpoint, or
the last commit of an invocation, whose cache is gone afterwards. -/
inductive JobEvent where
  | call (call : RunCall)
  | commit (newDate : String)
  | finish (newDate : String)

def jobStep (sha256 : String → String) (s : JobState) : JobEvent → Option JobState
  | .call call => processCall sha256 {} s call
  | .commit newDate => some (commitCheckpoint newDate s)
  | .finish newDate => some { commitCheckpoint newDate s with cache := ∅ }

/-- The calls among the events. -/
def callsOf (events : List JobEvent) : List RunCall :=
  events.filterMap fun
    | .call call => some call
    | _ => none

/-- The calls of a turn of `main`. -/
def Turn.calls (turn : Turn) : List RunCall :=
  match turn.info with
  | .runs runSet => runSet.calls
  | _ => []

/-- The calls for a browser. -/
def ofBrowser (browserName : String) (calls : List RunCall) : List RunCall :=
  calls.filter fun call => call.run.browserName = browserName

section Main

variable {sha256 : String → String}

theorem callsOf_append (events events' : List JobEvent) :
    callsOf (events ++ events') = callsOf events ++ callsOf events' := List.filterMap_append

theorem callsOf_map_call (calls : List RunCall) : callsOf (calls.map JobEvent.call) = calls := by
  rw [callsOf, List.filterMap_map]
  exact List.filterMap_some

theorem run_map_call (s : JobState) (calls : List RunCall) :
    run (jobStep sha256) s (calls.map .call) = processRuns sha256 {} s calls := by
  rw [run, List.foldlM_map]
  rfl

/-- **The states that `main` commits** are reached, by the calls of its first turns. -/
theorem run_of_mem_mainLoop {turns : List Turn} {s c : JobState} {loop : LoopState}
    {commits : List JobState} (hmain : mainLoop sha256 {} turns s loop = some commits)
    (hc : c ∈ commits) : ∃ events, run (jobStep sha256) s events = some c ∧
      ∃ n, callsOf events = (turns.take n).flatMap Turn.calls := by
  induction turns generalizing s loop commits with
  | nil =>
    cases hmain
    cases hc
  | cons turn turns ih =>
    cases hinfo : turn.info with
    | upToDate =>
      rw [mainLoop, if_pos (goesOn_normal loop), hinfo] at hmain
      cases hmain
      cases List.mem_singleton.mp hc
      exact ⟨[.commit turn.nextDate], rfl, 0, rfl⟩
    | noRuns =>
      rw [mainLoop, if_pos (goesOn_normal loop), hinfo] at hmain
      obtain ⟨events, hrun, n, hcalls⟩ := ih hmain hc
      exact ⟨events, hrun, n + 1, by rw [hcalls, List.take_succ_cons, List.flatMap_cons, Turn.calls,
        hinfo, List.nil_append]⟩
    | runs runSet =>
      obtain ⟨s', loop', hruns, -, hcommits⟩ := mainLoop_runs rfl hinfo hmain
      -- all of them begin with the calls of the run set
      have hfirst : ∀ events, run (jobStep sha256) s' events = some c →
          (∃ n, callsOf events = (turns.take n).flatMap Turn.calls) →
          ∃ events', run (jobStep sha256) s events' = some c ∧
            ∃ n, callsOf events' = ((turn :: turns).take n).flatMap Turn.calls := by
        rintro events hrun ⟨n, hcalls⟩
        refine ⟨runSet.calls.map .call ++ events, ?_, n + 1, ?_⟩
        · rw [run_append, run_map_call, hruns]
          exact hrun
        · rw [callsOf_append, callsOf_map_call, hcalls, List.take_succ_cons, List.flatMap_cons,
            Turn.calls, hinfo]
      rcases hcommits with ⟨later, rfl, rfl | hlater⟩ | rfl | hlater
      · rcases List.mem_cons.mp hc with rfl | hc
        · exact hfirst [.commit turn.nextDate] rfl ⟨0, rfl⟩
        · cases List.mem_singleton.mp hc
          exact hfirst [.commit turn.nextDate, .commit turn.nextDate] rfl ⟨0, rfl⟩
      · rcases List.mem_cons.mp hc with rfl | hc
        · exact hfirst [.commit turn.nextDate] rfl ⟨0, rfl⟩
        · obtain ⟨events, hrun, hcalls⟩ := ih hlater hc
          exact hfirst (.commit turn.nextDate :: events) hrun hcalls
      · cases List.mem_singleton.mp hc
        exact hfirst [.commit turn.nextDate] rfl ⟨0, rfl⟩
      · obtain ⟨events, hrun, hcalls⟩ := ih hlater hc
        exact hfirst events hrun hcalls

end Main

/-! ## Reading the response -/

section Response

variable {browserName subtestName : String}

/-- The entries of a browser and subtest are listed as they come. -/
theorem changes_foldl_addRun (runs : List TestHistoryEntry)
    (testsByBrowser : GoMap String BrowserData) :
    (((runs.foldl addRun testsByBrowser).lookup browserName).bind (·.lookup subtestName)).getD [] =
      ((testsByBrowser.lookup browserName).bind (·.lookup subtestName)).getD [] ++
        (runs.filter fun run => run.browserName = browserName ∧ run.subtestName = subtestName).map
          subdata := by
  induction runs generalizing testsByBrowser with
  | nil => simp
  | cons run runs ih =>
    rw [List.foldl_cons, ih, List.filter_cons, addRun, GoMap.lookup_insert_eq_ite]
    by_cases hbrowser : run.browserName = browserName
    · subst hbrowser
      rw [if_pos rfl, Option.bind_some, GoMap.lookup_insert_eq_ite]
      by_cases hsubtest : run.subtestName = subtestName
      · subst hsubtest
        cases hlookup : testsByBrowser.lookup run.browserName <;> simp
      · rw [if_neg (Ne.symm hsubtest), if_neg (by simp [hsubtest])]
        cases testsByBrowser.lookup run.browserName <;> rfl
    · rw [if_neg (Ne.symm hbrowser), if_neg (by simp [hbrowser])]

theorem changes_testHistoryHandler (sort : DateSort) (s : JobState) (testName : String) :
    (testHistoryHandler sort s testName).changes browserName subtestName =
      ((sort (s.entries.filter fun run => run.testName = testName)).1.filter fun run =>
        run.browserName = browserName ∧ run.subtestName = subtestName).map subdata :=
  changes_foldl_addRun _ ∅

/-- **The order of the changes** is the one in which they were put, when their dates grow. -/
theorem changes_eq_of_pairwise (sort : DateSort) (s : JobState) (testName : String)
    (hdates : ((entriesOf browserName s.entries).filter fun run =>
      run.key = (testName, subtestName)).Pairwise fun run run' => run.date < run'.date) :
    (testHistoryHandler sort s testName).changes browserName subtestName =
      ((entriesOf browserName s.entries).filter fun run =>
        run.key = (testName, subtestName)).map subdata := by
  rw [changes_testHistoryHandler]
  obtain ⟨sorted, hperm, hsorted⟩ := sort (s.entries.filter fun run => run.testName = testName)
  refine congrArg _ ?_
  have hmatch : (entriesOf browserName s.entries).filter (fun run =>
      run.key = (testName, subtestName)) = (s.entries.filter fun run =>
        run.testName = testName).filter fun run =>
          run.browserName = browserName ∧ run.subtestName = subtestName := by
    rw [entriesOf, List.filter_filter, List.filter_filter]
    refine List.filter_congr fun run _ => ?_
    rw [Bool.eq_iff_iff]
    simp only [TestHistoryEntry.key, Prod.mk.injEq, Bool.and_eq_true, decide_eq_true_iff]
    tauto
  rw [hmatch] at hdates ⊢
  exact Timeline.eq_of_perm_of_lt (hperm.filter _) (hsorted.filter _) hdates

end Response

/-! ## Reading the chart

A chart is one row of bars for each name. The bar that covers a time is found in the row, and a
time that no bar covers is shown as nothing. -/

section Rows

variable (clock : Clock)

/-- The bars of a subtest. -/
def barsOf (lastProcessed : String) (data : List Subdata) : List (Bar Int Subdata) :=
  Timeline.bars (fun dataPoint => clock.newDate dataPoint.date)
    (some (defaultEndDate clock lastProcessed)) data

/-- A bar as it is in the chart. -/
def mark (displayName : String) (bar : Bar Int Subdata) : ChartRow × String :=
  (chartRow clock displayName bar.value bar.stop, bar.value.runID)

variable {clock}

/-- A turn of the loop over the subtests draws the bars of one of them and remembers the run of
each bar. -/
theorem zip_addSubtest (lastProcessed : String) (browserTestData : BrowserData)
    (subtestNames : List String) {chart : Chart}
    (hlength : chart.dataTableRows.length = chart.chartRunIDs.length) {subtestName : String}
    (hname : subtestName ∉ inheritedFunctions) :
    ∃ chart', addSubtest clock lastProcessed browserTestData subtestNames chart subtestName =
        some chart' ∧
      chart'.dataTableRows.length = chart'.chartRunIDs.length ∧
      chart'.dataTableRows.zip chart'.chartRunIDs = chart.dataTableRows.zip chart.chartRunIDs ++
        (barsOf clock lastProcessed ((browserTestData.lookup subtestName).getD [])).map
          (mark clock (subtestDisplayName subtestNames subtestName)) := by
  rw [addSubtest]
  cases browserTestData.lookup subtestName with
  | none => exact ⟨chart, if_neg hname, hlength, (List.append_nil _).symm⟩
  | some data =>
    refine ⟨_, rfl, by simp [hlength], ?_⟩
    -- the loop that looks at the next change draws the bars of the timeline
    have hrows := Timeline.mapIdx_bars (fun dataPoint : Subdata => clock.newDate dataPoint.date)
      (some (defaultEndDate clock lastProcessed))
      (chartRow clock (subtestDisplayName subtestNames subtestName)) data
    have hruns : data.map Subdata.runID =
        (barsOf clock lastProcessed data).map fun bar => bar.value.runID := by
      conv_lhs => rw [← Timeline.map_value_bars (fun dataPoint : Subdata =>
        clock.newDate dataPoint.date) (some (defaultEndDate clock lastProcessed)) data]
      rw [List.map_map]
      rfl
    simp only [Option.getD_some]
    rw [List.zip_append hlength, hrows, hruns]
    exact congrArg _ List.zip_map'

/-- The rows are those of the subtests one after the other, and their runs stand at their places. -/
theorem zip_updateChart (lastProcessed : String) (browserTestData : BrowserData)
    {subtestNames : List String} (hnames : ∀ name ∈ subtestNames, name ∉ inheritedFunctions) :
    ∃ chart, updateChart clock lastProcessed (some browserTestData) subtestNames = some chart ∧
      chart.dataTableRows.zip chart.chartRunIDs = subtestNames.flatMap fun subtestName =>
        (barsOf clock lastProcessed ((browserTestData.lookup subtestName).getD [])).map
          (mark clock (subtestDisplayName subtestNames subtestName)) := by
  -- the two lists of the chart grow together
  have hloop : ∀ names : List String, (∀ name ∈ names, name ∉ inheritedFunctions) →
      ∀ chart : Chart, chart.dataTableRows.length = chart.chartRunIDs.length →
      ∃ chart', names.foldlM (addSubtest clock lastProcessed browserTestData subtestNames) chart =
          some chart' ∧
        chart'.dataTableRows.zip chart'.chartRunIDs =
          chart.dataTableRows.zip chart.chartRunIDs ++ names.flatMap fun subtestName =>
            (barsOf clock lastProcessed ((browserTestData.lookup subtestName).getD [])).map
              (mark clock (subtestDisplayName subtestNames subtestName)) := by
    intro names hnames
    induction names with
    | nil => exact fun chart _ => ⟨chart, rfl, (List.append_nil _).symm⟩
    | cons subtestName names ih =>
      intro chart hlength
      obtain ⟨hname, hnames⟩ := List.forall_mem_cons.mp hnames
      obtain ⟨chart', hadd, hlength', hzip⟩ :=
        @zip_addSubtest clock lastProcessed browserTestData subtestNames chart hlength _ hname
      obtain ⟨chart'', hrest, hzip'⟩ := ih hnames chart' hlength'
      refine ⟨chart'', ?_, ?_⟩
      · rw [List.foldlM_cons, hadd]
        exact hrest
      · rw [hzip', hzip, List.flatMap_cons, List.append_assoc]
  exact hloop subtestNames hnames {} rfl

theorem covers_mark (displayName : String) {lastProcessed : String} {data : List Subdata} (t : Int)
    {bar : Bar Int Subdata} (h : bar ∈ barsOf clock lastProcessed data) :
    Bar.covers t ⟨(mark clock displayName bar).1.status, (mark clock displayName bar).1.startDate,
      (mark clock displayName bar).1.endDate⟩ = bar.covers t := by
  have hstart := Timeline.start_of_mem_bars _ _ h
  rw [Bar.covers, Bar.covers, hstart]
  rfl

/-- A list of all that one member of a list brings. -/
theorem flatMap_eq_of_mem {α β : Type} {l : List α} {f : α → List β} {a : α} (hnodup : l.Nodup)
    (ha : a ∈ l) (hother : ∀ b ∈ l, b ≠ a → f b = []) : l.flatMap f = f a := by
  obtain ⟨before, after, rfl⟩ := List.append_of_mem ha
  obtain ⟨hbefore, hafter⟩ : a ∉ before ∧ a ∉ after := by
    have hmiddle := List.nodup_middle.mp hnodup
    rw [List.nodup_cons, List.mem_append, not_or] at hmiddle
    exact hmiddle.1
  have hnil : ∀ l' : List α, a ∉ l' → (∀ b ∈ l', b ∈ before ++ a :: after) → l'.flatMap f = [] :=
    fun l' hnot hsub => List.flatMap_eq_nil_iff.mpr fun b hb =>
      hother b (hsub b hb) fun heq => hnot (heq ▸ hb)
  rw [List.flatMap_append, List.flatMap_cons,
    hnil before hbefore fun b hb => List.mem_append_left _ hb,
    hnil after hafter fun b hb => List.mem_append_right _ (List.mem_cons_of_mem _ hb),
    List.nil_append, List.append_nil]

/-- **The bars over a time** with the label of a subtest are those of its changes. -/
theorem at_chartOf {response : TestHistoryResponse} {browserName subtestName : String}
    {subtestNames : List String} (hnames : KeptApart subtestNames)
    (hmem : subtestName ∈ subtestNames) (t : Int) :
    ∃ chart, chartOf clock response browserName subtestNames = some chart ∧
      chart.at (subtestDisplayName subtestNames subtestName) t =
        ((barsOf clock response.lastProcessed (response.changes browserName subtestName)).filter
          (Bar.covers t)).map (mark clock (subtestDisplayName subtestNames subtestName)) := by
  rw [chartOf, TestHistoryResponse.changes]
  cases response.results.lookup browserName with
  | none => exact ⟨{}, rfl, rfl⟩
  | some browserTestData =>
    obtain ⟨chart, hchart, hzip⟩ :=
      @zip_updateChart clock response.lastProcessed browserTestData _ hnames.inherited
    refine ⟨chart, hchart, ?_⟩
    rw [Chart.at, hzip, List.filter_flatMap, flatMap_eq_of_mem hnames.nodup hmem]
    · rw [List.filter_map, Option.bind_some]
      refine congrArg _ (List.filter_congr fun bar hbar => ?_)
      rw [Function.comp_apply, covers_mark _ t hbar]
      simp [mark, chartRow]
    · intro name hname hne
      refine List.filter_eq_nil_iff.mpr fun row hrow => ?_
      obtain ⟨bar, -, rfl⟩ := List.mem_map.mp hrow
      simp [mark, chartRow, mt (subtestDisplayName_inj hnames hname hmem) hne]

end Rows

/-! ## What the entries tell

The entries up to a run stand for the statuses after it, and the entries of later runs are later.
So of the entries of a key the last one that is not later than a run has the status in it. -/

section Told

/-- The first date is before the second one, as a text and as a time. -/
def Earlier (clock : Clock) (date date' : String) : Prop :=
  date < date' ∧ ∃ t t', clock.newDate date = some t ∧ clock.newDate date' = some t' ∧ t < t'

/-- The statuses are those of the report of a run, which misses what was seen before. -/
structure Tells (seen : TestKey → Prop) (report : Report) (statuses : Statuses) : Prop where
  reported : ∀ key status, (key, status) ∈ observations report → statuses.lookup key = some status
  missing : ∀ key, key ∉ reportKeys report → seen key → statuses.lookup key = some "MISSING"
  unseen : ∀ key, key ∉ reportKeys report → ¬ seen key → statuses.lookup key = none

variable (clock : Clock)

/-- Some first entries tell of a run, and all others are later. -/
structure ToldRun (entries : List TestHistoryEntry) (seen : TestKey → Prop) (run : RunMetadata)
    (report : Report) (upTo later : List TestHistoryEntry) : Prop where
  entries_eq : entries = upTo ++ later
  before : ∀ entry ∈ upTo, entry.date = run.timeStart ∨ Earlier clock entry.date run.timeStart
  after : ∀ entry ∈ later, Earlier clock run.timeStart entry.date
  tells : Tells seen report (replayEntries upTo)

/-- **The history** of a browser, whose entries were `old` before these calls. -/
structure Told (old entries : List TestHistoryEntry) (calls : List RunCall) : Prop where
  /-- a key changes with the time -/
  dated : ∀ key, (entries.filter fun entry => entry.key = key).Pairwise fun entry entry' =>
    Earlier clock entry.date entry'.date
  /-- an entry is an old one or of a run -/
  origin : ∀ entry ∈ entries, entry ∈ old ∨
    ∃ call ∈ calls, entry.runID = call.run.id ∧ entry.date = call.run.timeStart
  seen : ∀ key, key ∈ replayEntries entries ↔
    SeenBefore (replayEntries old) calls calls.length key
  runs : ∀ k call, calls[k]? = some call → ∃ report, call.fetched = some report ∧
    ∃ upTo later, ToldRun clock entries (SeenBefore (replayEntries old) calls k) call.run report
      upTo later

/-- The histories of all browsers since the state `s₀`. -/
structure AllTold (s₀ : JobState) (past : List RunCall) (s : JobState) : Prop where
  tracked : AllTracked s
  told : ∀ browserName, Told clock (entriesOf browserName s₀.entries)
    (entriesOf browserName s.entries) (ofBrowser browserName past)

end Told

section Steps

variable {clock : Clock} {sha256 : String → String}

theorem seenBefore_append {statuses : Statuses} {calls calls' : List RunCall} {k : Nat}
    (hk : k ≤ calls.length) :
    SeenBefore statuses (calls ++ calls') k = SeenBefore statuses calls k := by
  funext key
  rw [SeenBefore, SeenBefore, List.take_append_of_le_length hk]

theorem seenBefore_concat {statuses : Statuses} {calls : List RunCall} {call : RunCall}
    {report : Report} (hreport : call.fetched = some report) (key : TestKey) :
    SeenBefore statuses (calls ++ [call]) (calls ++ [call]).length key ↔
      SeenBefore statuses calls calls.length key ∨ key ∈ reportKeys report := by
  rw [SeenBefore, SeenBefore, List.take_length, List.take_length, or_assoc]
  simp only [List.mem_append, List.mem_singleton, or_and_right, exists_or, exists_eq_left, hreport,
    Option.mem_some_iff, exists_eq_left']

theorem AgreesWithRun.tells {seen : TestKey → Prop} {report : Report} {run : RunMetadata}
    {before : List TestHistoryEntry} {batches : List (List TestHistoryEntry)}
    (h : AgreesWithRun seen report run before batches) :
    Tells seen report (replayEntries (before ++ batches.flatten)) where
  reported := h.reported
  missing := h.missing
  unseen key hkey hseen := Finmap.lookup_eq_none.mpr fun hmem => by
    obtain ⟨entry, hentry, heq⟩ := mem_replayEntries.mp hmem
    exact h.unseen key hkey hseen entry hentry heq

theorem ToldRun.append {entries upTo later : List TestHistoryEntry} {seen : TestKey → Prop}
    {run : RunMetadata} {report : Report}
    (h : ToldRun clock entries seen run report upTo later) {written : List TestHistoryEntry}
    (hwritten : ∀ entry ∈ written, Earlier clock run.timeStart entry.date) :
    ToldRun clock (entries ++ written) seen run report upTo (later ++ written) where
  entries_eq := by rw [h.entries_eq, List.append_assoc]
  before := h.before
  after entry hentry := (List.mem_append.mp hentry).elim (h.after entry) (hwritten entry)
  tells := h.tells

/-- Entries with keys of their own are in any order, key by key. -/
theorem pairwise_filter_key {R : TestHistoryEntry → TestHistoryEntry → Prop}
    {written : List TestHistoryEntry} (honce : (written.map TestHistoryEntry.key).Nodup)
    (key : TestKey) : (written.filter fun entry => entry.key = key).Pairwise R := by
  refine ((List.pairwise_map.mp honce).filter _).imp_of_mem fun {entry entry'} h h' hne => ?_
  have hkey := decide_eq_true_iff.mp (List.mem_filter.mp h).2
  have hkey' := decide_eq_true_iff.mp (List.mem_filter.mp h').2
  exact absurd (hkey.trans hkey'.symm) hne

/-- **A run** more: what was told before stays, and its entries tell of it. -/
theorem Told.append {old entries : List TestHistoryEntry} {calls : List RunCall}
    (h : Told clock old entries calls) {call : RunCall} {report : Report}
    (hfetched : call.fetched = some report) {batches : List (List TestHistoryEntry)}
    (hagrees : AgreesWithRun (SeenBefore (replayEntries old) calls calls.length) report call.run
      entries batches)
    (hpast : ∀ call' ∈ calls, Earlier clock call'.run.timeStart call.run.timeStart)
    (hold : ∀ entry ∈ old, Earlier clock entry.date call.run.timeStart) :
    Told clock old (entries ++ batches.flatten) (calls ++ [call]) := by
  have hdates : ∀ entry ∈ batches.flatten, entry.date = call.run.timeStart :=
    fun entry hentry => (hagrees.ofRun entry hentry).2.2
  have hearlier : ∀ entry ∈ entries, Earlier clock entry.date call.run.timeStart := by
    intro entry hentry
    rcases h.origin entry hentry with hstored | ⟨call', hcall', -, hdate⟩
    · exact hold entry hstored
    · exact hdate ▸ hpast call' hcall'
  constructor
  case dated =>
    intro key
    rw [List.filter_append, List.pairwise_append]
    refine ⟨h.dated key, pairwise_filter_key hagrees.once key, fun entry he entry' he' => ?_⟩
    rw [hdates entry' (List.mem_filter.mp he').1]
    exact hearlier entry (List.mem_filter.mp he).1
  case origin =>
    intro entry hentry
    rcases List.mem_append.mp hentry with hentry | hentry
    · refine (h.origin entry hentry).imp_right ?_
      rintro ⟨call', hcall', horigin⟩
      exact ⟨call', List.mem_append_left _ hcall', horigin⟩
    · exact .inr ⟨call, List.mem_append_right _ List.mem_cons_self,
        (hagrees.ofRun entry hentry).1, hdates entry hentry⟩
  case seen =>
    intro key
    rw [seenBefore_concat hfetched]
    exact hagrees.mem_after_iff key
  case runs =>
    intro k call' hk
    rcases lt_trichotomy k calls.length with hlt | rfl | hgt
    · -- an earlier run
      rw [List.getElem?_append_left hlt] at hk
      obtain ⟨report', hfetched', upTo, later, htold⟩ := h.runs k call' hk
      refine ⟨report', hfetched', upTo, later ++ batches.flatten, ?_⟩
      rw [seenBefore_append hlt.le]
      refine htold.append fun entry hentry => ?_
      rw [hdates entry hentry]
      exact hpast call' (List.mem_of_getElem? hk)
    · -- this run
      rw [List.getElem?_concat_length] at hk
      cases hk
      refine ⟨report, hfetched, _, [], (List.append_nil _).symm, ?_, ?_, ?_⟩
      · intro entry hentry
        exact (List.mem_append.mp hentry).elim (fun he => .inr (hearlier entry he))
          fun he => .inl (hdates entry he)
      · exact fun entry hentry => absurd hentry List.not_mem_nil
      · rw [seenBefore_append le_rfl]
        exact hagrees.tells
    · rw [List.getElem?_eq_none (by rw [List.length_append, List.length_singleton]; omega)] at hk
      cases hk

variable {s₀ s s' : JobState} {past : List RunCall}

theorem ofBrowser_concat (browserName : String) (past : List RunCall) (call : RunCall) :
    ofBrowser browserName (past ++ [call]) = if call.run.browserName = browserName then
      ofBrowser browserName past ++ [call] else ofBrowser browserName past := by
  rw [ofBrowser, List.filter_append, List.filter_singleton]
  split_ifs with h
  · rw [decide_eq_true h]
    rfl
  · rw [decide_eq_false h]
    exact List.append_nil _

/-- **A call** tells of its run, and leaves the other browsers alone. -/
theorem AllTold.call (h : AllTold clock s₀ past s) {call : RunCall}
    (hbrowser : call.run.browserName ∈ processedBrowsers)
    (hreport : ∀ report ∈ call.fetched, (reportKeys report).Nodup)
    (hpast : ∀ call' ∈ ofBrowser call.run.browserName past,
      Earlier clock call'.run.timeStart call.run.timeStart)
    (hold : ∀ entry ∈ entriesOf call.run.browserName s₀.entries,
      Earlier clock entry.date call.run.timeStart)
    (hstep : processCall sha256 {} s call = some s') : AllTold clock s₀ (past ++ [call]) s' := by
  refine ⟨fun b hb => (h.tracked b hb).processCall (h.tracked _ hbrowser) hstep, ?_⟩
  unfold processCall at hstep
  cases hexception : (processSingleRun sha256 {} s.bucket s.cache call).exception with
  | some msg => simp [hexception] at hstep
  | none =>
    simp only [hexception, Option.some.injEq] at hstep
    obtain ⟨report, -, -, hfetched, -⟩ := exists_of_exception_none hexception
    obtain ⟨_, hstatuses⟩ := h.tracked _ hbrowser
    obtain ⟨hagrees, -⟩ := processSingleRun_agrees (hreport report hfetched) hfetched hstatuses rfl
      (fun key => ((h.told _).seen key).symm) hexception
    have hbrowsers := fun entry hentry => (hagrees.ofRun entry hentry).2.1
    intro browserName
    rw [← hstep, ofBrowser_concat]
    -- only the entries of the browser of the run become more
    split_ifs with hown
    · subst hown
      rw [entriesOf_append_own hbrowsers]
      exact (h.told _).append hfetched hagrees hpast hold
    · rw [entriesOf_append_other hbrowsers (Ne.symm hown)]
      exact h.told browserName

theorem commitCheckpoint_entries (newDate : String) (s : JobState) :
    (commitCheckpoint newDate s).entries = s.entries := by
  simp [commitCheckpoint, processedBrowsers, flushPreviousStatuses_entries]

/-- A new process loads what was committed. -/
theorem allTracked_of_agrees (h : ∀ browserName ∈ processedBrowsers, Agrees s browserName) :
    AllTracked { s with cache := ∅ } := fun browserName hmem =>
  tracked_iff.mpr (.inr ⟨Finmap.lookup_empty _, h browserName hmem⟩)

/-- A commit leaves the entries alone. -/
theorem AllTold.commit (h : AllTold clock s₀ past s) (newDate : String) :
    AllTold clock s₀ past (commitCheckpoint newDate s) ∧
      AllTold clock s₀ past { commitCheckpoint newDate s with cache := ∅ } := by
  obtain ⟨htracked, hagrees⟩ := h.tracked.commit newDate
  have htold : ∀ browserName, Told clock (entriesOf browserName s₀.entries)
      (entriesOf browserName (commitCheckpoint newDate s).entries)
      (ofBrowser browserName past) := by
    intro browserName
    rw [commitCheckpoint_entries]
    exact h.told browserName
  exact ⟨⟨htracked, htold⟩, allTracked_of_agrees hagrees, htold⟩

/-- The reports and dates that a history can be made from. -/
structure Processable (clock : Clock) (s₀ : JobState) (calls : List RunCall) : Prop where
  processed : ∀ call ∈ calls, call.run.browserName ∈ processedBrowsers
  /-- no report has two rows of one key -/
  nodup : ∀ call ∈ calls, ∀ report ∈ call.fetched, (reportKeys report).Nodup
  /-- the old entries of a key were put in the order of their dates -/
  dated : ∀ browserName key, ((entriesOf browserName s₀.entries).filter fun entry =>
    entry.key = key).Pairwise fun entry entry' => Earlier clock entry.date entry'.date
  /-- the runs of a browser are processed in the order of their times -/
  ordered : calls.Pairwise fun call call' => call.run.browserName = call'.run.browserName →
    Earlier clock call.run.timeStart call'.run.timeStart
  /-- which come after those of the old entries -/
  later : ∀ call ∈ calls, ∀ entry ∈ entriesOf call.run.browserName s₀.entries,
    Earlier clock entry.date call.run.timeStart

/-- **Every run of the job** is told of. -/
theorem AllTold.run {events : List JobEvent} (h : AllTold clock s₀ past s)
    (hcalls : Processable clock s₀ (past ++ callsOf events))
    (hrun : Lib.run (jobStep sha256) s events = some s') :
    AllTold clock s₀ (past ++ callsOf events) s' := by
  induction events generalizing past s with
  | nil =>
    cases hrun
    rwa [callsOf, List.filterMap_nil, List.append_nil]
  | cons event events ih =>
    rw [run_cons] at hrun
    obtain ⟨s₁, hstep, hrest⟩ := Option.bind_eq_some_iff.mp hrun
    cases event with
    | commit newDate =>
      cases hstep
      exact ih (h.commit newDate).1 hcalls hrest
    | finish newDate =>
      cases hstep
      exact ih (h.commit newDate).2 hcalls hrest
    | call call =>
      -- the run is the last of those so far, and all before it began earlier
      have hcons : past ++ callsOf (.call call :: events) =
          past ++ [call] ++ callsOf events := by
        rw [List.append_assoc]
        rfl
      rw [hcons] at hcalls ⊢
      have hmem : call ∈ past ++ [call] ++ callsOf events :=
        List.mem_append_left _ (List.mem_append_right _ List.mem_cons_self)
      refine ih (h.call (hcalls.processed call hmem) (hcalls.nodup call hmem) ?_
        (hcalls.later call hmem) hstep) hcalls hrest
      intro call' hcall'
      obtain ⟨hin, hsame⟩ := List.mem_filter.mp hcall'
      exact (List.pairwise_append.mp (List.pairwise_append.mp hcalls.ordered).1).2.2 call' hin call
        List.mem_cons_self (decide_eq_true_iff.mp hsame)

theorem AllTold.init (htracked : AllTracked s₀) (hcalls : Processable clock s₀ past) :
    AllTold clock s₀ [] s₀ := by
  refine ⟨htracked, fun browserName => ⟨hcalls.dated browserName, fun entry hentry => .inl hentry,
    fun key => ?_, fun k call hk => ?_⟩⟩
  · show key ∈ _ ↔ SeenBefore _ [] 0 key
    simp [SeenBefore]
  · cases hk

end Steps

/-! ## What the chart shows -/

/-- The last entry of a key says what the entries stand for. -/
theorem lookup_replayEntries (entries : List TestHistoryEntry) (key : TestKey) :
    (replayEntries entries).lookup key =
      (entries.filter fun entry => entry.key = key).getLast?.map TestHistoryEntry.status := by
  induction entries using List.reverseRecOn with
  | nil => rfl
  | append_singleton entries entry ih =>
    rw [replayEntries_append, List.filter_append, List.filter_singleton]
    show ((replayEntries entries).insert entry.key entry.status).lookup key = _
    rw [GoMap.lookup_insert_eq_ite]
    by_cases heq : key = entry.key
    · rw [if_pos heq, decide_eq_true heq.symm, cond_true, List.getLast?_concat]
      rfl
    · rw [if_neg heq, decide_eq_false (Ne.symm heq), cond_false, List.append_nil, ih]

section Shown

variable {clock : Clock} {sha256 : String → String} {s₀ s : JobState} {events : List JobEvent}

/-- **The bar over a run** has the status that the entries up to the run stand for. -/
theorem ToldRun.map_status_at {old : List TestHistoryEntry} {calls : List RunCall}
    {browserName testName subtestName : String} {seen : TestKey → Prop} {run : RunMetadata}
    {report : Report} {upTo later : List TestHistoryEntry}
    (h : ToldRun clock (entriesOf browserName s.entries) seen run report upTo later)
    (htold : Told clock old (entriesOf browserName s.entries) calls) (sort : DateSort)
    {t : Int} (ht : clock.newDate run.timeStart = some t) (hend : t < defaultEndDate clock s.date) :
    ((barsOf clock s.date ((testHistoryHandler sort s testName).changes browserName
        subtestName)).filter (Bar.covers t)).map (fun bar => bar.value.status) =
      ((replayEntries upTo).lookup (testName, subtestName)).toList := by
  rw [changes_eq_of_pairwise sort s testName ((htold.dated _).imp And.left), h.entries_eq,
    List.filter_append, List.map_append]
  -- the entries up to the run have begun by then, all others begin later
  have hpast : ∀ note ∈ (upTo.filter fun entry => entry.key = (testName, subtestName)).map subdata,
      ∃ t', clock.newDate note.date = some t' ∧ t' ≤ t := by
    intro note hnote
    obtain ⟨entry, hentry, rfl⟩ := List.mem_map.mp hnote
    rcases h.before entry (List.mem_filter.mp hentry).1 with hdate | ⟨-, t₁, t₂, ht₁, ht₂, hlt⟩
    · exact ⟨t, by rw [subdata, hdate, ht], le_rfl⟩
    · cases ht.symm.trans ht₂
      exact ⟨t₁, ht₁, hlt.le⟩
  have hlater : ∀ note ∈
      (later.filter fun entry => entry.key = (testName, subtestName)).map subdata,
      ∃ t', clock.newDate note.date = some t' ∧ t < t' := by
    intro note hnote
    obtain ⟨entry, hentry, rfl⟩ := List.mem_map.mp hnote
    obtain ⟨-, t₁, t₂, ht₁, ht₂, hlt⟩ := h.after entry (List.mem_filter.mp hentry).1
    cases ht.symm.trans ht₁
    exact ⟨t₂, ht₂, hlt⟩
  have hbars := congrArg (List.map Subdata.status)
    (Timeline.covering_bars_append hpast hlater ⟨_, rfl, hend⟩)
  rw [List.map_map] at hbars
  rw [lookup_replayEntries, barsOf]
  refine hbars.trans ?_
  rw [List.getLast?_map]
  cases (upTo.filter fun entry => entry.key = (testName, subtestName)).getLast? <;> rfl

/-- The bar of a key over the time of a run, and where a click on it leads. -/
theorem at_chartOf_key (htracked : AllTracked s₀) (hcalls : Processable clock s₀ (callsOf events))
    (hrun : Lib.run (jobStep sha256) s₀ events = some s) (sort : DateSort)
    {browserName : String} {k : Nat} {call : RunCall}
    (hk : (ofBrowser browserName (callsOf events))[k]? = some call) {t : Int}
    (ht : clock.newDate call.run.timeStart = some t) (hend : t < defaultEndDate clock s.date)
    (testName : String) {subtestNames : List String} (hnames : KeptApart subtestNames)
    {subtestName : String} (hmem : subtestName ∈ subtestNames) :
    ∃ report chart, call.fetched = some report ∧
      chartOf clock (testHistoryHandler sort s testName) browserName subtestNames = some chart ∧
      ∃ statuses, Tells (SeenBefore (replayEntries (entriesOf browserName s₀.entries))
          (ofBrowser browserName (callsOf events)) k) report statuses ∧
        (chart.at (subtestDisplayName subtestNames subtestName) t).map (fun bar => bar.1.status) =
          (statuses.lookup (testName, subtestName)).toList ∧
        ∀ bar ∈ chart.at (subtestDisplayName subtestNames subtestName) t,
          (∃ call' ∈ ofBrowser browserName (callsOf events),
            bar.2 = call'.run.id ∧ bar.1.startDate = clock.newDate call'.run.timeStart) ∨
          ∃ entry ∈ entriesOf browserName s₀.entries,
            bar.2 = entry.runID ∧ bar.1.startDate = clock.newDate entry.date := by
  have htold := ((AllTold.init htracked hcalls).run hcalls hrun).told browserName
  rw [List.nil_append] at htold
  obtain ⟨report, hfetched, upTo, later, htoldRun⟩ := htold.runs k call hk
  obtain ⟨chart, hchart, hbars⟩ := @at_chartOf clock (testHistoryHandler sort s testName)
    browserName subtestName subtestNames hnames hmem t
  refine ⟨report, chart, hfetched, hchart, _, htoldRun.tells, ?_, fun bar hbar => ?_⟩
  · rw [hbars, List.map_map]
    exact htoldRun.map_status_at htold sort ht hend
  · rw [hbars] at hbar
    obtain ⟨bar', hbar', rfl⟩ := List.mem_map.mp hbar
    have hvalue := Timeline.value_mem_of_mem_bars _ _ (List.mem_filter.mp hbar').1
    rw [changes_eq_of_pairwise sort s testName ((htold.dated _).imp And.left)] at hvalue
    obtain ⟨entry, hentry, heq⟩ := List.mem_map.mp hvalue
    show (∃ call' ∈ _, bar'.value.runID = _ ∧ clock.newDate bar'.value.date = _) ∨
      ∃ entry ∈ _, bar'.value.runID = _ ∧ clock.newDate bar'.value.date = _
    rw [← heq]
    -- a bar begins with an entry, which is of a run of the job or was there before
    rcases htold.origin entry (List.mem_filter.mp hentry).1 with hold | ⟨call', hcall', hid, hdate⟩
    · exact .inr ⟨entry, hold, rfl, rfl⟩
    · exact .inl ⟨call', hcall', hid, congrArg _ hdate⟩

theorem mem_observations_test {report : Report} {testData : TestData} (h : testData ∈ report) :
    ((subWhitespace testData.test, ""), testData.status) ∈ observations report :=
  List.mem_flatMap.mpr ⟨testData, h, List.mem_cons_self⟩

theorem mem_observations_subtest {report : Report} {testData : TestData} (h : testData ∈ report)
    {subtestData : SubtestData} (hsub : subtestData ∈ testData.subtests) :
    ((subWhitespace testData.test, storedSubtestName subtestData.name), subtestData.status) ∈
      observations report :=
  List.mem_flatMap.mpr ⟨testData, h, List.mem_cons_of_mem _ (List.mem_map_of_mem hsub)⟩

/-- **The chart shows each run**: over the time of a run there is one bar for each row of the page
but the duration. It has the status that the run reported for the test or for the subtest, if both
sides write its name alike, or `MISSING` where the run has none but there was one before; where
there never was one, there is no bar. A click on the bar opens the run that changed to it. -/
theorem at_chartOf_run (htracked : AllTracked s₀) (hcalls : Processable clock s₀ (callsOf events))
    (hrun : Lib.run (jobStep sha256) s₀ events = some s) (sort : DateSort)
    {browserName : String} {k : Nat} {call : RunCall}
    (hk : (ofBrowser browserName (callsOf events))[k]? = some call) {t : Int}
    (ht : clock.newDate call.run.timeStart = some t) (hend : t < defaultEndDate clock s.date)
    (testName : String) {rows : List Webapp.TestPage.ResultRow}
    (hnames : KeptApart (handleGetSubtestRows rows)) {row : Webapp.TestPage.ResultRow}
    (hrow : row ∈ rows) (hduration : pageName row.name ≠ "Duration") :
    let subtestNames := handleGetSubtestRows rows
    let key := (testName, pageName row.name)
    ∃ report chart, call.fetched = some report ∧
      chartOf clock (testHistoryHandler sort s testName) browserName subtestNames = some chart ∧
      let bars := chart.at (subtestDisplayName subtestNames (pageName row.name)) t
      let statuses := bars.map fun bar => bar.1.status
      (∀ testData ∈ report, subWhitespace testData.test = testName →
        (pageName row.name = "" → statuses = [testData.status]) ∧
        ∀ subtestData ∈ testData.subtests, subtestData.name = row.name → WrittenAlike row.name →
          statuses = [subtestData.status]) ∧
      (key ∉ reportKeys report → SeenBefore (replayEntries (entriesOf browserName s₀.entries))
          (ofBrowser browserName (callsOf events)) k key → statuses = ["MISSING"]) ∧
      (key ∉ reportKeys report → ¬ SeenBefore (replayEntries (entriesOf browserName s₀.entries))
          (ofBrowser browserName (callsOf events)) k key → bars = []) ∧
      ∀ bar ∈ bars, (∃ call' ∈ ofBrowser browserName (callsOf events),
          bar.2 = call'.run.id ∧ bar.1.startDate = clock.newDate call'.run.timeStart) ∨
        ∃ entry ∈ entriesOf browserName s₀.entries,
          bar.2 = entry.runID ∧ bar.1.startDate = clock.newDate entry.date := by
  intro subtestNames key
  have hmem : pageName row.name ∈ subtestNames :=
    List.mem_filter.mpr ⟨List.mem_map_of_mem hrow, decide_eq_true hduration⟩
  obtain ⟨report, chart, hfetched, hchart, statuses, htells, hstatus, hclick⟩ :=
    at_chartOf_key htracked hcalls hrun sort hk ht hend testName hnames hmem
  -- the statuses tell what the report says, and the bars show the statuses
  have hreported : ∀ status, (key, status) ∈ observations report →
      (chart.at (subtestDisplayName subtestNames (pageName row.name)) t).map
        (fun bar => bar.1.status) = [status] := by
    intro status hstatus'
    rw [hstatus, htells.reported _ status hstatus']
    rfl
  refine ⟨report, chart, hfetched, hchart, ?_, fun hkey hseen => ?_, fun hkey hseen => ?_, hclick⟩
  · rintro testData hdata rfl
    refine ⟨fun hempty => hreported _ ?_, fun subtestData hsub hname halike => hreported _ ?_⟩
    · show ((_, pageName row.name), _) ∈ _
      rw [hempty]
      exact mem_observations_test hdata
    · show ((_, pageName row.name), _) ∈ _
      rw [← halike, ← hname]
      exact mem_observations_subtest hdata hsub
  · rw [hstatus, htells.missing _ hkey hseen]
    rfl
  · rw [htells.unseen _ hkey hseen] at hstatus
    exact List.map_eq_nil_iff.mp hstatus

end Shown

/-! ## An example -/

/-- A stable sort by date. -/
def sortByDate : DateSort := fun runs =>
  ⟨runs.mergeSort fun run run' => decide (run.date ≤ run'.date), List.mergeSort_perm _ _, by
    refine (List.pairwise_mergeSort (fun a b c hab hbc => ?_) (fun a b => ?_) _).imp fun h =>
      not_lt.mpr (decide_eq_true_iff.mp h)
    · exact decide_eq_true ((decide_eq_true_iff.mp hab).trans (decide_eq_true_iff.mp hbc))
    · rw [Bool.or_eq_true, decide_eq_true_iff, decide_eq_true_iff]
      exact le_total _ _⟩

/-- Two days of which the milliseconds are known. -/
def twoDays : Clock where
  newDate date :=
    if date = "2030-01-01T00:00:00Z" then some 1893456000000
    else if date = "2030-01-02T00:00:00Z" then some 1893542400000 else none
  now := 1893628800000
  toLocaleDateString _ := "1/1/2030"

/-- A subtest of Chrome passes on the first day and fails on the second one. -/
def changedCalls : List RunCall :=
  [chromeCall [⟨"/a.html", "OK", [⟨"loads fast", "PASS"⟩]⟩],
    { chromeCall [⟨"/a.html", "OK", [⟨"loads fast", "FAIL"⟩]⟩] with
      run := { id := "2", browserName := "chrome", timeStart := "2030-01-02T00:00:00Z" } }]

def changedEvents : List JobEvent :=
  changedCalls.map .call ++ [.finish "2030-01-02T00:00:00Z"]

theorem run_changedEvents_isSome :
    (run (jobStep paddedSha256) (freshJob emptyBucket) changedEvents).isSome := by decide +kernel

def changedJob : JobState :=
  (run (jobStep paddedSha256) (freshJob emptyBucket) changedEvents).get run_changedEvents_isSome

theorem processable_changedCalls : Processable twoDays (freshJob emptyBucket) changedCalls where
  processed := by decide
  nodup := by decide
  dated _ _ := List.Pairwise.nil
  ordered := by
    refine List.pairwise_pair.mpr fun _ => ⟨by decide, _, _, rfl, rfl, by decide⟩
  later _ _ _ hentry := absurd hentry List.not_mem_nil

/-- The names of the table of its test. -/
def threeRows : List Webapp.TestPage.ResultRow :=
  ["Harness status", "Duration", "loads fast"].map fun name => { name, results := [] }

/-- Over the first day there is a bar that says so. -/
theorem at_chartOf_run_changed :
    ∃ chart, chartOf twoDays (testHistoryHandler sortByDate changedJob "/a.html") "chrome"
        (handleGetSubtestRows threeRows) = some chart ∧
      (chart.at "loads fast" 1893456000000).map (fun bar => bar.1.status) = ["PASS"] := by
  have htracked : AllTracked (freshJob emptyBucket) := by
    refine allTracked_of_agrees (s := freshJob emptyBucket) ?_
    unfold Agrees
    decide +kernel
  have hnames : KeptApart (handleGetSubtestRows threeRows) := by
    constructor <;> decide
  have halike : WrittenAlike "loads fast" :=
    writtenAlike_of_plain (by decide) (by decide) (by simp [isWhitespace, isJsWhitespace])
  obtain ⟨report, chart, hreport, hchart, hstatus, -⟩ := @at_chartOf_run twoDays paddedSha256
    (freshJob emptyBucket) changedJob changedEvents htracked processable_changedCalls
    (Option.some_get run_changedEvents_isSome).symm sortByDate "chrome" 0 _ rfl 1893456000000 rfl
    (by decide +kernel) "/a.html" threeRows hnames ⟨"loads fast", []⟩ (by decide) (by decide)
  cases hreport
  exact ⟨chart, hchart,
    (hstatus _ List.mem_cons_self (by decide)).2 _ List.mem_cons_self rfl halike⟩

end WptFyi.History
