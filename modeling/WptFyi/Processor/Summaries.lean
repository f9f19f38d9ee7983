import WptFyi.Lib.SettledValues
import WptFyi.Processor.WPTReport

/-!
# What a summary is

The loop that summarizes the results fills a dict, and it may end early: a test that has an entry
already raises, and so does a result that lacks one of the keys which are read. Beside it stands
the function that it computes, from a result to the entry that it makes, with nothing where a key
is missing. The loop is the fold of that function, exceptions included, as long as the summary was
empty at its start.

Once that is known the order of the results can be seen not to matter: entries of distinct names can
be exchanged, and two results with one name raise in either order.

- `summaryEntry`: the entry that one result makes, where none of its keys is missing;
- `summarizeResults_run`: the loop over the results, exceptions included, is the
  fold of `summaryStep`;
- `summarize_perm`: permuted results have the same summary, or raise both times.
-/

namespace WptFyi.Processor

open Lib

/-- What `summarize` has of a subtest, if its status is there: passed or not. -/
def subtestPassed (subtest : SubtestResult) : Option Bool := subtest.status.map (· == "PASS")

/-- The key and the entry of a result, where no key of it is missing. -/
def summaryEntry (result : TestResult) : Option (String × SummaryEntry) := do
  let test ← result.test
  let status ← result.status
  let subtests ← result.subtests
  let passed ← subtests.mapM subtestPassed
  return (strip test,
    { s := (statusAbbreviations.lookup status).getD status
      c := (passed.count true, passed.length) })

theorem countSubtest_insert (testFile : String) (entry : SummaryEntry) (passed : Bool)
    (summary : Summary) :
    countSubtest testFile passed (summary.insert testFile entry) =
      summary.insert testFile
        { entry with c := (entry.c.1 + if passed then 1 else 0, entry.c.2 + 1) } := by
  rw [countSubtest, Finmap.lookup_insert]
  exact Finmap.insert_insert _

/-- The loop over subtests counts them, or meets one without a status. -/
theorem summarizeSubtests_run (testFile : String) (subtests : List SubtestResult)
    (summary : Summary) (entry : SummaryEntry) :
    match subtests.mapM subtestPassed with
    | some passed =>
      summarizeSubtests testFile subtests (summary.insert testFile entry) =
        .ok () (summary.insert testFile
          { entry with c := (entry.c.1 + passed.count true, entry.c.2 + passed.length) })
    | none =>
      ∃ e s, summarizeSubtests testFile subtests (summary.insert testFile entry) = .error e s := by
  induction subtests generalizing entry with
  | nil => rfl
  | cons subtest subtests ih =>
    obtain ⟨status⟩ := subtest
    cases status with
    | none => exact ⟨_, _, rfl⟩
    | some status =>
      -- the counts are kept in the summary; one turn adds to the entry it finds there
      have hstep : summarizeSubtests testFile (⟨some status⟩ :: subtests)
          (summary.insert testFile entry) = summarizeSubtests testFile subtests
            (countSubtest testFile (status == "PASS") (summary.insert testFile entry)) := rfl
      have hmapM : (⟨some status⟩ :: subtests : List SubtestResult).mapM subtestPassed =
          (subtests.mapM subtestPassed).map ((status == "PASS") :: ·) := by
        rw [List.mapM_cons]
        cases subtests.mapM subtestPassed <;> rfl
      rw [hmapM, hstep, countSubtest_insert]
      have hrest := ih { entry with
        c := (entry.c.1 + if status == "PASS" then 1 else 0, entry.c.2 + 1) }
      cases hpassed : subtests.mapM subtestPassed with
      | none =>
        rw [hpassed] at hrest
        exact hrest
      | some passed =>
        rw [hpassed] at hrest
        show _ = EStateM.Result.ok () _
        rw [hrest]
        congr 3
        cases status == "PASS" <;> simp <;> omega

/-- A test that is in the summary already. -/
theorem summarizeResult_of_mem {test : String} {summary : Summary} (h : strip test ∈ summary)
    (status : Option String) (subtests : Option (List SubtestResult)) :
    summarizeResult ⟨some test, status, subtests⟩ summary =
      .error (.conflictingData (strip test)) summary := by
  show (if strip test ∈ summary then _ else _ : SummaryM Unit) summary = _
  rw [if_pos h]
  rfl

/-- A new test: its entry starts with no subtests. -/
theorem summarizeResult_of_notMem {test : String} {summary : Summary} (h : strip test ∉ summary)
    (status : String) (subtests : List SubtestResult) :
    summarizeResult ⟨some test, some status, some subtests⟩ summary =
      summarizeSubtests (strip test) subtests (summary.insert (strip test)
        { s := (statusAbbreviations.lookup status).getD status, c := (0, 0) }) := by
  show (if strip test ∈ summary then _ else _ : SummaryM Unit) summary = _
  rw [if_neg h]
  rfl

/-- A missing key raises, whether the test is new or not. -/
theorem summarizeResult_of_missing {test : String} {status : Option String}
    {subtests : Option (List SubtestResult)} (h : status = none ∨ subtests = none)
    (summary : Summary) :
    ∃ e s, summarizeResult ⟨some test, status, subtests⟩ summary = .error e s := by
  by_cases hmem : strip test ∈ summary
  · exact ⟨_, _, summarizeResult_of_mem hmem status subtests⟩
  · show ∃ e s, (if strip test ∈ summary then _ else _ : SummaryM Unit) summary = _
    rw [if_neg hmem]
    rcases h with rfl | rfl
    · exact ⟨_, _, rfl⟩
    · cases status with
      | none => exact ⟨_, _, rfl⟩
      | some status => exact ⟨_, _, rfl⟩

/-- The summary with one more result, where that raises nothing. -/
def summaryStep (summary : Summary) (result : TestResult) : Option Summary :=
  (summaryEntry result).bind fun e =>
    if e.1 ∈ summary then none else some (summary.insert e.1 e.2)

/-- One result: a new entry, or an exception. -/
theorem summarizeResult_run (result : TestResult) (summary : Summary) :
    match summaryStep summary result with
    | some summary' => summarizeResult result summary = .ok () summary'
    | none => ∃ e s, summarizeResult result summary = .error e s := by
  match result with
  | ⟨none, _, _⟩ => exact ⟨_, _, rfl⟩
  | ⟨some test, none, subtests⟩ => exact summarizeResult_of_missing (Or.inl rfl) summary
  | ⟨some test, some status, none⟩ => exact summarizeResult_of_missing (Or.inr rfl) summary
  | ⟨some test, some status, some subtests⟩ =>
    have hentry : summaryEntry ⟨some test, some status, some subtests⟩ =
        (subtests.mapM subtestPassed).map fun passed => (strip test,
          { s := (statusAbbreviations.lookup status).getD status
            c := (passed.count true, passed.length) }) := by
      rw [Option.map_eq_bind]
      rfl
    rw [summaryStep, hentry]
    -- for a new test the entry is there before its subtests are counted
    have hloop := summarizeSubtests_run (strip test) subtests summary
      { s := (statusAbbreviations.lookup status).getD status, c := (0, 0) }
    by_cases hmem : strip test ∈ summary
    · cases subtests.mapM subtestPassed with
      | none => exact ⟨_, _, summarizeResult_of_mem hmem _ _⟩
      | some passed =>
        show match (if strip test ∈ summary then none else some _ : Option Summary) with
          | some summary' => _ = EStateM.Result.ok () summary'
          | none => _
        rw [if_pos hmem]
        exact ⟨_, _, summarizeResult_of_mem hmem _ _⟩
    · rw [summarizeResult_of_notMem hmem]
      cases hpassed : subtests.mapM subtestPassed with
      | none =>
        rw [hpassed] at hloop
        exact hloop
      | some passed =>
        rw [hpassed] at hloop
        show match (if strip test ∈ summary then none else some _ : Option Summary) with
          | some summary' => _ = EStateM.Result.ok () summary'
          | none => _
        rw [if_neg hmem]
        refine hloop.trans ?_
        simp

/-- The loop fills the summary as the fold does, and raises where the fold is undefined. -/
theorem summarizeResults_run (results : List TestResult) (summary : Summary) :
    match results.foldlM summaryStep summary with
    | some summary' => summarizeResults results summary = .ok () summary'
    | none => ∃ e s, summarizeResults results summary = .error e s := by
  induction results generalizing summary with
  | nil => rfl
  | cons result results ih =>
    have hresult := summarizeResult_run result summary
    rw [List.foldlM_cons]
    cases hstep : summaryStep summary result with
    | none =>
      rw [hstep] at hresult
      obtain ⟨e, s, herror⟩ := hresult
      exact ⟨e, s, History.bind_of_error herror⟩
    | some summary' =>
      rw [hstep] at hresult
      have hrun : summarizeResults (result :: results) summary =
          summarizeResults results summary' :=
        History.bind_of_ok hresult
      rw [hrun]
      exact ih summary'

/-- Two results can be exchanged: they raise both ways or make the same entries. -/
theorem summaryStep_swap (summary : Summary) (a b : TestResult) :
    (summaryStep summary a).bind (summaryStep · b) =
      (summaryStep summary b).bind (summaryStep · a) := by
  rw [summaryStep, summaryStep]
  cases ha : summaryEntry a with
  | none =>
    cases hb : summaryEntry b with
    | none => rfl
    | some e => simp [summaryStep, ha]
  | some e =>
    cases hb : summaryEntry b with
    | none => simp [summaryStep, hb]
    | some e' =>
      have hstep : ∀ s, summaryStep s a = if e.1 ∈ s then none else some (s.insert e.1 e.2) :=
        fun s => by rw [summaryStep, ha]; rfl
      have hstep' : ∀ s, summaryStep s b = if e'.1 ∈ s then none else some (s.insert e'.1 e'.2) :=
        fun s => by rw [summaryStep, hb]; rfl
      show (if e.1 ∈ summary then none else some (summary.insert e.1 e.2) : Option Summary).bind _ =
        (if e'.1 ∈ summary then none else some (summary.insert e'.1 e'.2) : Option Summary).bind _
      -- two entries exchange unless one is there already; two of one name fail in either order
      by_cases hmem : e.1 ∈ summary <;> by_cases hmem' : e'.1 ∈ summary
      · rw [if_pos hmem, if_pos hmem']
        rfl
      · simp [hmem, hmem', hstep, Finmap.mem_insert]
      · simp [hmem, hmem', hstep', Finmap.mem_insert]
      · by_cases hne : e.1 = e'.1
        · simp [hmem', hstep, hstep', Finmap.mem_insert, hne]
        · simp [hmem, hmem', hstep, hstep', Finmap.mem_insert, hne, Ne.symm hne,
            Finmap.insert_insert_of_ne]

/-- The same summary, or an exception both times. -/
def SameOutcome : Except SummarizeError Summary → Except SummarizeError Summary → Prop
  | .ok summary, .ok summary' => summary = summary'
  | .error _, .error _ => True
  | _, _ => False

/-- A first `summarize` goes over all results. -/
theorem summarize_of_empty {report : Report} (h : report.summary = ∅) :
    match report.results.foldlM summaryStep ∅ with
    | some summary => (summarize report).2 = .ok summary
    | none => ∃ e, (summarize report).2 = .error e := by
  have hrun := summarizeResults_run report.results ∅
  rw [summarize, if_neg (not_not_intro h), h]
  cases hfold : report.results.foldlM summaryStep ∅ with
  | none =>
    rw [hfold] at hrun
    obtain ⟨e, s, herror⟩ := hrun
    exact ⟨e, by simp only [EStateM.run, herror]⟩
  | some summary =>
    rw [hfold] at hrun
    simp only [EStateM.run, hrun]

/-- **Permuted results have the same summary, or raise both times.** -/
theorem summarize_perm {report report' : Report} (h : report.summary = ∅)
    (h' : report'.summary = ∅) (hperm : report.results.Perm report'.results) :
    SameOutcome (summarize report).2 (summarize report').2 := by
  have hsummary := summarize_of_empty h
  have hsummary' := summarize_of_empty h'
  rw [← foldlM_perm summaryStep_swap hperm] at hsummary'
  cases hfold : report.results.foldlM summaryStep ∅ with
  | none =>
    rw [hfold] at hsummary hsummary'
    obtain ⟨e, he⟩ := hsummary
    obtain ⟨e', he'⟩ := hsummary'
    rw [he, he']
    trivial
  | some summary =>
    rw [hfold] at hsummary hsummary'
    rw [hsummary, hsummary']
    rfl

end WptFyi.Processor
