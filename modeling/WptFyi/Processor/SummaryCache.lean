import WptFyi.Processor.Summaries

/-!
# The cached summary

`summarize` fills the summary in place, raises from the middle of the loop, and goes by
`if self._summary` on the next call; a chunk that is loaded later does not reset it.

So a call may return a summary that another one has left unfinished, or one from before the last
load, and it returns the right one by luck when nothing was added since. What the cache may hold is
said by `FilledFrom`: the entries of the first so many results, counted from the start, where the
results are those of the chunks loaded by then. A call with an empty cache runs the loop over all
results, and `summarizeResults_cases` says how far it comes.

The calls that go right are then those that find the cache empty, or as full as it should be, and do
not lose a key before the first name that occurs twice (`KeysBeforeConflict`). Each of the two
conditions is about the results and the cache before the call, not about what the call returns.

- `IsSummary`: one entry for each result, `foldlM_summaryStep_iff`;
- `summarizeResults_cases`: how the loop ends, and with what in the summary;
- `FilledFrom`: what the cache may hold while chunks are loaded and summaries asked for;
- `summarizes_iff`: the calls that raise or return what they should.
-/

namespace WptFyi.Processor

open Lib

/-! ## Summaries of results

A summary of a list of results has one entry for each of them, with the counts of its subtests.
There is one when no key is missing and no name is there twice. -/

/-- No key that `summarize` reads is missing from the result. -/
def HasKeys (result : TestResult) : Prop := (summaryEntry result).isSome

/-- The names of the tests, stripped. -/
def testNames (results : List TestResult) : List String :=
  results.filterMap fun result => result.test.map strip

/-- One entry for each of the results, whose names are distinct. -/
structure IsSummary (results : List TestResult) (summary : Summary) : Prop where
  hasKeys : ∀ result ∈ results, HasKeys result
  nodup : (testNames results).Nodup
  lookup_iff : ∀ name entry, summary.lookup name = some entry ↔
    ∃ result ∈ results, summaryEntry result = some (name, entry)

section IsSummary

variable {results : List TestResult} {result : TestResult} {summary summary' : Summary}
  {name : String} {entry : SummaryEntry}

theorem testNames_append (results results' : List TestResult) :
    testNames (results ++ results') = testNames results ++ testNames results' :=
  List.filterMap_append

/-- The name of an entry is that of its test. -/
theorem test_of_summaryEntry (h : summaryEntry result = some (name, entry)) :
    result.test.map strip = some name := by
  obtain ⟨test, status, subtests⟩ := result
  cases test with
  | none => exact absurd h (by simp [summaryEntry])
  | some test =>
    simp only [summaryEntry, Option.bind_eq_bind, Option.bind_some, Option.bind_eq_some_iff,
      Option.pure_def, Option.some.injEq, Prod.mk.injEq] at h
    obtain ⟨status, -, subtests, -, passed, -, rfl, -⟩ := h
    rfl

theorem testNames_snoc (h : summaryEntry result = some (name, entry)) (results : List TestResult) :
    testNames (results ++ [result]) = testNames results ++ [name] := by
  rw [testNames_append]
  simp [testNames, test_of_summaryEntry h]

theorem length_testNames (h : ∀ result ∈ results, HasKeys result) :
    (testNames results).length = results.length := by
  rw [testNames, List.filterMap_length_eq_length]
  intro result hmem
  obtain ⟨⟨name, entry⟩, hentry⟩ := Option.isSome_iff_exists.mp (h result hmem)
  rw [test_of_summaryEntry hentry]
  rfl

theorem IsSummary.unique (h : IsSummary results summary) (h' : IsSummary results summary') :
    summary = summary' := by
  refine Finmap.ext_lookup fun name => Option.ext fun entry => ?_
  rw [h.lookup_iff, h'.lookup_iff]

/-- The names in a summary are those of its results. -/
theorem IsSummary.mem_iff (h : IsSummary results summary) :
    name ∈ summary ↔ name ∈ testNames results := by
  rw [testNames, List.mem_filterMap]
  constructor
  · intro hmem
    obtain ⟨entry, hentry⟩ := Finmap.mem_iff.mp hmem
    obtain ⟨result, hresult, hsome⟩ := (h.lookup_iff name entry).mp hentry
    exact ⟨result, hresult, test_of_summaryEntry hsome⟩
  · rintro ⟨result, hresult, hname⟩
    obtain ⟨⟨name', entry⟩, hentry⟩ := Option.isSome_iff_exists.mp (h.hasKeys result hresult)
    obtain rfl : name' = name := by
      rw [test_of_summaryEntry hentry] at hname
      exact Option.some.inj hname
    exact Finmap.mem_iff.mpr ⟨entry, (h.lookup_iff _ _).mpr ⟨result, hresult, hentry⟩⟩

/-- It has as many entries as there are results. -/
theorem IsSummary.card_keys (h : IsSummary results summary) :
    summary.keys.card = results.length := by
  have hkeys : summary.keys = (testNames results).toFinset := by
    ext name
    rw [Finmap.mem_keys, h.mem_iff, List.mem_toFinset]
  rw [hkeys, List.toFinset_card_of_nodup h.nodup, length_testNames h.hasKeys]

theorem IsSummary.nil : IsSummary [] ∅ where
  hasKeys := fun _ h => absurd h List.not_mem_nil
  nodup := List.nodup_nil
  lookup_iff := by simp

/-- One more result, under a name that is new. -/
theorem IsSummary.snoc (h : IsSummary results summary)
    (hentry : summaryEntry result = some (name, entry))
    (hnew : name ∉ summary) : IsSummary (results ++ [result]) (summary.insert name entry) := by
  have hnotMem : name ∉ testNames results := fun hmem => hnew (h.mem_iff.mpr hmem)
  refine ⟨fun r hr => ?_, ?_, fun name' entry' => ?_⟩
  · rcases List.mem_append.mp hr with hr | hr
    · exact h.hasKeys r hr
    · rw [List.mem_singleton.mp hr]
      exact Option.isSome_iff_exists.mpr ⟨_, hentry⟩
  · rw [testNames_snoc hentry, List.nodup_append_comm]
    exact List.nodup_cons.mpr ⟨hnotMem, h.nodup⟩
  · have hlookup : summary.lookup name = none := Finmap.lookup_eq_none.mpr hnew
    rw [GoMap.lookup_insert_eq_ite]
    simp only [List.mem_append, List.mem_singleton, or_and_right, exists_or, exists_eq_left, hentry,
      Option.some.injEq, Prod.mk.injEq, ← h.lookup_iff]
    by_cases hname : name' = name
    · subst hname
      simp [hlookup]
    · simp [hname, Ne.symm hname]

/-- The fold of the entries is the summary, where there is one. -/
theorem isSummary_of_foldlM (h : results.foldlM summaryStep ∅ = some summary) :
    IsSummary results summary := by
  induction results using List.reverseRecOn generalizing summary with
  | nil =>
    obtain rfl := Option.some.inj h
    exact IsSummary.nil
  | append_singleton results result ih =>
    rw [List.foldlM_append] at h
    obtain ⟨before, hbefore, hstep⟩ := Option.bind_eq_some_iff.mp h
    have hlast : summaryStep before result = some summary := by simpa using hstep
    obtain ⟨⟨name, entry⟩, hentry, hinsert⟩ := Option.bind_eq_some_iff.mp hlast
    split_ifs at hinsert with hmem
    obtain rfl := Option.some.inj hinsert
    exact (ih hbefore).snoc hentry hmem

/-- With all keys and distinct names there is a summary. -/
theorem exists_foldlM (hkeys : ∀ result ∈ results, HasKeys result)
    (hnodup : (testNames results).Nodup) :
    ∃ summary, results.foldlM summaryStep ∅ = some summary := by
  induction results using List.reverseRecOn with
  | nil => exact ⟨∅, rfl⟩
  | append_singleton results result ih =>
    have hlast : HasKeys result := hkeys result (by simp)
    obtain ⟨⟨name, entry⟩, hentry⟩ := Option.isSome_iff_exists.mp hlast
    rw [testNames_snoc hentry, List.nodup_append_comm, List.singleton_append,
      List.nodup_cons] at hnodup
    obtain ⟨before, hbefore⟩ := ih (fun r hr => hkeys r (List.mem_append_left _ hr)) hnodup.2
    have hnew : name ∉ before := fun hmem =>
      hnodup.1 ((isSummary_of_foldlM hbefore).mem_iff.mp hmem)
    refine ⟨before.insert name entry, ?_⟩
    rw [List.foldlM_append, hbefore]
    show List.foldlM summaryStep before [result] = _
    simp [summaryStep, hentry, hnew]

theorem foldlM_summaryStep_iff :
    results.foldlM summaryStep ∅ = some summary ↔ IsSummary results summary := by
  refine ⟨isSummary_of_foldlM, fun h => ?_⟩
  obtain ⟨folded, hfold⟩ := exists_foldlM h.hasKeys h.nodup
  rw [hfold, (isSummary_of_foldlM hfold).unique h]

end IsSummary

/-! ## How the loop ends

The loop goes through all results, or it ends at the first that has a key missing or a name that is
taken. What it has put into the summary by then stays there. -/

/-- The ends of the loop over some results, from a summary on: all results have an entry,
or one has a name that is taken, or one lacks a key. -/
inductive LoopEnd (summary : Summary) (results : List TestResult) :
    EStateM.Result SummarizeError Summary Unit → Prop where
  | done {summary' : Summary} (hfold : results.foldlM summaryStep summary = some summary') :
      LoopEnd summary results (.ok () summary')
  | taken {seen later : List TestResult} {result : TestResult} {summary' : Summary} {test : String}
      (hsplit : results = seen ++ result :: later)
      (hfold : seen.foldlM summaryStep summary = some summary')
      (htest : result.test = some test) (hmem : strip test ∈ summary') :
      LoopEnd summary results (.error (.conflictingData (strip test)) summary')
  | missing {seen later : List TestResult} {result : TestResult} {summary' partly : Summary}
      (key : String) (hsplit : results = seen ++ result :: later)
      (hfold : seen.foldlM summaryStep summary = some summary') (hkeys : ¬ HasKeys result)
      (hnew : ∀ test, result.test = some test → strip test ∉ summary') :
      LoopEnd summary results (.error (.keyError key) partly)

section Loop

variable {summary summary' : Summary} {result : TestResult} {results : List TestResult}

/-- The loop over subtests raises nothing but for a status. -/
theorem summarizeSubtests_error {testFile : String} {subtests : List SubtestResult}
    {e : SummarizeError}
    (h : summarizeSubtests testFile subtests summary = .error e summary') :
      e = .keyError "status" := by
  induction subtests generalizing summary with
  | nil => nomatch h
  | cons subtest subtests ih =>
    obtain ⟨status⟩ := subtest
    cases status with
    | none =>
      have hrun : summarizeSubtests testFile (⟨none⟩ :: subtests) summary =
          .error (.keyError "status") summary := rfl
      rw [hrun] at h
      exact (EStateM.Result.error.inj h).1.symm
    | some status =>
      have hrest : summarizeSubtests testFile subtests
          (countSubtest testFile (status == "PASS") summary) =
          .error e summary' := h
      exact ih hrest

/-- A result that lacks a key raises, perhaps after some of its subtests were counted. -/
theorem summarizeResult_missing {test : String} (hnew : strip test ∉ summary)
    {status : Option String}
    {subtests : Option (List SubtestResult)} (h : ¬ HasKeys ⟨some test, status, subtests⟩) :
    ∃ key partly, summarizeResult ⟨some test, status, subtests⟩ summary =
      .error (.keyError key) partly := by
  cases status with
  | none =>
    refine ⟨"status", summary, ?_⟩
    show (if strip test ∈ summary then _ else _ : SummaryM Unit) summary = _
    rw [if_neg hnew]
    rfl
  | some status =>
    cases subtests with
    | none =>
      refine ⟨"subtests", summary.insert (strip test)
        { s := (statusAbbreviations.lookup status).getD status, c := (0, 0) }, ?_⟩
      show (if strip test ∈ summary then _ else _ : SummaryM Unit) summary = _
      rw [if_neg hnew]
      rfl
    | some subtests =>
      rw [summarizeResult_of_notMem hnew]
      -- the entry is in the summary by now, with the subtests counted so far
      have hloop := summarizeSubtests_run (strip test) subtests summary
        { s := (statusAbbreviations.lookup status).getD status, c := (0, 0) }
      cases hpassed : subtests.mapM subtestPassed with
      | some passed => exact absurd (by simp [HasKeys, summaryEntry, hpassed]) h
      | none =>
        rw [hpassed] at hloop
        obtain ⟨e, partly, herror⟩ := hloop
        rw [herror, summarizeSubtests_error herror]
        exact ⟨_, _, rfl⟩

/-- One result ends the loop, or makes its entry. -/
theorem summarizeResult_cases (result : TestResult) (summary : Summary) :
    (∃ summary', summaryStep summary result = some summary' ∧
      summarizeResult result summary = .ok () summary') ∨
    (∃ test, result.test = some test ∧ strip test ∈ summary ∧
      summarizeResult result summary = .error (.conflictingData (strip test)) summary) ∨
    (¬ HasKeys result ∧ (∀ test, result.test = some test → strip test ∉ summary) ∧
      ∃ key partly, summarizeResult result summary = .error (.keyError key) partly) := by
  match result with
  | ⟨none, status, subtests⟩ =>
    refine Or.inr (Or.inr ⟨by simp [HasKeys, summaryEntry], by simp, "test", summary, rfl⟩)
  | ⟨some test, status, subtests⟩ =>
    by_cases hmem : strip test ∈ summary
    · exact Or.inr (Or.inl ⟨test, rfl, hmem, summarizeResult_of_mem hmem status subtests⟩)
    · have hnew : ∀ test', some test = some test' → strip test' ∉ summary := by
        rintro test' ⟨rfl⟩
        exact hmem
      by_cases hkeys : HasKeys ⟨some test, status, subtests⟩
      · obtain ⟨⟨name, entry⟩, hentry⟩ := Option.isSome_iff_exists.mp hkeys
        obtain rfl : strip test = name := Option.some.inj (test_of_summaryEntry hentry)
        have hstep : summaryStep summary ⟨some test, status, subtests⟩ =
            some (summary.insert (strip test) entry) := by
          simp [summaryStep, hentry, hmem]
        have hrun := summarizeResult_run ⟨some test, status, subtests⟩ summary
        rw [hstep] at hrun
        exact Or.inl ⟨_, hstep, hrun⟩
      · exact Or.inr (Or.inr ⟨hkeys, hnew, summarizeResult_missing hmem hkeys⟩)

/-- **The loop** goes over all results, or stops at a name that is taken, or at a key that is
missing. -/
theorem summarizeResults_cases (results : List TestResult) (summary : Summary) :
    LoopEnd summary results (summarizeResults results summary) := by
  induction results generalizing summary with
  | nil => exact LoopEnd.done rfl
  | cons result results ih =>
    rcases summarizeResult_cases result summary with
      ⟨summary', hstep, hrun⟩ | ⟨test, htest, hmem, hrun⟩ | ⟨hkeys, hnew, key, partly, hrun⟩
    · have hloop : summarizeResults (result :: results) summary =
          summarizeResults results summary' :=
        History.bind_of_ok hrun
      have hfold : ∀ rs, (result :: rs).foldlM summaryStep summary =
          rs.foldlM summaryStep summary' := by
        intro rs
        rw [List.foldlM_cons, hstep]
        rfl
      rw [hloop]
      -- the result is entered, so the loop ends as it does on the rest
      have hend := ih summary'
      generalize summarizeResults results summary' = outcome at hend ⊢
      cases hend with
      | done hrest => exact LoopEnd.done ((hfold results).trans hrest)
      | taken hsplit hrest htest hmem =>
        exact LoopEnd.taken (by rw [hsplit]; rfl) ((hfold _).trans hrest) htest hmem
      | missing key hsplit hrest hkeys hnew =>
        exact LoopEnd.missing key (by rw [hsplit]; rfl) ((hfold _).trans hrest) hkeys hnew
    · have hloop : summarizeResults (result :: results) summary =
          .error (.conflictingData (strip test)) summary := History.bind_of_error hrun
      have hsplit : result :: results = [] ++ result :: results := rfl
      rw [hloop]
      exact LoopEnd.taken hsplit rfl htest hmem
    · have hloop : summarizeResults (result :: results) summary = .error (.keyError key) partly :=
        History.bind_of_error hrun
      have hsplit : result :: results = [] ++ result :: results := rfl
      rw [hloop]
      exact LoopEnd.missing key hsplit rfl hkeys hnew

end Loop

/-! ## Loads and summaries in any order

The summary is kept between calls, so a later call can find the summary of fewer results, or of
results that ended in an error. -/

/-- A call on the report. -/
inductive ReportCall where
  | load (chunk : Chunk)
  | summarize

/-- The report after a call, whether it raised or not. -/
def Report.call (report : Report) : ReportCall → Report
  | .load chunk => (addChunk report chunk).1
  | .summarize => (summarize report).1

def Report.calls (report : Report) (calls : List ReportCall) : Report :=
  calls.foldl Report.call report

/-- The results of the chunks that were loaded. -/
def loadedResults (calls : List ReportCall) : List TestResult :=
  calls.flatMap fun
    | .load chunk => chunk.results
    | .summarize => []

/-- What a call to `summarize` should do: raise where a name occurs twice, else return
the summary of all results. -/
def SummarizeMeets (results : List TestResult) : Except SummarizeError Summary → Prop
  | .ok summary => IsSummary results summary
  | .error (.conflictingData testFile) => 2 ≤ (testNames results).count testFile
  | .error (.keyError _) => False

/-- Going over the results, a key is missing only where a name that is taken was met. -/
def KeysBeforeConflict (results : List TestResult) : Prop :=
  ∀ seen result later, results = seen ++ result :: later → (∀ r ∈ seen, HasKeys r) →
    (testNames seen).Nodup →
      HasKeys result ∨ ∃ test, result.test = some test ∧ strip test ∈ testNames seen

/-- Nothing is cached, or as many entries as there are results. -/
def CacheFits (report : Report) : Prop :=
  if report.summary = ∅ then KeysBeforeConflict report.results
  else report.summary.keys.card = report.results.length ∧ ∀ result ∈ report.results, HasKeys result

/-- The cache is the summary of the first so many results, unless a key was missing. -/
def FilledFrom (results : List TestResult) (summary : Summary) : Prop :=
  (∃ seen, seen <+: results ∧ IsSummary seen summary) ∨ ∃ result ∈ results, ¬ HasKeys result

section Calls

variable {report : Report} {results : List TestResult} {summary : Summary} {calls : List ReportCall}

theorem addChunk_results (report : Report) (chunk : Chunk) :
    (addChunk report chunk).1.results = report.results ++ chunk.results := by
  simp only [addChunk]
  split <;> rfl

theorem addChunk_summary (report : Report) (chunk : Chunk) :
    (addChunk report chunk).1.summary = report.summary := by
  simp only [addChunk]
  split <;> rfl

theorem summarize_results (report : Report) : (summarize report).1.results = report.results := by
  rw [summarize]
  split
  · rfl
  · split <;> rfl

/-- Summaries leave the results as they are. -/
theorem results_calls (report : Report) (calls : List ReportCall) :
    (report.calls calls).results = report.results ++ loadedResults calls := by
  induction calls generalizing report with
  | nil => exact (List.append_nil _).symm
  | cons call calls ih =>
    have hcalls : report.calls (call :: calls) = (report.call call).calls calls := rfl
    rw [hcalls, ih]
    cases call with
    | load chunk =>
      show (addChunk report chunk).1.results ++ _ = _ ++ (chunk.results ++ loadedResults calls)
      rw [addChunk_results, List.append_assoc]
    | summarize =>
      show (summarize report).1.results ++ _ = _ ++ ([] ++ loadedResults calls)
      rw [summarize_results, List.nil_append]

theorem FilledFrom.append (h : FilledFrom results summary) (more : List TestResult) :
    FilledFrom (results ++ more) summary := by
  rcases h with ⟨seen, hseen, hsummary⟩ | ⟨result, hmem, hkeys⟩
  · exact Or.inl ⟨seen, hseen.trans (List.prefix_append _ _), hsummary⟩
  · exact Or.inr ⟨result, List.mem_append_left _ hmem, hkeys⟩

/-- The loop fills the cache from the first result on. -/
theorem LoopEnd.filledFrom {outcome : EStateM.Result SummarizeError Summary Unit}
    (h : LoopEnd ∅ results outcome) :
    (∃ filled, outcome = .ok () filled ∧ FilledFrom results filled) ∨
      ∃ e filled, outcome = .error e filled ∧ FilledFrom results filled := by
  cases h with
  | done hfold =>
    exact Or.inl ⟨_, rfl, Or.inl ⟨results, List.prefix_rfl, foldlM_summaryStep_iff.mp hfold⟩⟩
  | taken hsplit hfold htest hmem =>
    refine Or.inr ⟨_, _, rfl, Or.inl ⟨_, ?_, foldlM_summaryStep_iff.mp hfold⟩⟩
    rw [hsplit]
    exact List.prefix_append _ _
  | missing key hsplit hfold hkeys hnew =>
    refine Or.inr ⟨_, _, rfl, Or.inr ⟨_, ?_, hkeys⟩⟩
    rw [hsplit]
    exact List.mem_append_right _ List.mem_cons_self

/-- **Step**: a call to `summarize` leaves the cache filled from the results that there are. -/
theorem filledFrom_summarize (h : FilledFrom report.results report.summary) :
    FilledFrom (summarize report).1.results (summarize report).1.summary := by
  rw [summarize_results, summarize]
  split_ifs with hempty
  · exact h
  · rw [not_not] at hempty
    rw [hempty]
    rcases (summarizeResults_cases report.results ∅).filledFrom with
      ⟨filled, hrun, hfilled⟩ | ⟨e, filled, hrun, hfilled⟩
    · rw [EStateM.run, hrun]
      exact hfilled
    · rw [EStateM.run, hrun]
      exact hfilled

/-- One call keeps the invariant, -/
theorem filledFrom_call (h : FilledFrom report.results report.summary) (call : ReportCall) :
    FilledFrom (report.call call).results (report.call call).summary := by
  cases call with
  | load chunk =>
    show FilledFrom (addChunk report chunk).1.results (addChunk report chunk).1.summary
    rw [addChunk_results, addChunk_summary]
    exact h.append chunk.results
  | summarize => exact filledFrom_summarize h

/-- and so do all. -/
theorem filledFrom_calls (h : FilledFrom report.results report.summary) (calls : List ReportCall) :
    FilledFrom (report.calls calls).results (report.calls calls).summary := by
  induction calls generalizing report with
  | nil => exact h
  | cons call calls ih => exact ih (filledFrom_call h call)

theorem filledFrom_new (calls : List ReportCall) :
    FilledFrom (Report.calls {} calls).results (Report.calls {} calls).summary :=
  filledFrom_calls (Or.inl ⟨[], List.nil_prefix, IsSummary.nil⟩) calls

/-! ## Which calls do what they should

With nothing cached the loop decides. A summary that is found is returned as it is, so the call is
right exactly when all results are in it and none has a key missing. -/

/-- Names that are taken end the part without repetitions. -/
theorem keysBeforeConflict_of_taken {seen later : List TestResult} {result : TestResult}
    {test : String}
    (hseen : IsSummary seen summary) (htest : result.test = some test)
    (hmem : strip test ∈ testNames seen) : KeysBeforeConflict (seen ++ result :: later) := by
  intro seen' result' later' hsplit hkeys hnodup
  rcases List.append_eq_append_iff.mp hsplit with ⟨t, rfl, hrest⟩ | ⟨t, rfl, hrest⟩
  · cases t with
    | nil =>
      obtain ⟨rfl, -⟩ := List.cons.inj hrest
      rw [List.append_nil]
      exact Or.inr ⟨test, htest, hmem⟩
    | cons r t =>
      -- the longer part has the name twice
      obtain ⟨rfl, -⟩ := List.cons.inj hrest
      rw [testNames_append] at hnodup
      have hagain : strip test ∈ testNames (result :: t) := by
        rw [testNames, List.mem_filterMap]
        exact ⟨result, List.mem_cons_self, by rw [htest]; rfl⟩
      exact absurd hagain fun h => (List.disjoint_of_nodup_append hnodup) hmem h
  · cases t with
    | nil =>
      obtain ⟨rfl, -⟩ := List.cons.inj hrest
      rw [List.append_nil] at hmem
      exact Or.inr ⟨test, htest, hmem⟩
    | cons r t =>
      obtain ⟨rfl, -⟩ := List.cons.inj hrest
      exact Or.inl (hseen.hasKeys result' (by simp))

theorem two_le_count_of_taken {seen later : List TestResult} {result : TestResult} {test : String}
    (htest : result.test = some test) (hmem : strip test ∈ testNames seen) :
    2 ≤ (testNames (seen ++ result :: later)).count (strip test) := by
  have hcons : testNames (result :: later) = strip test :: testNames later := by
    simp [testNames, htest]
  have hpos := List.count_pos_iff.mpr hmem
  rw [testNames_append, hcons, List.count_append, List.count_cons_self]
  omega

/-- With nothing cached the loop decides. -/
theorem summarizeMeets_of_empty (h : report.summary = ∅) :
    SummarizeMeets report.results (summarize report).2 ↔ KeysBeforeConflict report.results := by
  have hend := summarizeResults_cases report.results ∅
  rw [summarize, if_neg (not_not_intro h), h, EStateM.run]
  generalize summarizeResults report.results ∅ = outcome at hend
  cases hend with
  | done hfold =>
    have hsummary := foldlM_summaryStep_iff.mp hfold
    refine ⟨fun _ seen result later hsplit _ _ => Or.inl (hsummary.hasKeys result ?_),
      fun _ => hsummary⟩
    rw [hsplit]
    exact List.mem_append_right _ List.mem_cons_self
  | taken hsplit hfold htest hmem =>
    have hsummary := foldlM_summaryStep_iff.mp hfold
    have hname := hsummary.mem_iff.mp hmem
    rw [hsplit]
    exact ⟨fun _ => keysBeforeConflict_of_taken hsummary htest hname,
      fun _ => two_le_count_of_taken htest hname⟩
  | missing key hsplit hfold hkeys hnew =>
    have hsummary := foldlM_summaryStep_iff.mp hfold
    refine ⟨fun h => h.elim, fun h => ?_⟩
    rcases h _ _ _ hsplit hsummary.hasKeys hsummary.nodup with hhas | ⟨test, htest, hmem⟩
    · exact hkeys hhas
    · exact hnew test htest (hsummary.mem_iff.mpr hmem)

/-- What is cached is returned as it is. -/
theorem summarizeMeets_of_cached (hfilled : FilledFrom report.results report.summary)
    (h : report.summary ≠ ∅) : SummarizeMeets report.results (summarize report).2 ↔
      report.summary.keys.card = report.results.length ∧
        ∀ result ∈ report.results, HasKeys result := by
  have hrun : (summarize report).2 = .ok report.summary := by rw [summarize, if_pos h]
  rw [hrun]
  constructor
  · intro hmeets
    exact ⟨IsSummary.card_keys hmeets, IsSummary.hasKeys hmeets⟩
  · rintro ⟨hcard, hkeys⟩
    rcases hfilled with ⟨seen, hseen, hsummary⟩ | ⟨result, hmem, hmissing⟩
    · rw [hsummary.card_keys] at hcard
      show IsSummary report.results report.summary
      rw [← hseen.eq_of_length hcard]
      exact hsummary
    · exact absurd (hkeys result hmem) hmissing

end Calls

/-- The calls to `summarize` in a run. -/
theorem summarizes_iff (calls : List ReportCall) :
    (∀ before later, calls = before ++ .summarize :: later →
        SummarizeMeets (loadedResults before) (summarize (Report.calls {} before)).2) ↔
      ∀ before later, calls = before ++ .summarize :: later →
        CacheFits (Report.calls {} before) := by
  have hcall : ∀ before,
      SummarizeMeets (loadedResults before) (summarize (Report.calls {} before)).2 ↔
      CacheFits (Report.calls {} before) := by
    intro before
    have hresults : (Report.calls {} before).results = loadedResults before :=
        results_calls {} before
    rw [← hresults, CacheFits]
    split_ifs with hempty
    · exact summarizeMeets_of_empty hempty
    · exact summarizeMeets_of_cached (filledFrom_new before) hempty
  simp only [hcall]

/-- A report that is summarized twice: the second summary is that of the first call. -/
theorem summarizes_iff_twice :
    ∀ before later,
      [ReportCall.load { results := [⟨some "/a", some "OK", some []⟩] }, .summarize, .summarize] =
          before ++ .summarize :: later →
        SummarizeMeets (loadedResults before) (summarize (Report.calls {} before)).2 := by
  refine (summarizes_iff _).mpr fun before later hcalls => ?_
  match before with
  | [] => cases hcalls
  | [_] =>
    cases hcalls
    intro seen result later hsplit _ _
    have hmem : result ∈ seen ++ result :: later := List.mem_append_right _ List.mem_cons_self
    rw [← hsplit] at hmem
    obtain rfl := List.mem_singleton.mp hmem
    exact .inl rfl
  | [_, _] =>
    cases hcalls
    refine ⟨by decide, fun result hmem => ?_⟩
    obtain rfl := List.mem_singleton.mp hmem
    rfl
  | _ :: _ :: _ :: before =>
    have hlength := congrArg List.length hcalls
    simp at hlength

/-- After the error the half-filled summary is returned. -/
theorem summarizes_after_error :
    ¬ ∀ before later,
      [ReportCall.load
            { results := [⟨some "/a", some "OK", some []⟩, ⟨some "/a ", some "OK", some []⟩] },
          .summarize, .summarize] = before ++ .summarize :: later →
        SummarizeMeets (loadedResults before) (summarize (Report.calls {} before)).2 := by
  intro h
  have hsecond := h
    [.load { results := [⟨some "/a", some "OK", some []⟩, ⟨some "/a ", some "OK", some []⟩] },
      .summarize] [] rfl
  have hrun : ∃ summary, (summarize (Report.calls {}
      [.load { results := [⟨some "/a", some "OK", some []⟩, ⟨some "/a ", some "OK", some []⟩] },
        .summarize])).2 = .ok summary := ⟨_, rfl⟩
  obtain ⟨summary, hsummary⟩ := hrun
  rw [hsummary] at hsecond
  exact absurd (IsSummary.nodup hsecond) (by decide)

end WptFyi.Processor
