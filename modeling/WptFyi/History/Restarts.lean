import WptFyi.History.Invocations

/-!
# What interruptions do to the history

A replayed run set writes its rows again, under the same keys; so nothing is lost or
added as long as it is replayed against the statuses it met the first time. These are
the statuses of the stored date, and a restart may find others: a fresh process when a
checkpoint was cut off between its date and its flushes, a warm process when the cached
dicts have gone on since the last checkpoint.

The invariant compares the interrupted job with the uninterrupted one without running the latter.
The run sets of the whole job, which the feed determines, are split in three: those `before` the
stored date, those `behind` the point where `main` is, which were processed since the last
checkpoint, and the `rest`. Its heart is what the stored rows are: all rows of the first two parts
are there, and whatever else is there belongs to the rest (`Redo.Reached`). So it does not matter
how far an interrupted run set had got. Beside that it says that `main` has the statuses that belong
to the point where it is, in the cache or in the bucket (`PhaseInv`), as only then the next run set
writes the rows that the uninterrupted job would write. A step of a thread moves rows of the rest
into the store; the end of a run set moves it from the rest to `behind`; a commit moves what is
behind before the stored date; and a restart moves what is behind back to the rest, which is why it
needs the statuses of the stored date and those only.

- `Remaining`: the run sets from a date on; `StatusesAt`: the statuses of a date;
- `RestartInv`: the rows have reached the point where `main` is, which is not before
  the stored date;
- `Inv.step`: every step keeps it, a restart under its condition;
- `storedRows_eq_uninterrupted`: where every restart finds the statuses of the stored
  date, the rows are those of an uninterrupted execution;
- `restartsAtDate_of_freshOutsideCommits`: so it is when the job is only cut off outside
  of commits, and goes on in a fresh process.
-/

namespace WptFyi.History

open Lib Lib.DeltaLog Lib.Redo

/-! ## Run sets and statuses by date

What remains to be done is given by the date that is stored: the sets of runs from it on, in their
order. The statuses that belong to a date are those after the sets before it. -/

/-- The run sets from a date on, until the job is up-to-date. -/
inductive Remaining (feed : Feed) : String → List AlignedRunSet → Prop where
  | upToDate {date nextDate : String} : feed.answer date = (.upToDate, nextDate) →
      Remaining feed date []
  | noRuns {date nextDate : String} {rest : List AlignedRunSet} :
      feed.answer date = (.noRuns, nextDate) → Remaining feed nextDate rest →
      Remaining feed date rest
  | runs {date nextDate : String} {runSet : AlignedRunSet} {rest : List AlignedRunSet} :
      feed.answer date = (.runs runSet, nextDate) → Remaining feed nextDate rest →
      Remaining feed date (runSet :: rest)

section Remaining

variable {feed : Feed} {date nextDate : String} {rest rest' : List AlignedRunSet}

theorem Remaining.of_upToDate (h : Remaining feed date rest)
    (hanswer : feed.answer date = (.upToDate, nextDate)) : rest = [] := by
  cases h with
  | upToDate => rfl
  | noRuns hother => exact nomatch hanswer.symm.trans hother
  | runs hother => exact nomatch hanswer.symm.trans hother

theorem Remaining.of_noRuns (h : Remaining feed date rest)
    (hanswer : feed.answer date = (.noRuns, nextDate)) : Remaining feed nextDate rest := by
  cases h with
  | upToDate hother => exact nomatch hanswer.symm.trans hother
  | noRuns hother hrest =>
    cases hanswer.symm.trans hother
    exact hrest
  | runs hother => exact nomatch hanswer.symm.trans hother

theorem Remaining.of_runs {runSet : AlignedRunSet} (h : Remaining feed date rest)
    (hanswer : feed.answer date = (.runs runSet, nextDate)) :
    ∃ later, rest = runSet :: later ∧ Remaining feed nextDate later := by
  cases h with
  | upToDate hother => exact nomatch hanswer.symm.trans hother
  | noRuns hother => exact nomatch hanswer.symm.trans hother
  | runs hother hrest =>
    cases hanswer.symm.trans hother
    exact ⟨_, rfl, hrest⟩

theorem Remaining.unique (h : Remaining feed date rest) (h' : Remaining feed date rest') :
    rest = rest' := by
  induction h generalizing rest' with
  | upToDate hanswer => exact (h'.of_upToDate hanswer).symm
  | noRuns hanswer _ ih => exact ih (h'.of_noRuns hanswer)
  | runs hanswer _ ih =>
    obtain ⟨later, rfl, hlater⟩ := h'.of_runs hanswer
    rw [ih hlater]

/-- The date that goes with being up-to-date has no run sets left either. -/
theorem remaining_upToDate (hanswer : feed.answer date = (.upToDate, nextDate)) :
    Remaining feed nextDate [] := by
  have hnext := feed.upToDate date (by rw [hanswer])
  rw [hanswer] at hnext
  exact .upToDate (Prod.ext hnext rfl)

end Remaining

section Statuses

variable (sha256 : String → String)

/-- The statuses of each browser after a run set. -/
def AlignedRunSet.statusesAfter (runSet : AlignedRunSet) (statuses : String → Statuses) :
    String → Statuses := fun browserName =>
  match runSet.calls.find? fun call => call.run.browserName = browserName with
  | none => statuses browserName
  | some call => callStatuses sha256 call (statuses browserName)

/-- The rows that the runs of a set write. -/
def AlignedRunSet.rows (runSet : AlignedRunSet) (statuses : String → Statuses) :
    List (GoMap String String) :=
  runSet.calls.map fun call => callRows sha256 call (statuses call.run.browserName)

/-- The same for run sets one after the other. -/
def statusesAfter (statuses : String → Statuses) (runSets : List AlignedRunSet) :
    String → Statuses :=
  runSets.foldl (fun statuses runSet => runSet.statusesAfter sha256 statuses) statuses

def rowsFrom (statuses : String → Statuses) : List AlignedRunSet → List (GoMap String String)
  | [] => []
  | runSet :: rest =>
    runSet.rows sha256 statuses ++ rowsFrom (runSet.statusesAfter sha256 statuses) rest

theorem statusesAfter_append (statuses : String → Statuses) (runSets rest : List AlignedRunSet) :
    statusesAfter sha256 statuses (runSets ++ rest) =
      statusesAfter sha256 (statusesAfter sha256 statuses runSets) rest := List.foldl_append

theorem rowsFrom_append (statuses : String → Statuses) (runSets rest : List AlignedRunSet) :
    rowsFrom sha256 statuses (runSets ++ rest) =
      rowsFrom sha256 statuses runSets ++
        rowsFrom sha256 (statusesAfter sha256 statuses runSets) rest := by
  induction runSets generalizing statuses with
  | nil => rfl
  | cons runSet runSets ih =>
    show runSet.rows sha256 statuses ++ rowsFrom sha256 _ (runSets ++ rest) = _
    rw [ih, ← List.append_assoc]
    rfl

/-- Each browser has one run in a set. -/
theorem AlignedRunSet.statusesAfter_of_mem (runSet : AlignedRunSet)
    (statuses : String → Statuses) {call : RunCall} (hcall : call ∈ runSet.calls) :
    runSet.statusesAfter sha256 statuses call.run.browserName =
      callStatuses sha256 call (statuses call.run.browserName) := by
  have hnodup : (runSet.calls.map fun call => call.run.browserName).Nodup :=
    runSet.aligned.nodup_iff.mpr (by decide)
  rw [AlignedRunSet.statusesAfter]
  cases hfind : runSet.calls.find? fun call' => call'.run.browserName = call.run.browserName with
  | none =>
    have := List.find?_eq_none.mp hfind call hcall
    simp at this
  | some found =>
    have hname : found.run.browserName = call.run.browserName := by
      simpa using List.find?_some hfind
    rw [List.inj_on_of_nodup_map hnodup (List.mem_of_find?_eq_some hfind) hcall hname]

variable (feed : Feed) (start : JobState)

/-- The statuses that the entries stand for at the start. -/
def startStatuses : String → Statuses := fun browserName =>
  replayEntries (entriesOf browserName start.entries)

/-- **The statuses that belong to a date**: those after the run sets before it. -/
inductive StatusesAt : String → (String → Statuses) → Prop where
  | start : StatusesAt start.date (startStatuses start)
  | upToDate {date nextDate : String} {statuses : String → Statuses} : StatusesAt date statuses →
      feed.answer date = (.upToDate, nextDate) → StatusesAt nextDate statuses
  | noRuns {date nextDate : String} {statuses : String → Statuses} : StatusesAt date statuses →
      feed.answer date = (.noRuns, nextDate) → StatusesAt nextDate statuses
  | runs {date nextDate : String} {statuses : String → Statuses} {runSet : AlignedRunSet} :
      StatusesAt date statuses → feed.answer date = (.runs runSet, nextDate) →
      StatusesAt nextDate (runSet.statusesAfter sha256 statuses)

end Statuses

/-- Dates split the run sets of the whole job. -/
theorem StatusesAt.split {sha256 : String → String} {feed : Feed} {start : JobState}
    {date : String} {statuses : String → Statuses} {total : List AlignedRunSet}
    (h : StatusesAt sha256 feed start date statuses) (htotal : Remaining feed start.date total) :
    ∃ before rest, total = before ++ rest ∧ Remaining feed date rest ∧
      statuses = statusesAfter sha256 (startStatuses start) before := by
  induction h with
  | start => exact ⟨[], total, rfl, htotal, rfl⟩
  | upToDate _ hanswer ih =>
    obtain ⟨before, rest, rfl, hrest, rfl⟩ := ih
    obtain rfl := hrest.of_upToDate hanswer
    exact ⟨before, [], rfl, remaining_upToDate hanswer, rfl⟩
  | noRuns _ hanswer ih =>
    obtain ⟨before, rest, rfl, hrest, rfl⟩ := ih
    exact ⟨before, rest, rfl, hrest.of_noRuns hanswer, rfl⟩
  | @runs _ _ _ runSet _ hanswer ih =>
    obtain ⟨before, rest, rfl, hrest, rfl⟩ := ih
    obtain ⟨later, rfl, hlater⟩ := hrest.of_runs hanswer
    refine ⟨before ++ [runSet], later, (List.append_cons ..), hlater, ?_⟩
    rw [statusesAfter_append]
    rfl

/-- In a job that comes to an end the statuses of a date are unique. -/
theorem StatusesAt.unique {sha256 : String → String} {feed : Feed} {start : JobState}
    {date : String} {statuses statuses' : String → Statuses} {total : List AlignedRunSet}
    (h : StatusesAt sha256 feed start date statuses)
    (h' : StatusesAt sha256 feed start date statuses')
    (htotal : Remaining feed start.date total) : statuses = statuses' := by
  obtain ⟨before, rest, hsplit, hrest, rfl⟩ := h.split htotal
  obtain ⟨before', rest', hsplit', hrest', rfl⟩ := h'.split htotal
  obtain rfl := hrest.unique hrest'
  rw [hsplit] at hsplit'
  rw [List.append_cancel_right hsplit']

/-- A date with the statuses that belong to it and the run sets from it on. -/
structure DateAt (sha256 : String → String) (feed : Feed) (start : JobState) (date : String)
    (statuses : String → Statuses) (rest : List AlignedRunSet) : Prop where
  statuses : StatusesAt sha256 feed start date statuses
  remaining : Remaining feed date rest

section DateAt

variable {sha256 : String → String} {feed : Feed} {start : JobState} {date nextDate : String}
  {statuses : String → Statuses} {rest : List AlignedRunSet}

theorem DateAt.upToDate (h : DateAt sha256 feed start date statuses rest)
    (hanswer : feed.answer date = (.upToDate, nextDate)) :
    rest = [] ∧ DateAt sha256 feed start nextDate statuses [] :=
  ⟨h.remaining.of_upToDate hanswer, h.statuses.upToDate hanswer, remaining_upToDate hanswer⟩

theorem DateAt.noRuns (h : DateAt sha256 feed start date statuses rest)
    (hanswer : feed.answer date = (.noRuns, nextDate)) :
    DateAt sha256 feed start nextDate statuses rest :=
  ⟨h.statuses.noRuns hanswer, h.remaining.of_noRuns hanswer⟩

theorem DateAt.runs {runSet : AlignedRunSet} (h : DateAt sha256 feed start date statuses rest)
    (hanswer : feed.answer date = (.runs runSet, nextDate)) :
    ∃ later, rest = runSet :: later ∧
      DateAt sha256 feed start nextDate (runSet.statusesAfter sha256 statuses) later := by
  obtain ⟨later, hrest, hlater⟩ := h.remaining.of_runs hanswer
  exact ⟨later, hrest, h.statuses.runs hanswer, hlater⟩

end DateAt

/-! ## The two kinds of executions -/

/-- Nothing cuts the job off. -/
def Uninterrupted : Action → Prop
  | .interrupt => False
  | .restart _ => False
  | _ => True

/-- **A restart finds the statuses of the stored date**: the cached dict of each browser,
or the stored JSON where nothing is cached. -/
def RestartsAtDate (sha256 : String → String) (feed : Feed) (start : JobState) (e : Execution) :
    Action → Prop
  | .restart warm => ∃ statuses, StatusesAt sha256 feed start e.job.date statuses ∧
      ∀ browserName ∈ processedBrowsers,
        Loads (if warm then e.job else e.job.fresh) browserName (statuses browserName)
  | _ => True

/-! ## The invariant -/

/-- Replacing an item by one that a function does not tell from it. -/
theorem map_set_of_eq {α β : Type} {f : α → β} {l : List α} {i : Nat} {a b : α}
    (hi : l[i]? = some a) (hab : f b = f a) : (l.set i b).map f = l.map f := by
  rw [List.map_set, hab]
  refine List.ext_getElem? fun j => ?_
  rw [List.getElem?_set]
  split
  · next hij =>
    subst hij
    obtain ⟨hlt, -⟩ := List.getElem?_eq_some_iff.mp hi
    rw [List.length_map, if_pos hlt, List.getElem?_map, hi]
    rfl
  · rfl

/-- All browsers have these statuses, cached or stored. -/
def LoadsAll (job : JobState) (statuses : String → Statuses) : Prop :=
  ∀ browserName ∈ processedBrowsers, Loads job browserName (statuses browserName)

/-- What holds in a phase, given the statuses of the point reached, the run sets `behind`
it that the stored date does not count, and those that are left. -/
def PhaseInv (sha256 : String → String) (feed : Feed) (start : JobState)
    (statuses : String → Statuses) (behind rest : List AlignedRunSet) (job : JobState) :
    Phase → Prop
  | .stopped => True
  | .loop loop => DateAt sha256 feed start loop.currentDate statuses rest ∧ LoadsAll job statuses
  | .checkTime loop =>
    DateAt sha256 feed start loop.currentDate statuses rest ∧ LoadsAll job statuses
  | .processing _ nextDate threads => ∃ (runSet : AlignedRunSet) (later : List AlignedRunSet)
      (orders : String → RangeOrder TestKey), rest = runSet :: later ∧
      DateAt sha256 feed start nextDate (runSet.statusesAfter sha256 statuses) later ∧
      (runSet.calls.map fun call => call.run.id).Nodup ∧
      threads.map Thread.call = runSet.calls.map (fun call =>
        call.withOrder (orders call.run.browserName)) ∧
      ∀ thread ∈ threads, ThreadInv sha256 (statuses thread.call.run.browserName) job thread
  | .committing loop _ after => behind = [] ∧ job.date = loop.currentDate ∧
      DateAt sha256 feed start loop.currentDate statuses rest ∧ LoadsAll job statuses ∧
      (after = .finish → rest = [])
  | .finished => rest = []

/-- **The invariant**, for a split of the run sets of the whole job: `before` the stored
date, `behind` the point reached, and the rest. -/
structure RestartInv (sha256 : String → String) (feed : Feed) (start : JobState)
    (total : List AlignedRunSet) (e : Execution) (before behind rest : List AlignedRunSet) :
    Prop where
  total : total = before ++ behind ++ rest
  date : Remaining feed e.job.date (behind ++ rest)
  rows : Reached (storedRows start.entries)
    (rowsFrom sha256 (startStatuses start) (before ++ behind))
    (rowsFrom sha256 (statusesAfter sha256 (startStatuses start) (before ++ behind)) rest)
    (storedRows e.job.entries)
  phase : PhaseInv sha256 feed start
    (statusesAfter sha256 (startStatuses start) (before ++ behind)) behind rest e.job e.phase

section Steps

variable {sha256 : String → String} {feed : Feed} {start : JobState} {total : List AlignedRunSet}
  {e e' : Execution} {before behind rest : List AlignedRunSet}

/-- The invariant with its split. -/
def Inv (sha256 : String → String) (feed : Feed) (start : JobState) (total : List AlignedRunSet)
    (e : Execution) : Prop :=
  ∃ before behind rest, RestartInv sha256 feed start total e before behind rest

theorem inv_invoke (hstart : ∀ browserName ∈ processedBrowsers, Agrees start browserName)
    (htotal : Remaining feed start.date total) :
    Inv sha256 feed start total (invoke start.fresh) :=
  ⟨[], [], total, rfl, htotal, reached_nil _ _, ⟨.start, htotal⟩,
    fun browserName hb => loads_fresh_iff.mpr (hstart browserName hb)⟩

/-- Another phase at the same point. -/
theorem RestartInv.withPhase (h : RestartInv sha256 feed start total e before behind rest)
    {phase : Phase}
    (hphase : PhaseInv sha256 feed start
      (statusesAfter sha256 (startStatuses start) (before ++ behind)) behind rest e.job phase) :
    Inv sha256 feed start total { e with phase } :=
  ⟨before, behind, rest, h.total, h.date, h.rows, hphase⟩

/-- A checkpoint begins: the stored date moves up to the point reached. -/
theorem RestartInv.beginCommit (h : RestartInv sha256 feed start total e before behind rest)
    {loop : LoopState} {after : AfterCommit}
    (hdate : DateAt sha256 feed start loop.currentDate
      (statusesAfter sha256 (startStatuses start) (before ++ behind)) rest)
    (hloads : LoadsAll e.job (statusesAfter sha256 (startStatuses start) (before ++ behind)))
    (hafter : after = .finish → rest = []) :
    Inv sha256 feed start total (History.beginCommit loop after e.job) := by
  have hnil : before ++ behind ++ [] = before ++ behind := List.append_nil _
  refine ⟨before ++ behind, [], rest, ?_, hdate.remaining, ?_, ?_⟩
  · rw [hnil]
    exact h.total
  · rw [hnil]
    exact h.rows
  · rw [hnil]
    exact ⟨rfl, rfl, hdate, hloads, hafter⟩

/-- **Step**: `main` asks for the next set of runs; it has threads for them, or begins the last
commit, or goes on to the next date. -/
theorem Inv.ask {orders : String → RangeOrder TestKey} (h : Inv sha256 feed start total e)
    (hstep : History.ask feed e orders = some e') : Inv sha256 feed start total e' := by
  obtain ⟨before, behind, rest, h⟩ := h
  obtain ⟨job, phase⟩ := e
  cases phase with
  | loop loop =>
    obtain ⟨hdate, hloads⟩ := h.phase
    unfold History.ask at hstep
    dsimp only at hstep
    split at hstep
    · next nextDate hanswer =>
      cases hstep
      obtain ⟨rfl, hnext⟩ := hdate.upToDate hanswer
      exact h.beginCommit hnext hloads fun _ => rfl
    · next nextDate hanswer =>
      cases hstep
      exact h.withPhase ⟨hdate.noRuns hanswer, hloads⟩
    · next runSet nextDate hanswer =>
      cases hstep
      obtain ⟨later, rfl, hlater⟩ := hdate.runs hanswer
      -- the browsers of a set are distinct, so its threads do not get in each other's way
      have hdistinct := feed.distinct loop.currentDate runSet (by rw [hanswer])
      refine h.withPhase ⟨runSet, later, orders, rfl, hlater, hdistinct, ?_, ?_⟩
      · rw [List.map_map]
        rfl
      · intro thread hthread
        obtain ⟨call, hcall, rfl⟩ := List.mem_map.mp hthread
        exact hloads call.run.browserName (runSet.browser_mem hcall)
  | _ => exact nomatch hstep

theorem Inv.requestTimedOut (h : Inv sha256 feed start total e)
    (hstep : History.requestTimedOut e = some e') : Inv sha256 feed start total e' := by
  obtain ⟨before, behind, rest, h⟩ := h
  obtain ⟨job, phase⟩ := e
  cases phase with
  | loop loop =>
    cases hstep
    exact h.withPhase h.phase
  | _ => exact nomatch hstep

/-- **Step**: it goes on, or commits as its time is over. -/
theorem Inv.checkTime {timedOut : Bool} (h : Inv sha256 feed start total e)
    (hstep : History.checkTime e timedOut = some e') : Inv sha256 feed start total e' := by
  obtain ⟨before, behind, rest, h⟩ := h
  obtain ⟨job, phase⟩ := e
  cases phase with
  | checkTime loop =>
    obtain ⟨hdate, hloads⟩ := h.phase
    cases timedOut with
    | true =>
      cases hstep
      exact h.beginCommit hdate hloads nofun
    | false =>
      cases hstep
      exact h.withPhase ⟨hdate, hloads⟩
  | _ => exact nomatch hstep

/-- A flush stores what is cached, so it takes no statuses away. -/
theorem LoadsAll.flush {job : JobState} {statuses : String → Statuses}
    (h : LoadsAll job statuses) (flushed : String) :
    LoadsAll (flushPreviousStatuses job flushed) statuses := by
  intro browserName hbrowser
  rw [loads_iff, flushPreviousStatuses_cache]
  rcases loads_iff.mp (h browserName hbrowser) with hcached | ⟨hnone, hstored⟩
  · exact Or.inl hcached
  · refine Or.inr ⟨hnone, ?_⟩
    by_cases hown : browserName = flushed
    · subst hown
      rw [flushPreviousStatuses, hnone]
      exact hstored
    · rw [flushPreviousStatuses_bucket_of_ne job hown]
      exact hstored

theorem flushPreviousStatuses_date (job : JobState) (browserName : String) :
    (flushPreviousStatuses job browserName).date = job.date := by
  unfold flushPreviousStatuses
  split <;> rfl

/-- **Step**: the statuses of one more browser are flushed, or the commit is done. -/
theorem Inv.flush (h : Inv sha256 feed start total e) (hstep : History.flush e = some e') :
    Inv sha256 feed start total e' := by
  obtain ⟨before, behind, rest, h⟩ := h
  obtain ⟨job, phase⟩ := e
  cases phase with
  | committing loop left after =>
    obtain ⟨hbehind, hstored, hdate, hloads, hafter⟩ := h.phase
    cases left with
    | cons browserName left =>
      cases hstep
      refine ⟨before, behind, rest, h.total, ?_, ?_, hbehind,
        (flushPreviousStatuses_date job browserName).trans hstored, hdate,
        hloads.flush browserName, hafter⟩
      · show Remaining feed (flushPreviousStatuses job browserName).date _
        rw [flushPreviousStatuses_date]
        exact h.date
      · show Reached _ _ _ (storedRows (flushPreviousStatuses job browserName).entries)
        rw [flushPreviousStatuses_entries]
        exact h.rows
    | nil =>
      -- the commit is done, and what follows is remembered in it
      cases after with
      | checkTime =>
        cases hstep
        exact h.withPhase ⟨hdate, hloads⟩
      | timedOut =>
        cases hstep
        exact h.withPhase trivial
      | finish =>
        cases hstep
        exact h.withPhase (hafter rfl)
  | _ => exact nomatch hstep

/-- **A restart goes back to the stored date**, whose statuses it must find. -/
theorem Inv.restart {warm : Bool} (h : Inv sha256 feed start total e)
    (htotal : Remaining feed start.date total)
    (hcond : RestartsAtDate sha256 feed start e (.restart warm))
    (hstep : History.restart e warm = some e') : Inv sha256 feed start total e' := by
  obtain ⟨before, behind, rest, h⟩ := h
  obtain ⟨job, phase⟩ := e
  cases phase with
  | stopped =>
    cases hstep
    obtain ⟨statuses, hat, hloads⟩ := hcond
    obtain ⟨before', rest', htotal', hrest', rfl⟩ := hat.split htotal
    obtain rfl := hrest'.unique h.date
    -- the date determines what was before it
    have hbefore : before' = before := by
      have hsplit := h.total
      rw [htotal', List.append_assoc] at hsplit
      exact List.append_cancel_right hsplit
    subst hbefore
    have hnil : before' ++ [] = before' := List.append_nil _
    have hrows := h.rows
    rw [rowsFrom_append, statusesAfter_append] at hrows
    refine ⟨before', [], behind ++ rest, ?_, ?_, ?_, ?_⟩
    · rw [hnil]
      exact htotal'
    · cases warm <;> exact h.date
    · rw [hnil, rowsFrom_append]
      cases warm <;> exact hrows.back
    · rw [hnil]
      cases warm <;> exact ⟨⟨hat, h.date⟩, hloads⟩
  | _ => exact nomatch hstep

/-- **Step**: a thread raises, which leaves the rest of its effects undone. -/
theorem Inv.raiseThread {i : Nat} {msg : String} (h : Inv sha256 feed start total e)
    (hstep : History.raiseThread e i msg = some e') : Inv sha256 feed start total e' := by
  obtain ⟨before, behind, rest, h⟩ := h
  obtain ⟨job, phase⟩ := e
  cases phase with
  | processing loop nextDate threads =>
    obtain ⟨runSet, later, orders, rfl, hlater, hdistinct, hcalls, hthreads⟩ := h.phase
    obtain ⟨thread, hthread, hstep⟩ := Option.bind_eq_some_iff.mp hstep
    split at hstep
    · exact nomatch hstep
    · cases hstep
      refine h.withPhase ⟨runSet, later, orders, rfl, hlater, hdistinct, ?_, ?_⟩
      · rw [← hcalls]
        exact map_set_of_eq hthread rfl
      · intro thread' hthread'
        rcases List.mem_or_eq_of_mem_set hthread' with hmem | rfl
        · exact hthreads thread' hmem
        · exact pending_raised sha256 _ _ _ _
  | _ => exact nomatch hstep

/-- The threads of a run set have the browsers and IDs of its runs. -/
theorem map_threads {runSet : AlignedRunSet} {threads : List Thread}
    {orders : String → RangeOrder TestKey}
    (hcalls : threads.map Thread.call = runSet.calls.map fun call =>
      call.withOrder (orders call.run.browserName)) {β : Type} (f : RunMetadata → β) :
    threads.map (fun thread => f thread.call.run) = runSet.calls.map fun call => f call.run := by
  have hmap := congrArg (List.map fun call : RunCall => f call.run) hcalls
  rw [List.map_map, List.map_map] at hmap
  exact hmap

/-- A thread has a run of the set, and its rows. -/
theorem exists_call_of_thread {runSet : AlignedRunSet} {threads : List Thread}
    {orders : String → RangeOrder TestKey}
    (hcalls : threads.map Thread.call = runSet.calls.map fun call =>
      call.withOrder (orders call.run.browserName)) {thread : Thread} (hthread : thread ∈ threads) :
    ∃ call ∈ runSet.calls, thread.call = call.withOrder (orders call.run.browserName) := by
  have hmem : thread.call ∈ threads.map Thread.call := List.mem_map.mpr ⟨thread, hthread, rfl⟩
  rw [hcalls] at hmem
  obtain ⟨call, hcall, heq⟩ := List.mem_map.mp hmem
  exact ⟨call, hcall, heq.symm⟩

/-- Items at different places of a list without repetitions differ. -/
theorem ne_of_getElem? {α β : Type} {f : α → β} {l : List α} (hnodup : (l.map f).Nodup) {i j : Nat}
    {a b : α} (hi : l[i]? = some a) (hj : l[j]? = some b) (hne : i ≠ j) : f a ≠ f b := by
  intro heq
  have hlt : i < (l.map f).length := by
    rw [List.length_map]
    exact (List.getElem?_eq_some_iff.mp hi).1
  refine hne ((List.getElem?_inj hlt hnodup).mp ?_)
  rw [List.getElem?_map, List.getElem?_map, hi, hj, Option.map_some, Option.map_some, heq]

/-- **A step of one thread**: its own invariant is kept, the others are framed, and only
rows of unfinished work change. -/
theorem Inv.stepThread (hsha256 : ∀ s, (sha256 s).length = 64) {i : Nat}
    (h : Inv sha256 feed start total e) (hstep : History.stepThread sha256 e i = some e') :
    Inv sha256 feed start total e' := by
  obtain ⟨before, behind, rest, h⟩ := h
  obtain ⟨job, phase⟩ := e
  cases phase with
  | processing loop nextDate threads =>
    obtain ⟨runSet, later, orders, rfl, hlater, hdistinct, hcalls, hthreads⟩ := h.phase
    obtain ⟨thread, hi, hstep⟩ := Option.bind_eq_some_iff.mp hstep
    obtain ⟨⟨job', thread'⟩, hthreadStep, hstep⟩ := Option.bind_eq_some_iff.mp hstep
    cases hstep
    have hthread : thread ∈ threads := List.mem_of_getElem? hi
    obtain ⟨hcall', hinv, hown⟩ := threadStep_spec (hthreads thread hthread) hthreadStep
    obtain ⟨call, hcall, hthreadCall⟩ := exists_call_of_thread hcalls hthread
    have hbrowsers : (threads.map fun thread => thread.call.run.browserName).Nodup := by
      rw [map_threads hcalls fun run => run.browserName]
      exact runSet.aligned.nodup_iff.mpr (by decide)
    have hids : (threads.map fun thread => thread.call.run.id).Nodup := by
      rw [map_threads hcalls fun run => run.id]
      exact hdistinct
    refine ⟨before, behind, runSet :: later, h.total, ?_, h.rows.write fun k hk => ?_,
      runSet, later, orders, rfl, hlater, hdistinct, ?_, ?_⟩
    · show Remaining feed job'.date _
      rw [hown.date]
      exact h.date
    · -- a row that no unfinished run writes is none of this thread's
      refine hown.entries k ?_
      rw [hthreadCall, callRows_withOrder]
      exact hk _ (List.mem_append_left _ (List.mem_map.mpr ⟨call, hcall, rfl⟩))
    · rw [← hcalls]
      exact map_set_of_eq hi hcall'
    · intro other hother
      obtain ⟨j, hj⟩ := List.mem_iff_getElem?.mp hother
      rw [List.getElem?_set] at hj
      split at hj
      · split at hj
        · cases hj
          rw [hcall']
          exact hinv
        · exact nomatch hj
      · next hij =>
        refine (hthreads other (List.mem_of_getElem? hj)).frame hown
          (ne_of_getElem? hbrowsers hj hi (Ne.symm hij)) ?_
        exact callRows_disjoint hsha256 (ne_of_getElem? hids hj hi (Ne.symm hij)) _ _
  | _ => exact nomatch hstep

/-- **After the threads of a run set** the next point is reached. -/
theorem RestartInv.processed {loop : LoopState} {nextDate : String} {threads : List Thread}
    {job : JobState}
    (h : RestartInv sha256 feed start total ⟨job, .processing loop nextDate threads⟩
      before behind rest)
    (hended : ∀ thread ∈ threads, thread.ended = some none) (loop' : LoopState)
    (hdate : loop'.currentDate = nextDate) :
    ∃ behind' rest', RestartInv sha256 feed start total ⟨job, .checkTime loop'⟩
      before behind' rest' := by
  obtain ⟨runSet, later, orders, rfl, hlater, hdistinct, hcalls, hthreads⟩ := h.phase
  obtain ⟨statuses, hstatuses⟩ : ∃ statuses,
    statuses = statusesAfter sha256 (startStatuses start) (before ++ behind) := ⟨_, rfl⟩
  rw [← hstatuses] at hthreads
  -- every call of the run set has ended in some thread, with its orders filled in
  have hdone : ∀ call ∈ runSet.calls,
      Loads job call.run.browserName (callStatuses sha256 call (statuses call.run.browserName)) ∧
        ∀ k ∈ callRows sha256 call (statuses call.run.browserName),
          (storedRows job.entries).lookup k =
            (callRows sha256 call (statuses call.run.browserName)).lookup k := by
    intro call hcall
    have hmem : call.withOrder (orders call.run.browserName) ∈ threads.map Thread.call := by
      rw [hcalls]
      exact List.mem_map.mpr ⟨call, hcall, rfl⟩
    obtain ⟨thread, hthread, heq⟩ := List.mem_map.mp hmem
    have hthreadDone := (hthreads thread hthread).done (hended thread hthread)
    rw [heq, callRows_withOrder, callStatuses_withOrder] at hthreadDone
    exact hthreadDone
  have hafter : statusesAfter sha256 (startStatuses start) (before ++ (behind ++ [runSet])) =
      runSet.statusesAfter sha256 statuses := by
    rw [← List.append_assoc, statusesAfter_append, ← hstatuses]
    rfl
  -- the run set moves from what is ahead to what is behind
  refine ⟨behind ++ [runSet], later, ?_, ?_, ?_, ?_, ?_⟩
  · rw [h.total]
    simp only [List.append_assoc, List.cons_append, List.nil_append]
  · rw [← List.append_cons]
    exact h.date
  · have hsplit : Reached (storedRows start.entries)
        (rowsFrom sha256 (startStatuses start) (before ++ behind))
        (runSet.rows sha256 statuses ++
          rowsFrom sha256 (runSet.statusesAfter sha256 statuses) later)
        (storedRows job.entries) := by
      rw [hstatuses]
      exact h.rows
    have hrows := hsplit.advance fun rows hrows k hk => by
      obtain ⟨call, hcall, rfl⟩ := List.mem_map.mp hrows
      exact (hdone call hcall).2 k hk
    rw [hafter, ← List.append_assoc, rowsFrom_append sha256 _ (before ++ behind) [runSet]]
    rw [← hstatuses]
    show Reached _ (_ ++ (runSet.rows sha256 statuses ++ [])) _ _
    rw [List.append_nil]
    exact hrows
  · rw [hdate, hafter, hstatuses]
    exact hlater
  · intro browserName hbrowser
    obtain ⟨call, hcall, rfl⟩ := List.mem_map.mp (runSet.aligned.symm.subset hbrowser)
    rw [hafter, runSet.statusesAfter_of_mem sha256 _ hcall]
    exact (hdone call hcall).1

/-- **Step**: all threads have ended; with an exception of one of them the invocation ends, else a
set of runs is done. -/
theorem Inv.join (h : Inv sha256 feed start total e) (hstep : History.join e = some e') :
    Inv sha256 feed start total e' := by
  obtain ⟨before, behind, rest, h⟩ := h
  obtain ⟨job, phase⟩ := e
  cases phase with
  | processing loop nextDate threads =>
    unfold History.join at hstep
    dsimp only at hstep
    split at hstep
    · exact nomatch hstep
    · split at hstep
      · cases hstep
        exact h.withPhase trivial
      · next hraised =>
        -- no thread is at work, and none has raised
        have hended : ∀ thread ∈ threads, thread.ended = some none := by
          intro thread hthread
          by_contra hne
          exact hraised (List.any_eq_true.mpr ⟨thread, hthread, by simpa using hne⟩)
        obtain ⟨behind', rest', h'⟩ := h.processed hended
          { currentDate := nextDate
            runSetsProcessed := loop.runSetsProcessed + 1
            revisionsSinceCheckpoint := loop.revisionsSinceCheckpoint + 1 } rfl
        obtain ⟨hdate, hloads⟩ := h'.phase
        split at hstep
        · cases hstep
          exact h'.beginCommit hdate hloads nofun
        · cases hstep
          exact h'.withPhase ⟨hdate, hloads⟩
  | _ => exact nomatch hstep

/-- **Every step keeps the invariant**, a restart under its condition. -/
theorem Inv.step (hsha256 : ∀ s, (sha256 s).length = 64) (htotal : Remaining feed start.date total)
    {a : Action} (h : Inv sha256 feed start total e)
    (hcond : RestartsAtDate sha256 feed start e a)
    (hstep : History.step sha256 feed e a = some e') : Inv sha256 feed start total e' := by
  cases a with
  | ask orders => exact h.ask hstep
  | requestTimedOut => exact h.requestTimedOut hstep
  | thread i => exact h.stepThread hsha256 hstep
  | raise i msg => exact h.raiseThread hstep
  | join => exact h.join hstep
  | time timedOut => exact h.checkTime hstep
  | flush => exact h.flush hstep
  | interrupt =>
    cases hstep
    obtain ⟨before, behind, rest, h⟩ := h
    exact h.withPhase trivial
  | restart warm => exact h.restart htotal hcond hstep

/-- Once everything is processed, the rows are those of all run sets. -/
theorem Inv.finished (h : Inv sha256 feed start total e) (hfinished : e.phase = .finished) :
    storedRows e.job.entries =
      workedOff (storedRows start.entries) (rowsFrom sha256 (startStatuses start) total) := by
  obtain ⟨before, behind, rest, h⟩ := h
  have hrest : rest = [] := by
    have hphase := h.phase
    rw [hfinished] at hphase
    exact hphase
  subst hrest
  have htotal := h.total
  rw [List.append_nil] at htotal
  rw [htotal]
  exact h.rows.eq

end Steps

/-! ## Interrupted and uninterrupted executions

An execution that is never restarted ends with the rows of all its sets. One that is restarted ends
with the same rows if every restart finds the statuses of the date that is stored. -/

/-- Where an uninterrupted execution is, the job comes to an end only if it does from
the start. -/
def EndsFromStart (feed : Feed) (start : JobState) (e : Execution) : Prop :=
  let ends (date : String) := (∃ rest, Remaining feed date rest) →
    ∃ total, Remaining feed start.date total
  match e.phase with
  | .stopped => True
  | .loop loop => ends loop.currentDate
  | .processing _ nextDate _ => ends nextDate
  | .checkTime loop => ends loop.currentDate
  | .committing loop _ after =>
    (after = .finish → ∃ total, Remaining feed start.date total) ∧ ends loop.currentDate
  | .finished => ∃ total, Remaining feed start.date total

/-- **Step**, where nothing cuts the job off. -/
theorem EndsFromStart.step {sha256 : String → String} {feed : Feed} {start : JobState}
    {e e' : Execution} {a : Action} (h : EndsFromStart feed start e) (ha : Uninterrupted a)
    (hstep : History.step sha256 feed e a = some e') : EndsFromStart feed start e' := by
  obtain ⟨job, phase⟩ := e
  cases a with
  | ask orders =>
    cases phase with
    | loop loop =>
      have hends : (∃ rest, Remaining feed loop.currentDate rest) →
        ∃ total, Remaining feed start.date total := h
      unfold History.step History.ask at hstep
      dsimp only at hstep
      split at hstep
      · next nextDate hanswer =>
        cases hstep
        -- up to date: the commit that follows is the last one
        exact ⟨fun _ => hends ⟨[], .upToDate hanswer⟩, fun _ => hends ⟨[], .upToDate hanswer⟩⟩
      · next nextDate hanswer =>
        cases hstep
        exact fun ⟨rest, hrest⟩ => hends ⟨rest, .noRuns hanswer hrest⟩
      · next runSet nextDate hanswer =>
        cases hstep
        -- the rest of the date after is one run set shorter
        exact fun ⟨rest, hrest⟩ => hends ⟨runSet :: rest, .runs hanswer hrest⟩
    | _ => exact nomatch hstep
  -- a request that times out asks the same date again
  | requestTimedOut =>
    cases phase with
    | loop loop =>
      cases hstep
      exact h
    | _ => exact nomatch hstep
  | thread i =>
    cases phase with
    | processing loop nextDate threads =>
      obtain ⟨thread, -, hstep⟩ := Option.bind_eq_some_iff.mp hstep
      obtain ⟨⟨job', thread'⟩, -, hstep⟩ := Option.bind_eq_some_iff.mp hstep
      cases hstep
      exact h
    | _ => exact nomatch hstep
  | raise i msg =>
    cases phase with
    | processing loop nextDate threads =>
      obtain ⟨thread, -, hstep⟩ := Option.bind_eq_some_iff.mp hstep
      split at hstep
      · exact nomatch hstep
      · cases hstep
        exact h
    | _ => exact nomatch hstep
  | join =>
    cases phase with
    | processing loop nextDate threads =>
      unfold History.step History.join at hstep
      dsimp only at hstep
      split at hstep
      · exact nomatch hstep
      · split at hstep
        · cases hstep
          trivial
        · split at hstep
          · cases hstep
            exact ⟨nofun, h⟩
          · cases hstep
            exact h
    | _ => exact nomatch hstep
  | time timedOut =>
    cases phase with
    | checkTime loop =>
      cases timedOut with
      | true =>
        cases hstep
        exact ⟨nofun, h⟩
      | false =>
        cases hstep
        exact h
    | _ => exact nomatch hstep
  | flush =>
    cases phase with
    | committing loop left after =>
      cases left with
      | cons browserName left =>
        cases hstep
        exact h
      | nil =>
        cases after with
        | checkTime =>
          cases hstep
          exact h.2
        | timedOut =>
          cases hstep
          trivial
        | finish =>
          cases hstep
          exact h.1 rfl
    | _ => exact nomatch hstep
  | interrupt => exact absurd ha id
  | restart warm => exact absurd ha id

/-- An uninterrupted execution meets the condition on restarts, having none. -/
theorem RestartsAtDate.of_uninterrupted {sha256 : String → String} {feed : Feed}
    {start : JobState} {e : Execution} {a : Action} (ha : Uninterrupted a) :
    RestartsAtDate sha256 feed start e a := by
  cases a with
  | restart warm => exact absurd ha id
  | _ => trivial

/-- **Crash consistency, restart by restart**: where each restart finds the statuses of
the stored date, a job that runs to completion has stored the rows of an uninterrupted
execution. -/
theorem storedRows_eq_uninterrupted {sha256 : String → String}
    (hsha256 : ∀ s, (sha256 s).length = 64) (feed : Feed) {start : JobState}
    (hstart : ∀ browserName ∈ processedBrowsers, Agrees start browserName) {e e' : Execution}
    (hrun : ReachableWith (step sha256 feed) (RestartsAtDate sha256 feed start)
      (invoke start.fresh) e)
    (hfinished : e.phase = .finished)
    (hrun' : ReachableWith (step sha256 feed) (fun _ a => Uninterrupted a) (invoke start.fresh) e')
    (hfinished' : e'.phase = .finished) :
    storedRows e.job.entries = storedRows e'.job.entries := by
  obtain ⟨total, htotal⟩ : ∃ total, Remaining feed start.date total := by
    -- the uninterrupted execution has finished, so the feed has an end
    have hends : EndsFromStart feed start e' :=
      hrun'.invariant id fun h ha hstep => h.step ha hstep
    rw [EndsFromStart, hfinished'] at hends
    exact hends
  have hinit : Inv sha256 feed start total (invoke start.fresh) := inv_invoke hstart htotal
  have hinv : Inv sha256 feed start total e :=
    hrun.invariant hinit fun h hcond hstep => h.step hsha256 htotal hcond hstep
  have hinv' : Inv sha256 feed start total e' :=
    hrun'.invariant hinit fun h ha hstep => h.step hsha256 htotal (.of_uninterrupted ha) hstep
  rw [hinv.finished hfinished, hinv'.finished hfinished']

/-! ## Crashes outside of commits

A job that is cut off outside of commits and starts again in a fresh process meets the condition:
what it loads then was stored together with the date. -/

/-- The job is cut off outside of `commit_checkpoint` only, and starts again in a fresh
process. -/
def FreshOutsideCommits (e : Execution) : Action → Prop
  | .interrupt => ∀ loop left after, e.phase ≠ .committing loop left after
  | .restart warm => warm = false
  | _ => True

/-- The browsers that a commit has still to flush. -/
def Phase.unflushed : Phase → List String
  | .committing _ left _ => left
  | _ => []

/-- The stored JSON has the statuses of the stored date, but for the browsers that a commit
has still to flush. -/
def StoredAtDate (sha256 : String → String) (feed : Feed) (start : JobState) (e : Execution) :
    Prop :=
  ∃ statuses, StatusesAt sha256 feed start e.job.date statuses ∧
    ∀ browserName ∈ processedBrowsers, browserName ∉ e.phase.unflushed →
      e.job.bucket.lookup browserName = some (statuses browserName)

section Stored

variable {sha256 : String → String} {feed : Feed} {start : JobState} {e e' : Execution}

/-- Steps that neither commit nor flush. -/
theorem StoredAtDate.of_eq (h : StoredAtDate sha256 feed start e) (hdate : e'.job.date = e.job.date)
    (hbucket : e'.job.bucket = e.job.bucket) (hleft : e.phase.unflushed = []) :
    StoredAtDate sha256 feed start e' := by
  obtain ⟨statuses, hat, hstored⟩ := h
  refine ⟨statuses, hdate ▸ hat, fun browserName hbrowser _ => ?_⟩
  rw [hbucket]
  exact hstored browserName hbrowser (hleft ▸ List.not_mem_nil)

/-- Right after the date update nothing is flushed yet. -/
theorem storedAtDate_beginCommit {loop : LoopState} {after : AfterCommit} {job : JobState}
    {statuses : String → Statuses}
    (hat : StatusesAt sha256 feed start loop.currentDate statuses) :
    StoredAtDate sha256 feed start (beginCommit loop after job) :=
  ⟨statuses, hat, fun _ hbrowser hleft => absurd hbrowser hleft⟩

/-- A flushed browser's JSON has the statuses that the process has. -/
theorem Loads.flush {job : JobState} {browserName : String} {statuses : Statuses}
    (h : Loads job browserName statuses) :
    (flushPreviousStatuses job browserName).bucket.lookup browserName = some statuses := by
  rcases loads_iff.mp h with hcached | ⟨hnone, hstored⟩
  · rw [flushPreviousStatuses, hcached]
    exact Finmap.lookup_insert _
  · rw [flushPreviousStatuses, hnone]
    exact hstored

/-- **Step**: one browser less has still to be flushed. -/
theorem StoredAtDate.flush {total : List AlignedRunSet} (h : StoredAtDate sha256 feed start e)
    (hinv : Inv sha256 feed start total e) (htotal : Remaining feed start.date total)
    (hstep : History.flush e = some e') : StoredAtDate sha256 feed start e' := by
  obtain ⟨before, behind, rest, hinv⟩ := hinv
  obtain ⟨job, phase⟩ := e
  cases phase with
  | committing loop left after =>
    obtain ⟨-, hdate, hat, hloads, -⟩ := hinv.phase
    cases left with
    | nil =>
      cases after with
      | _ =>
        cases hstep
        exact h.of_eq rfl rfl rfl
    | cons flushed left =>
      cases hstep
      obtain ⟨statuses, hstatuses, hstored⟩ := h
      -- the statuses of a date are unique, so the stored ones are those of the process
      have hunique : statuses =
          statusesAfter sha256 (startStatuses start) (before ++ behind) := by
        have hstatuses' : StatusesAt sha256 feed start loop.currentDate statuses :=
            hdate ▸ hstatuses
        exact hstatuses'.unique hat.statuses htotal
      refine ⟨statuses, ?_, fun browserName hbrowser hleft => ?_⟩
      · show StatusesAt _ _ _ (flushPreviousStatuses job flushed).date _
        rw [flushPreviousStatuses_date]
        exact hstatuses
      · by_cases hown : browserName = flushed
        · subst hown
          rw [hunique]
          exact (hloads browserName hbrowser).flush
        · show (flushPreviousStatuses job flushed).bucket.lookup browserName = _
          rw [flushPreviousStatuses_bucket_of_ne job hown]
          exact hstored browserName hbrowser fun hmem =>
            (List.mem_cons.mp hmem).elim hown hleft
  | _ => exact nomatch hstep

/-- **Step**: nothing is left to flush when the job is cut off, so the stored statuses are those of
the date. -/
theorem StoredAtDate.step {total : List AlignedRunSet} {a : Action}
    (h : StoredAtDate sha256 feed start e) (hinv : Inv sha256 feed start total e)
    (htotal : Remaining feed start.date total) (hcond : FreshOutsideCommits e a)
    (hstep : History.step sha256 feed e a = some e') : StoredAtDate sha256 feed start e' := by
  cases a with
  | flush => exact h.flush hinv htotal hstep
  | interrupt =>
    cases hstep
    refine h.of_eq rfl rfl ?_
    obtain ⟨job, phase⟩ := e
    cases phase with
    | committing loop left after => exact absurd rfl (hcond loop left after)
    | _ => rfl
  | restart warm =>
    obtain ⟨job, phase⟩ := e
    obtain rfl : warm = false := hcond
    cases phase with
    | stopped =>
      cases hstep
      exact h.of_eq rfl rfl rfl
    | _ => exact nomatch hstep
  | ask orders =>
    obtain ⟨before, behind, rest, hinv⟩ := hinv
    obtain ⟨job, phase⟩ := e
    cases phase with
    | loop loop =>
      obtain ⟨hat, -⟩ := hinv.phase
      unfold History.step History.ask at hstep
      dsimp only at hstep
      split at hstep
      · next nextDate hanswer =>
        cases hstep
        -- a commit begins: the date is new and every browser is still to be flushed
        exact storedAtDate_beginCommit (hat.upToDate hanswer).2.statuses
      · cases hstep
        exact h.of_eq rfl rfl rfl
      · cases hstep
        exact h.of_eq rfl rfl rfl
    | _ => exact nomatch hstep
  | requestTimedOut =>
    obtain ⟨job, phase⟩ := e
    cases phase with
    | loop loop =>
      cases hstep
      exact h.of_eq rfl rfl rfl
    | _ => exact nomatch hstep
  | thread i =>
    obtain ⟨before, behind, rest, hinv⟩ := hinv
    obtain ⟨job, phase⟩ := e
    cases phase with
    | processing loop nextDate threads =>
      -- a thread writes entries and its own dict; the bucket is flushed in commits only
      obtain ⟨_, _, _, _, _, _, _, hthreads⟩ := hinv.phase
      obtain ⟨thread, hi, hstep⟩ := Option.bind_eq_some_iff.mp hstep
      obtain ⟨⟨job', thread'⟩, hthreadStep, hstep⟩ := Option.bind_eq_some_iff.mp hstep
      cases hstep
      obtain ⟨-, -, hown⟩ :=
        threadStep_spec (hthreads thread (List.mem_of_getElem? hi)) hthreadStep
      exact h.of_eq hown.date hown.bucket rfl
    | _ => exact nomatch hstep
  | raise i msg =>
    obtain ⟨job, phase⟩ := e
    cases phase with
    | processing loop nextDate threads =>
      obtain ⟨thread, -, hstep⟩ := Option.bind_eq_some_iff.mp hstep
      split at hstep
      · exact nomatch hstep
      · cases hstep
        exact h.of_eq rfl rfl rfl
    | _ => exact nomatch hstep
  | join =>
    obtain ⟨before, behind, rest, hinv⟩ := hinv
    obtain ⟨job, phase⟩ := e
    cases phase with
    | processing loop nextDate threads =>
      obtain ⟨_, _, _, _, hlater, _⟩ := hinv.phase
      unfold History.step History.join at hstep
      dsimp only at hstep
      split at hstep
      · exact nomatch hstep
      · split at hstep
        · cases hstep
          exact h.of_eq rfl rfl rfl
        · split at hstep
          · cases hstep
            exact storedAtDate_beginCommit hlater.statuses
          · cases hstep
            exact h.of_eq rfl rfl rfl
    | _ => exact nomatch hstep
  | time timedOut =>
    obtain ⟨before, behind, rest, hinv⟩ := hinv
    obtain ⟨job, phase⟩ := e
    cases phase with
    | checkTime loop =>
      obtain ⟨hat, -⟩ := hinv.phase
      cases timedOut with
      | true =>
        cases hstep
        exact storedAtDate_beginCommit hat.statuses
      | false =>
        cases hstep
        exact h.of_eq rfl rfl rfl
    | _ => exact nomatch hstep

/-- **Such crashes meet the condition on restarts**, in a job that comes to an end. -/
theorem restartsAtDate_of_freshOutsideCommits (hsha256 : ∀ s, (sha256 s).length = 64)
    {total : List AlignedRunSet} (htotal : Remaining feed start.date total)
    (hstart : ∀ browserName ∈ processedBrowsers, Agrees start browserName)
    (hrun : ReachableWith (step sha256 feed) FreshOutsideCommits (invoke start.fresh) e) :
    ReachableWith (step sha256 feed) (RestartsAtDate sha256 feed start) (invoke start.fresh) e ∧
      Inv sha256 feed start total e ∧ StoredAtDate sha256 feed start e := by
  induction hrun with
  | init => exact ⟨.init, inv_invoke hstart htotal, startStatuses start, .start,
      fun browserName hbrowser _ => hstart browserName hbrowser⟩
  | @step e e' a _ hcond hstep ih =>
    obtain ⟨hrun, hinv, hstored⟩ := ih
    have hrestarts : RestartsAtDate sha256 feed start e a := by
      cases a with
      | restart warm =>
        obtain rfl : warm = false := hcond
        obtain ⟨job, phase⟩ := e
        obtain ⟨statuses, hat, hbucket⟩ := hstored
        cases phase with
        | stopped =>
          exact ⟨statuses, hat, fun browserName hbrowser =>
            loads_fresh_iff.mpr (hbucket browserName hbrowser List.not_mem_nil)⟩
        | _ => exact nomatch hstep
      | _ => trivial
    exact ⟨hrun.step hrestarts hstep, hinv.step hsha256 htotal hrestarts hstep,
      hstored.step hinv htotal hcond hstep⟩

end Stored

/-- A run of some browser with one passing test. -/
def passingRun (id browserName : String) : RunCall :=
  { passingCall browserName with
    run := { id, browserName, timeStart := "2030-01-01T12:00:00Z" } }

def passingRuns : AlignedRunSet where
  calls := [passingRun "1" "chrome", passingRun "2" "edge", passingRun "3" "firefox",
    passingRun "4" "safari"]
  aligned := by decide

/-- One run set, and nothing later. -/
def oneSetFeed : Feed where
  answer date :=
    if date = "2030-01-01T00:00:00Z" then (.runs passingRuns, "2030-01-01T12:00:00Z")
    else (.upToDate, "2030-01-03T00:00:00Z")
  upToDate date _ := by split <;> rfl
  distinct date runSet h := by
    split at h
    · cases h
      decide
    · cases h

/-- `main` from the stored date on, where every thread does this many things. -/
def wholeInvocation (steps : Nat) : List Action :=
  [.ask fun _ => keysInOrder] ++
    (List.range 4).flatMap (fun i => List.replicate steps (.thread i)) ++
    [.join, .time false, .ask fun _ => keysInOrder] ++
    List.replicate 5 .flush

/-- The first thread has updated its dict when `put_multi` raises; the others are done. -/
def raisedInvocation : List Action :=
  [.ask fun _ => keysInOrder, .thread 0, .thread 0,
    .raise 0 "put_multi failed"] ++
    [1, 2, 3].flatMap (fun i => List.replicate 3 (.thread i)) ++ [.join]

def Execution.isFinished (e : Execution) : Bool :=
  match e.phase with
  | .finished => true
  | _ => false

theorem Execution.phase_of_isFinished {e : Execution} (h : e.isFinished = true) :
    e.phase = .finished := by
  unfold Execution.isFinished at h
  split at h
  · assumption
  · cases h

theorem wholeInvocation_uninterrupted (steps : Nat) :
    ∀ a ∈ wholeInvocation steps, Uninterrupted a := by
  intro a ha
  simp only [wholeInvocation, List.mem_append, List.mem_cons, List.mem_flatMap,
    List.mem_replicate, List.not_mem_nil, or_false] at ha
  rcases ha with ((rfl | ⟨i, -, -, rfl⟩) | rfl | rfl | rfl) | ⟨-, rfl⟩ <;> trivial

theorem agrees_freshJob :
    ∀ browserName ∈ processedBrowsers, Agrees (freshJob emptyBucket) browserName := by
  unfold Agrees
  decide +kernel

/-- The job without an interruption. -/
theorem wholeInvocation_finishes : ∃ e,
    ReachableWith (step paddedSha256 oneSetFeed) (fun _ a => Uninterrupted a)
        (invoke (freshJob emptyBucket).fresh) e ∧ e.phase = .finished ∧
      (storedRows e.job.entries).lookup
        "1_47293a87b5c4ef095cf534694d7c520b5eee3a103ef543d21fc370e46aa574ee" = some "PASS" := by
  have hrun : ∃ e ∈ run (step paddedSha256 oneSetFeed) (invoke (freshJob emptyBucket).fresh)
      (wholeInvocation 3), e.isFinished = true ∧ (storedRows e.job.entries).lookup
        "1_47293a87b5c4ef095cf534694d7c520b5eee3a103ef543d21fc370e46aa574ee" = some "PASS" := by
    decide +kernel
  obtain ⟨e, hrun, hfinished, hrow⟩ := hrun
  exact ⟨e, ReachableWith.init.run (fun a ha _ => wholeInvocation_uninterrupted 3 a ha) hrun,
    e.phase_of_isFinished hfinished, hrow⟩

/-- The process dies while the first dict is updated, and a fresh one starts over. -/
theorem storedRows_eq_uninterrupted_crash : ∃ e e',
    ReachableWith (step paddedSha256 oneSetFeed)
        (RestartsAtDate paddedSha256 oneSetFeed (freshJob emptyBucket))
        (invoke (freshJob emptyBucket).fresh) e ∧
      ReachableWith (step paddedSha256 oneSetFeed) (fun _ a => Uninterrupted a)
        (invoke (freshJob emptyBucket).fresh) e' ∧
      storedRows e.job.entries = storedRows e'.job.entries := by
  have hcrash : ∃ e ∈ run (step paddedSha256 oneSetFeed) (invoke (freshJob emptyBucket).fresh)
      (raisedInvocation.take 3 ++ [.interrupt]),
      e.job.date = (freshJob emptyBucket).date ∧ e.job.bucket = emptyBucket ∧
        ∃ e' ∈ run (step paddedSha256 oneSetFeed) e (.restart false :: wholeInvocation 3),
          e'.isFinished = true := by
    decide +kernel
  obtain ⟨e₁, hcrash, hdate, hbucket, e, hrun, hfinished⟩ := hcrash
  obtain ⟨e₂, hrestart, hrun⟩ := Option.bind_eq_some_iff.mp hrun
  obtain ⟨e', hrun', hfinished', -⟩ := wholeInvocation_finishes
  have hcrashed : ReachableWith (step paddedSha256 oneSetFeed)
      (RestartsAtDate paddedSha256 oneSetFeed (freshJob emptyBucket))
      (invoke (freshJob emptyBucket).fresh) e₁ := by
    refine ReachableWith.init.run (fun a ha s => ?_) hcrash
    rcases List.mem_append.mp ha with ha | ha
    · have hsome : a ∈ [Action.ask fun _ => keysInOrder, .thread 0,
          .thread 0] := ha
      simp only [List.mem_cons, List.not_mem_nil, or_false] at hsome
      rcases hsome with rfl | rfl | rfl <;> trivial
    · rw [List.mem_singleton.mp ha]
      trivial
  -- nothing was flushed before the crash, so the bucket still has the statuses of the start
  have hcond : RestartsAtDate paddedSha256 oneSetFeed (freshJob emptyBucket) e₁
      (.restart false) := by
    refine ⟨startStatuses (freshJob emptyBucket), ?_, fun browserName hbrowser => ?_⟩
    · rw [hdate]
      exact .start
    · refine loads_fresh_iff.mpr ?_
      rw [hbucket]
      exact agrees_freshJob browserName hbrowser
  have hagain := (hcrashed.step hcond hrestart).run
    (fun a ha s => .of_uninterrupted (wholeInvocation_uninterrupted 3 a ha)) hrun
  exact ⟨e, e', hagain, hrun', storedRows_eq_uninterrupted length_paddedSha256 oneSetFeed
    agrees_freshJob hagain (Execution.phase_of_isFinished hfinished) hrun' hfinished'⟩

/-- Every job that runs to completion has the rows of an uninterrupted execution,
whatever cut it off on the way. -/
def CrashConsistent (sha256 : String → String) (feed : Feed) (start : JobState) : Prop :=
  ∀ e e', Reachable (step sha256 feed) (invoke start.fresh) e → e.phase = .finished →
    ReachableWith (step sha256 feed) (fun _ a => Uninterrupted a) (invoke start.fresh) e' →
    e'.phase = .finished → storedRows e.job.entries = storedRows e'.job.entries

/-- When `put_multi` raises, the cached dict of a warm process has statuses for which no
row was written, and the next invocation writes none either. -/
theorem not_crashConsistent :
    (∀ browserName ∈ processedBrowsers, Agrees (freshJob emptyBucket) browserName) ∧
      ¬CrashConsistent paddedSha256 oneSetFeed (freshJob emptyBucket) := by
  refine ⟨agrees_freshJob, fun h => ?_⟩
  have hwarm : ∃ e ∈ run (step paddedSha256 oneSetFeed) (invoke (freshJob emptyBucket).fresh)
      (raisedInvocation ++ .restart true :: wholeInvocation 1),
      e.isFinished = true ∧ (storedRows e.job.entries).lookup
        "1_47293a87b5c4ef095cf534694d7c520b5eee3a103ef543d21fc370e46aa574ee" = none := by
    decide +kernel
  obtain ⟨e, hrun, hfinished, hnone⟩ := hwarm
  obtain ⟨e', hrun', hfinished', hsome⟩ := wholeInvocation_finishes
  have heq := h e e' ⟨_, hrun⟩ (Execution.phase_of_isFinished hfinished) hrun' hfinished'
  rw [heq, hsome] at hnone
  cases hnone

end WptFyi.History
