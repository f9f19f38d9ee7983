import WptFyi.Lib.GoMap
import WptFyi.Taskcluster.CreateAllRuns

/-!
# The artifact URLs of a task group (`api/taskcluster/webhook.go`)

`ExtractArtifactURLs` walks the tasks of a group once. A completed task adds
its URLs to its product, any other task puts its product on a list of failures,
and the failed products are taken out of the map at the end.

What is gathered for one product depends on its own tasks alone, so the statement is made product
by product, for the tasks in the order of the group, and the loop keeps it (`Gathered`). A task
that the filter leaves out, is named otherwise or checks stability belongs to no product. The
regular expressions for names are functions on the pieces between dashes, with a lemma each that
says which names they match.

- `taskNameRegex`, `infraTaskNameRegex`: the two names that are recognised,
  each with what its regular expression says (`taskNameRegex_iff`);
- `productOf`: the product of a task, with the suffixes for pull requests;
- `extractArtifactURLs`: the walk, the failures and the errors;
- `tasksOf`, `Qualifies`: a product's own tasks, and whether they all completed;
- `extractArtifactURLs_extracts`: a product's URLs are those of its own tasks.
-/

namespace WptFyi.Taskcluster

open Lib Lib.GoStrings

/-- A task of a group. -/
structure TaskInfo where
  name : String
  taskID : String
  state : String
deriving DecidableEq

/-- A task group. -/
structure TaskGroupInfo where
  taskGroupID : String
  tasks : List TaskInfo

def completedState : String := "completed"

/-! ## Task names

The names of tasks say which browser and channel they ran, and which chunk. The regular expressions
are read as functions on the parts between dashes. -/

/-- `[a-z]` -/
def isLowerLetter (c : Char) : Bool := decide ('a' ≤ c ∧ c ≤ 'z')

/-- `[a-z_]` -/
def isBrowserChar (c : Char) : Bool := isLowerLetter c || c == '_'

/-- `\d` -/
def isDigitChar (c : Char) : Bool := decide ('0' ≤ c ∧ c ≤ '9')

/-- A class of characters with a `+` behind it. -/
def oneOrMore (cls : Char → Bool) (s : String) : Bool := s != "" && s.toList.all cls

/-- `[a-z]+(?:-[a-z]+)*|test262`, on the pieces between the dashes. -/
def isTestType (pieces : List String) : Bool :=
  (pieces != [] && pieces.all (oneOrMore isLowerLetter)) || pieces == ["test262"]

/-- The pieces without the last one where that is `(?:-\d+)?`. -/
def withoutChunk : List String → List String
  | [] => []
  | [piece] => if oneOrMore isDigitChar piece then [] else [piece]
  | piece :: next :: rest => piece :: withoutChunk (next :: rest)

/-- The submatches of `TaskNameRegex`. No group but the test type's has a dash
to spare, so that a name has one match at most. -/
def taskNameRegex (name : String) : Option (String × String) :=
  match split name '-' with
  | wpt :: browser :: channel :: suite :: rest =>
    let testType := suite :: withoutChunk rest
    if wpt = "wpt" ∧ oneOrMore isBrowserChar browser ∧ oneOrMore isLowerLetter channel ∧
        isTestType testType then
      some (join [browser, channel] '-', join testType '-')
    else none
  | _ => none

/-- The submatch of `infraTaskNameRegex`. -/
def infraTaskNameRegex (name : String) : Option String :=
  match split name '(' with
  | [infrastructure, rest] =>
    match split rest ')' with
    | [browser, after] =>
      if infrastructure = "infrastructure/ tests " ∧ after = "" ∧
          oneOrMore isBrowserChar browser then some browser
      else none
    | _ => none
  | _ => none

/-- The product of a task; none for a stability check and for a name that is
not recognised. -/
def productOf (name : String) : Option String :=
  match taskNameRegex name with
  | some (product, testType) =>
    if testType = "stability" then none
    else if testType = "results" then some (product ++ "-" ++ prHeadLabel)
    else if testType = "results-without-changes" then some (product ++ "-" ++ prBaseLabel)
    else some product
  | none => infraTaskNameRegex name

example : productOf "wpt-chrome-dev-results-without-changes" = some "chrome-dev-pr_base" ∧
    productOf "wpt-chrome-dev-test262-1" = some "chrome-dev" ∧
    productOf "wpt-chrome-dev-stability" = none ∧
    productOf "infrastructure/ tests (firefox_android)" = some "firefox_android" := by
  decide +kernel

/-! ### What the regular expressions say -/

section Regex

variable {name product testType : String}

theorem notMem_of_oneOrMore {cls : Char → Bool} {s : String} (h : oneOrMore cls s) {c : Char}
    (hc : cls c = false) : c ∉ s.toList := by
  intro hmem
  have hall := (Bool.and_eq_true_iff.mp h).2
  rw [List.all_eq_true.mp hall c hmem] at hc
  cases hc

theorem join_dash_cons_cons (a b : String) (pieces : List String) :
    join (a :: b :: pieces) '-' = a ++ "-" ++ join (b :: pieces) '-' :=
  join_cons_cons a b pieces '-'

theorem join_dash_snoc (a d : String) (pieces : List String) :
    join (a :: (pieces ++ [d])) '-' = join (a :: pieces) '-' ++ "-" ++ d :=
  join_snoc (List.cons_ne_nil a pieces) d '-'

theorem withoutChunk_cases (pieces : List String) :
    withoutChunk pieces = pieces ∨
      ∃ d, oneOrMore isDigitChar d ∧ pieces = withoutChunk pieces ++ [d] := by
  fun_induction withoutChunk pieces with
  | case1 => exact .inl rfl
  | case2 piece hdigits => exact .inr ⟨piece, hdigits, rfl⟩
  | case3 piece hdigits => exact .inl rfl
  | case4 piece next rest ih =>
    rcases ih with hsame | ⟨d, hd, hchunk⟩
    · exact .inl (congrArg (piece :: ·) hsame)
    · exact .inr ⟨d, hd, congrArg (piece :: ·) hchunk⟩

theorem withoutChunk_snoc {d : String} (hd : oneOrMore isDigitChar d) (pieces : List String) :
    withoutChunk (pieces ++ [d]) = pieces := by
  induction pieces with
  | nil => exact if_pos hd
  | cons piece pieces ih =>
    cases pieces with
    | nil => exact congrArg (piece :: ·) ih
    | cons next rest => exact congrArg (piece :: ·) ih

/-- A piece of letters is no chunk. -/
theorem withoutChunk_of_lower {pieces : List String} (h : pieces.all (oneOrMore isLowerLetter)) :
    withoutChunk pieces = pieces := by
  obtain hsame | ⟨d, hd, hchunk⟩ := withoutChunk_cases pieces
  · exact hsame
  · have hlower : oneOrMore isLowerLetter d := by
      refine List.all_eq_true.mp h d ?_
      rw [hchunk]
      exact List.mem_append_right _ (List.mem_singleton.mpr rfl)
    obtain ⟨hne, hdigits⟩ := Bool.and_eq_true_iff.mp hd
    obtain ⟨c, hc⟩ := List.exists_mem_of_ne_nil d.toList
      (fun hnil => (bne_iff_ne.mp hne) (String.toList_inj.mp hnil))
    have hdigit := List.all_eq_true.mp hdigits c hc
    have hletter := List.all_eq_true.mp (Bool.and_eq_true_iff.mp hlower).2 c hc
    -- no character is a digit and a letter
    simp only [isDigitChar, isLowerLetter, decide_eq_true_eq] at hdigit hletter
    exact absurd (le_trans hletter.1 hdigit.2) (by decide)

/-- `TaskNameRegex`: the groups, and what the expression asks of them. -/
theorem taskNameRegex_iff :
    taskNameRegex name = some (product, testType) ↔
      ∃ browser channel chunk,
        name = "wpt-" ++ product ++ "-" ++ testType ++ chunk ∧
        product = browser ++ "-" ++ channel ∧
        oneOrMore isBrowserChar browser ∧ oneOrMore isLowerLetter channel ∧
        isTestType (split testType '-') ∧
        (chunk = "" ∨ ∃ digits, oneOrMore isDigitChar digits ∧ chunk = "-" ++ digits) := by
  constructor
  · intro h
    unfold taskNameRegex at h
    split at h
    next wpt browser channel suite rest hsplit =>
      dsimp only at h
      split at h
      next hmatch =>
        obtain ⟨rfl, hbrowser, hchannel, htype⟩ := hmatch
        obtain ⟨rfl, rfl⟩ := Prod.mk.inj (Option.some.inj h)
        have hname : name = join ("wpt" :: browser :: channel :: suite :: rest) '-' := by
          rw [← hsplit, join_split]
        -- the chunk is cut off whole, so no piece that is left has a dash in it
        have hdash : ∀ piece ∈ suite :: withoutChunk rest, '-' ∉ piece.toList := by
          intro piece hpiece
          refine notMem_of_mem_split (s := name) ?_
          rw [hsplit]
          have hsub : piece ∈ suite :: rest := by
            rcases List.mem_cons.mp hpiece with rfl | hmem
            · exact List.mem_cons_self
            · refine List.mem_cons_of_mem _ ?_
              obtain hsame | ⟨d, -, hchunk⟩ := withoutChunk_cases rest
              · rwa [hsame] at hmem
              · rw [hchunk]
                exact List.mem_append_left _ hmem
          exact List.mem_cons_of_mem _ (List.mem_cons_of_mem _ (List.mem_cons_of_mem _ hsub))
        have hpieces : split (join (suite :: withoutChunk rest) '-') '-' =
            suite :: withoutChunk rest := split_join (List.cons_ne_nil _ _) hdash
        have hproduct : join [browser, channel] '-' = browser ++ "-" ++ channel := by
          rw [join_dash_cons_cons, join_singleton]
        refine ⟨browser, channel, ?_⟩
        obtain hsame | ⟨d, hd, hchunk⟩ := withoutChunk_cases rest
        · refine ⟨"", ?_, hproduct, hbrowser, hchannel, by rwa [hpieces], .inl rfl⟩
          rw [hname, join_dash_cons_cons, join_dash_cons_cons, join_dash_cons_cons, hproduct, hsame]
          simp only [String.append_assoc, String.append_empty]
          rfl
        · refine ⟨"-" ++ d, ?_, hproduct, hbrowser, hchannel, by rwa [hpieces], .inr ⟨d, hd, rfl⟩⟩
          rw [hname, join_dash_cons_cons, join_dash_cons_cons, join_dash_cons_cons, hproduct]
          nth_rewrite 1 [hchunk]
          rw [join_dash_snoc]
          simp only [String.append_assoc]
          rfl
      next => cases h
    next => cases h
  · rintro ⟨browser, channel, chunk, rfl, rfl, hbrowser, hchannel, htype, hchunk⟩
    -- only the test type may have dashes, so the first three pieces are the groups
    have hsplitWpt : split ("wpt-" ++ (browser ++ "-" ++ channel) ++ "-" ++ testType ++ chunk) '-' =
        "wpt" :: browser :: channel :: split (testType ++ chunk) '-' := by
      have hassoc : "wpt-" ++ (browser ++ "-" ++ channel) ++ "-" ++ testType ++ chunk =
          "wpt" ++ String.singleton '-' ++ (browser ++ String.singleton '-' ++
            (channel ++ String.singleton '-' ++ (testType ++ chunk))) := by
        simp only [String.append_assoc]
        rfl
      rw [hassoc, split_append_sep (by decide),
        split_append_sep (notMem_of_oneOrMore hbrowser (by decide)),
        split_append_sep (notMem_of_oneOrMore hchannel (by decide))]
    obtain ⟨suite, more, hpieces⟩ : ∃ suite more, split testType '-' = suite :: more :=
      List.exists_cons_of_ne_nil (List.ne_nil_of_length_pos (by rw [length_split]; omega))
    obtain ⟨rest, hrest, hwithout⟩ :
        ∃ rest, split (testType ++ chunk) '-' = suite :: rest ∧ withoutChunk rest = more := by
      rcases hchunk with rfl | ⟨d, hd, rfl⟩
      · refine ⟨more, by rw [String.append_empty, hpieces], ?_⟩
        rw [hpieces] at htype
        -- without a chunk no test type ends in digits, but for `test262`
        rcases Bool.or_eq_true_iff.mp htype with hlower | h262
        · exact withoutChunk_of_lower
            (Bool.and_eq_true_iff.mp (Bool.and_eq_true_iff.mp hlower).2).2
        · have hnil : more = [] := (List.cons.inj (beq_iff_eq.mp h262)).2
          rw [hnil, withoutChunk]
      · refine ⟨more ++ [d], ?_, withoutChunk_snoc hd more⟩
        have hjoin : testType ++ ("-" ++ d) = join (suite :: (more ++ [d])) '-' := by
          rw [join_dash_snoc, ← hpieces, join_split, String.append_assoc]
        rw [hjoin]
        refine split_join (List.cons_ne_nil _ _) fun piece hpiece => ?_
        rw [← List.cons_append, ← hpieces] at hpiece
        rcases List.mem_append.mp hpiece with hmem | hmem
        · exact notMem_of_mem_split hmem
        · rw [List.mem_singleton.mp hmem]
          exact notMem_of_oneOrMore hd (by decide)
    rw [hrest] at hsplitWpt
    rw [hpieces, ← hwithout] at htype
    simp only [taskNameRegex, hsplitWpt]
    rw [if_pos ⟨trivial, hbrowser, hchannel, htype⟩, hwithout, ← hpieces, join_split,
      join_dash_cons_cons, join_singleton]

/-- `infraTaskNameRegex`: nothing but the browser's name in the parentheses. -/
theorem infraTaskNameRegex_iff {browser : String} :
    infraTaskNameRegex name = some browser ↔
      name = "infrastructure/ tests (" ++ browser ++ ")" ∧ oneOrMore isBrowserChar browser := by
  constructor
  · intro h
    unfold infraTaskNameRegex at h
    split at h
    next infrastructure rest hname =>
      split at h
      next browser' after hrest =>
        split at h
        next hmatch =>
          obtain ⟨rfl, rfl, hbrowser⟩ := hmatch
          obtain rfl := Option.some.inj h
          refine ⟨?_, hbrowser⟩
          rw [(split_eq_pair_iff.mp hname).1, (split_eq_pair_iff.mp hrest).1]
          simp only [String.append_assoc]
          rfl
        next => cases h
      next => cases h
    next => cases h
  · rintro ⟨rfl, hbrowser⟩
    have hname : "infrastructure/ tests (" ++ browser ++ ")" =
        "infrastructure/ tests " ++ String.singleton '(' ++
          (browser ++ String.singleton ')' ++ "") := by
      simp only [String.append_assoc]
      rfl
    -- a browser has no parentheses, so the name falls apart at these two only
    have hparen : '(' ∉ (browser ++ String.singleton ')' ++ "").toList := by
      have hopen := notMem_of_oneOrMore hbrowser (c := '(') (by decide)
      simpa [String.toList_append] using hopen
    rw [hname, infraTaskNameRegex, split_append_sep (by decide), split_of_notMem hparen]
    dsimp only
    rw [split_append_sep (notMem_of_oneOrMore hbrowser (by decide)),
      split_of_notMem (by decide)]
    exact if_pos ⟨rfl, rfl, hbrowser⟩

end Regex

/-! ## The walk over the tasks -/

def errNoResults : String := "no result URLs found in task group"

/-- The maps of the loop. -/
structure Extraction where
  urlsByProduct : GoMap String ArtifactURLs
  failures : List String

section Extract

variable (api : String → String → String → String → String) (rootURL : String)

/-- The URL of a task's report; `api` is the URL library's `API`. -/
def reportURL (id : String) : String :=
  api rootURL "queue" "v1" ("/task/" ++ id ++ "/artifacts/public/results/wpt_report.json.gz")

/-- The URL of a task's screenshots, which might not exist. -/
def screenshotURL (id : String) : String :=
  api rootURL "queue" "v1" ("/task/" ++ id ++ "/artifacts/public/results/wpt_screenshot.txt.gz")

/-- The two appends, to the zero value where the product has no URLs yet. -/
def ArtifactURLs.add (urls : ArtifactURLs) (id : String) : ArtifactURLs where
  results := urls.results ++ [reportURL api rootURL id]
  screenshots := urls.screenshots ++ [screenshotURL api rootURL id]

/-- One turn of the loop. -/
def extractTask (group : TaskGroupInfo) (taskID : String) (s : Extraction) (task : TaskInfo) :
    Except String Extraction :=
  if task.taskID = "" then
    .error ("task group " ++ group.taskGroupID ++ " has a task without taskId")
  else if taskID ≠ "" ∧ taskID ≠ task.taskID then .ok s
  else
    match productOf task.name with
    | none => .ok s
    | some product =>
      if task.state ≠ completedState then .ok { s with failures := s.failures.insert product }
      else
        let urls := (s.urlsByProduct.lookup product).getD ⟨[], []⟩
        -- urls is a copy of the value so we must store it back to the map
        .ok { s with urlsByProduct :=
                s.urlsByProduct.insert product (urls.add api rootURL task.taskID) }

/-- `ExtractArtifactURLs`; the map is nil with an error. -/
def extractArtifactURLs (group : TaskGroupInfo) (taskID : String) :
    Except String (GoMap String ArtifactURLs) := do
  let s ← group.tasks.foldlM (extractTask api rootURL group taskID) ⟨∅, []⟩
  -- the set of failures has no order, and none would matter here (`lookup_eraseAll`)
  let urlsByProduct := s.urlsByProduct.eraseAll s.failures
  if urlsByProduct.keys.card = 0 then .error errNoResults
  else .ok urlsByProduct

end Extract

/-! ## What a product's tasks say -/

/-- The tasks of a product that pass the filter, in the order of the group. -/
def tasksOf (taskID : String) (tasks : List TaskInfo) (product : String) : List TaskInfo :=
  tasks.filter fun task =>
    (taskID = "" ∨ taskID = task.taskID) ∧ productOf task.name = some product

/-- At least one task is of the product, and all of them are completed. -/
def Qualifies (taskID : String) (tasks : List TaskInfo) (product : String) : Prop :=
  tasksOf taskID tasks product ≠ [] ∧
    ∀ task ∈ tasksOf taskID tasks product, task.state = completedState

/-- What the answer says about a product: with an error, nothing. -/
def urlsFor (answer : Except String (GoMap String ArtifactURLs)) (product : String) :
    Option ArtifactURLs :=
  match answer with
  | .ok urlsByProduct => urlsByProduct.lookup product
  | .error _ => none

section Spec

variable (api : String → String → String → String → String) (rootURL : String)

/-- One URL of each kind per task. -/
def urlsOf (tasks : List TaskInfo) : ArtifactURLs where
  results := tasks.map fun task => reportURL api rootURL task.taskID
  screenshots := tasks.map fun task => screenshotURL api rootURL task.taskID

/-- What the loop has gathered from the tasks it has seen: a product's
completed tasks in the one map, and whether it has another task in the other. -/
structure Gathered (taskID : String) (seen : List TaskInfo) (s : Extraction) : Prop where
  urls : ∀ product, s.urlsByProduct.lookup product =
    let completed := (tasksOf taskID seen product).filter fun task => task.state = completedState
    if completed = [] then none else some (urlsOf api rootURL completed)
  failures : ∀ product, product ∈ s.failures ↔
    ∃ task ∈ tasksOf taskID seen product, task.state ≠ completedState

variable {api rootURL} {group : TaskGroupInfo} {taskID : String}

theorem tasksOf_append (tasks tasks' : List TaskInfo) (product : String) :
    tasksOf taskID (tasks ++ tasks') product =
      tasksOf taskID tasks product ++ tasksOf taskID tasks' product :=
  List.filter_append ..

theorem urlsOf_snoc (tasks : List TaskInfo) (task : TaskInfo) :
    urlsOf api rootURL (tasks ++ [task]) =
      (urlsOf api rootURL tasks).add api rootURL task.taskID := by
  simp [urlsOf, ArtifactURLs.add]

theorem tasksOf_skipped {task : TaskInfo}
    (h : (taskID ≠ "" ∧ taskID ≠ task.taskID) ∨ productOf task.name = none)
    (seen : List TaskInfo) (product : String) :
    tasksOf taskID (seen ++ [task]) product = tasksOf taskID seen product := by
  have hskip : tasksOf taskID [task] product = [] := by
    refine List.filter_eq_nil_iff.mpr fun t ht => ?_
    rw [List.mem_singleton.mp ht]
    rcases h with ⟨hne, hid⟩ | hnone
    · simp [hne, hid]
    · simp [hnone]
  rw [tasksOf_append, hskip, List.append_nil]

/-- One more task that the filter lets through. -/
theorem tasksOf_snoc {task : TaskInfo} (h : ¬(taskID ≠ "" ∧ taskID ≠ task.taskID))
    {product : String} (hproduct : productOf task.name = some product)
    (seen : List TaskInfo) (product' : String) :
    tasksOf taskID (seen ++ [task]) product' =
      if product' = product then tasksOf taskID seen product' ++ [task]
      else tasksOf taskID seen product' := by
  have hpasses : taskID = "" ∨ taskID = task.taskID := by
    by_cases hempty : taskID = ""
    · exact .inl hempty
    · exact .inr (not_not.mp fun hid => h ⟨hempty, hid⟩)
  rw [tasksOf_append]
  split
  next heq =>
    subst heq
    rw [show tasksOf taskID [task] product' = [task] by simp [tasksOf, hpasses, hproduct]]
  next hne =>
    rw [show tasksOf taskID [task] product' = [] by simp [tasksOf, hproduct, Ne.symm hne],
      List.append_nil]

/-- A task that is not considered changes nothing. -/
theorem Gathered.skipped {seen : List TaskInfo} {s : Extraction}
    (hs : Gathered api rootURL taskID seen s) {task : TaskInfo}
    (h : (taskID ≠ "" ∧ taskID ≠ task.taskID) ∨ productOf task.name = none) :
    Gathered api rootURL taskID (seen ++ [task]) s where
  urls product := by rw [tasksOf_skipped h]; exact hs.urls product
  failures product := by rw [tasksOf_skipped h]; exact hs.failures product

/-- A task that is not completed is a failure of its product. -/
theorem Gathered.failed {seen : List TaskInfo} {s : Extraction}
    (hs : Gathered api rootURL taskID seen s) {task : TaskInfo}
    (h : ¬(taskID ≠ "" ∧ taskID ≠ task.taskID))
    {product : String} (hproduct : productOf task.name = some product)
    (hstate : task.state ≠ completedState) :
    Gathered api rootURL taskID (seen ++ [task])
      { s with failures := s.failures.insert product } where
  urls product' := by
    have hfilter : (tasksOf taskID (seen ++ [task]) product').filter
        (fun task => task.state = completedState) =
          (tasksOf taskID seen product').filter fun task => task.state = completedState := by
      rw [tasksOf_snoc h hproduct]
      split
      · rw [List.filter_append, List.filter_singleton, decide_eq_false hstate, cond_false,
          List.append_nil]
      · rfl
    rw [hfilter]
    exact hs.urls product'
  failures product' := by
    rw [List.mem_insert_iff, hs.failures, tasksOf_snoc h hproduct]
    by_cases heq : product' = product
    · subst heq
      rw [if_pos rfl]
      exact ⟨fun _ => ⟨task, by simp, hstate⟩, fun _ => .inl rfl⟩
    · rw [if_neg heq]
      exact or_iff_right heq

/-- A completed task adds its URLs behind those of its product. -/
theorem Gathered.completed {seen : List TaskInfo} {s : Extraction}
    (hs : Gathered api rootURL taskID seen s) {task : TaskInfo}
    (h : ¬(taskID ≠ "" ∧ taskID ≠ task.taskID))
    {product : String} (hproduct : productOf task.name = some product)
    (hstate : task.state = completedState) :
    Gathered api rootURL taskID (seen ++ [task])
      { s with urlsByProduct := s.urlsByProduct.insert product
                (((s.urlsByProduct.lookup product).getD ⟨[], []⟩).add api rootURL task.taskID) }
                  where
  urls product' := by
    rw [tasksOf_snoc h hproduct, GoMap.lookup_insert_eq_ite]
    by_cases heq : product' = product
    · subst heq
      -- a product without tasks so far has no entry, which is read as an empty one
      have hbefore : (s.urlsByProduct.lookup product').getD ⟨[], []⟩ =
          urlsOf api rootURL
            ((tasksOf taskID seen product').filter fun task => task.state = completedState) := by
        rw [hs.urls]
        dsimp only
        split
        next hnone => rw [hnone]; rfl
        next => rfl
      rw [if_pos rfl, if_pos rfl, hbefore, List.filter_append, List.filter_singleton,
        decide_eq_true hstate, cond_true, ← urlsOf_snoc]
      exact (if_neg (List.append_ne_nil_of_right_ne_nil _ (List.cons_ne_nil _ _))).symm
    · rw [if_neg heq, if_neg heq]
      exact hs.urls product'
  failures product' := by
    rw [hs.failures, tasksOf_snoc h hproduct]
    split
    · simp [hstate]
    · exact Iff.rfl

variable (group) in
/-- **One task**: the loop has gathered one task more, and does not fail as the task has an ID. -/
theorem Gathered.step {seen : List TaskInfo} {s : Extraction}
    (hs : Gathered api rootURL taskID seen s) {task : TaskInfo} (hid : task.taskID ≠ "") :
    ∃ s', extractTask api rootURL group taskID s task = .ok s' ∧
      Gathered api rootURL taskID (seen ++ [task]) s' := by
  unfold extractTask
  rw [if_neg hid]
  split
  next hskip => exact ⟨s, rfl, hs.skipped (.inl hskip)⟩
  next hpasses =>
    cases hproduct : productOf task.name with
    | none => exact ⟨s, rfl, hs.skipped (.inr hproduct)⟩
    | some product =>
      by_cases hstate : task.state = completedState
      · exact ⟨_, if_neg (not_not.mpr hstate), hs.completed hpasses hproduct hstate⟩
      · exact ⟨_, if_pos hstate, hs.failed hpasses hproduct hstate⟩

variable (group) in
/-- The whole loop. -/
theorem gathered_foldlM {tasks : List TaskInfo} (hids : ∀ task ∈ tasks, task.taskID ≠ "")
    {seen : List TaskInfo} {s : Extraction} (hs : Gathered api rootURL taskID seen s) :
    ∃ s', tasks.foldlM (extractTask api rootURL group taskID) s = .ok s' ∧
      Gathered api rootURL taskID (seen ++ tasks) s' := by
  induction tasks generalizing seen s with
  | nil => exact ⟨s, rfl, by rwa [List.append_nil]⟩
  | cons task tasks ih =>
    obtain ⟨s', hstep, hs'⟩ := hs.step group (hids task List.mem_cons_self)
    obtain ⟨s'', hrest, hs''⟩ :=
      ih (fun task' htask' => hids task' (List.mem_cons_of_mem _ htask')) hs'
    refine ⟨s'', ?_, by rwa [List.append_assoc, List.singleton_append] at hs''⟩
    rw [List.foldlM_cons, hstep]
    exact hrest

/-- The maps after the failures are deleted. -/
theorem lookup_of_gathered {tasks : List TaskInfo} {s : Extraction}
    (hs : Gathered api rootURL taskID tasks s) (product : String) (urls : ArtifactURLs) :
    (s.urlsByProduct.eraseAll s.failures).lookup product = some urls ↔
      Qualifies taskID tasks product ∧
        urls = urlsOf api rootURL (tasksOf taskID tasks product) := by
  rw [GoMap.lookup_eraseAll]
  by_cases hcompleted : ∀ task ∈ tasksOf taskID tasks product, task.state = completedState
  · have hnofailure : product ∉ s.failures := fun hmem =>
      let ⟨task, htask, hstate⟩ := (hs.failures product).mp hmem
      hstate (hcompleted task htask)
    have hall : (tasksOf taskID tasks product).filter (fun task => task.state = completedState) =
        tasksOf taskID tasks product :=
      List.filter_eq_self.mpr fun task htask => decide_eq_true (hcompleted task htask)
    rw [if_neg hnofailure, hs.urls]
    dsimp only
    rw [hall]
    split
    next hnil => exact ⟨fun h => (nomatch h), fun h => absurd hnil h.1.1⟩
    next hne => exact ⟨fun h => ⟨⟨hne, hcompleted⟩, (Option.some.inj h).symm⟩, fun h => by rw [h.2]⟩
  · have hfailure : product ∈ s.failures := by
      refine (hs.failures product).mpr ?_
      push Not at hcompleted
      exact hcompleted
    rw [if_pos hfailure]
    exact ⟨fun h => (nomatch h), fun h => absurd h.1.2 hcompleted⟩

variable (api rootURL taskID) in
/-- **`ExtractArtifactURLs`** on tasks with IDs: a map that holds the products
that qualify, or the error where none does. -/
theorem extractArtifactURLs_cases (hids : ∀ task ∈ group.tasks, task.taskID ≠ "") :
    (∃ urlsByProduct, extractArtifactURLs api rootURL group taskID = .ok urlsByProduct ∧
      (∃ product, Qualifies taskID group.tasks product) ∧
      ∀ product urls, urlsByProduct.lookup product = some urls ↔
        Qualifies taskID group.tasks product ∧
          urls = urlsOf api rootURL (tasksOf taskID group.tasks product)) ∨
    (extractArtifactURLs api rootURL group taskID = .error errNoResults ∧
      ∀ product, ¬Qualifies taskID group.tasks product) := by
  obtain ⟨s, hloop, hs⟩ := gathered_foldlM group hids
    (s := ⟨∅, []⟩) (⟨fun _ => rfl, by simp [tasksOf]⟩ : Gathered api rootURL taskID [] ⟨∅, []⟩)
  rw [List.nil_append] at hs
  have hlookup := lookup_of_gathered hs
  have hkeys : ∀ product, product ∈ (s.urlsByProduct.eraseAll s.failures).keys ↔
      Qualifies taskID group.tasks product := by
    intro product
    rw [Finmap.mem_keys, ← Finmap.lookup_isSome, Option.isSome_iff_exists]
    simp only [hlookup, exists_and_left, exists_eq, and_true]
  have heq : extractArtifactURLs api rootURL group taskID =
      if (s.urlsByProduct.eraseAll s.failures).keys.card = 0 then .error errNoResults
      else .ok (s.urlsByProduct.eraseAll s.failures) := by
    rw [extractArtifactURLs, hloop]
    rfl
  rw [heq]
  by_cases hcard : (s.urlsByProduct.eraseAll s.failures).keys.card = 0
  · refine .inr ⟨if_pos hcard, fun product hproduct => ?_⟩
    rw [← hkeys, Finset.card_eq_zero.mp hcard] at hproduct
    exact Finset.notMem_empty product hproduct
  · refine .inl ⟨_, if_neg hcard, ?_, hlookup⟩
    obtain ⟨product, hproduct⟩ := Finset.card_pos.mp (Nat.pos_of_ne_zero hcard)
    exact ⟨product, (hkeys product).mp hproduct⟩

/-- What the answer says about one product. -/
theorem urlsFor_iff (hids : ∀ task ∈ group.tasks, task.taskID ≠ "") (product : String)
    (urls : ArtifactURLs) :
    urlsFor (extractArtifactURLs api rootURL group taskID) product = some urls ↔
      Qualifies taskID group.tasks product ∧
        urls = urlsOf api rootURL (tasksOf taskID group.tasks product) := by
  obtain ⟨urlsByProduct, hok, -, hlookup⟩ | ⟨herror, hnone⟩ :=
    extractArtifactURLs_cases api rootURL taskID hids
  · rw [hok]
    exact hlookup product urls
  · rw [herror]
    exact ⟨fun h => (nomatch h), fun h => absurd h.1 (hnone product)⟩

/-- Tasks of other products are of no matter to a product. -/
theorem tasksOf_congr {tasks tasks' : List TaskInfo} {product : String}
    (h : (tasks'.filter fun task => productOf task.name = some product) =
      tasks.filter fun task => productOf task.name = some product) :
    tasksOf taskID tasks' product = tasksOf taskID tasks product := by
  have hfilter : ∀ tasks : List TaskInfo, tasksOf taskID tasks product =
      (tasks.filter fun task => productOf task.name = some product).filter
        fun task => taskID = "" ∨ taskID = task.taskID := by
    intro tasks
    rw [List.filter_filter, tasksOf]
    exact List.filter_congr fun task _ => Bool.decide_and _ _
  rw [hfilter, hfilter, h]

end Spec

section Main

variable (api : String → String → String → String → String) (rootURL : String)

/-- **`ExtractArtifactURLs`**, product by product: the URLs of a product are
those of its own tasks, in their order, and it has them exactly when it
qualifies; what the other tasks of the group are is of no matter. -/
theorem extractArtifactURLs_extracts {group : TaskGroupInfo}
    (hids : ∀ task ∈ group.tasks, task.taskID ≠ "") (taskID : String) :
    (∀ product urls,
      urlsFor (extractArtifactURLs api rootURL group taskID) product = some urls ↔
        Qualifies taskID group.tasks product ∧
          urls = urlsOf api rootURL (tasksOf taskID group.tasks product)) ∧
    (∀ (group' : TaskGroupInfo) (product : String),
      (∀ task ∈ group'.tasks, task.taskID ≠ "") →
      (group'.tasks.filter fun task => productOf task.name = some product) =
        (group.tasks.filter fun task => productOf task.name = some product) →
      urlsFor (extractArtifactURLs api rootURL group' taskID) product =
        urlsFor (extractArtifactURLs api rootURL group taskID) product) ∧
    (extractArtifactURLs api rootURL group taskID = .error errNoResults ↔
      ∀ product, ¬Qualifies taskID group.tasks product) ∧
    ((∃ urlsByProduct, extractArtifactURLs api rootURL group taskID = .ok urlsByProduct) ↔
      ∃ product, Qualifies taskID group.tasks product) := by
  refine ⟨urlsFor_iff hids, ?_, ?_, ?_⟩
  · intro group' product hids' hsame
    refine Option.ext fun urls => ?_
    rw [urlsFor_iff hids, urlsFor_iff hids', Qualifies, Qualifies, tasksOf_congr hsame]
  · obtain ⟨urlsByProduct, hok, ⟨product, hproduct⟩, -⟩ | ⟨herror, hnone⟩ :=
      extractArtifactURLs_cases api rootURL taskID hids
    · rw [hok]
      exact ⟨fun h => (nomatch h), fun h => absurd hproduct (h product)⟩
    · exact ⟨fun _ => hnone, fun _ => herror⟩
  · obtain ⟨urlsByProduct, hok, hexists, -⟩ | ⟨herror, hnone⟩ :=
      extractArtifactURLs_cases api rootURL taskID hids
    · exact ⟨fun _ => hexists, fun _ => ⟨urlsByProduct, hok⟩⟩
    · rw [herror]
      exact ⟨fun ⟨_, h⟩ => (nomatch h), fun ⟨product, h⟩ => absurd h (hnone product)⟩

/-- A failed task between two completed ones of its product. -/
def failureBetween : TaskGroupInfo where
  taskGroupID := "group"
  tasks := [⟨"wpt-firefox-nightly-testharness-1", "0", "completed"⟩,
    ⟨"wpt-firefox-nightly-testharness-2", "1", "failed"⟩,
    ⟨"wpt-chrome-dev-results", "2", "completed"⟩,
    ⟨"wpt-firefox-nightly-testharness-3", "3", "completed"⟩]

/-- The URL library on a deployment's root URL. -/
def urlsAPI (rootURL service version path : String) : String :=
  rootURL ++ "/api/" ++ service ++ "/" ++ version ++ path

/-- The failure takes the product out, and the other product stays. -/
theorem extractArtifactURLs_failureBetween :
    urlsFor (extractArtifactURLs urlsAPI "https://tc.example.com" failureBetween "")
        "firefox-nightly" = none ∧
      urlsFor (extractArtifactURLs urlsAPI "https://tc.example.com" failureBetween "")
          "chrome-dev-pr_head" =
        some (urlsOf urlsAPI "https://tc.example.com"
          [⟨"wpt-chrome-dev-results", "2", "completed"⟩]) := by
  have hextracts := extractArtifactURLs_extracts urlsAPI "https://tc.example.com"
    (show ∀ task ∈ failureBetween.tasks, task.taskID ≠ "" by decide) ""
  constructor
  · refine Option.eq_none_iff_forall_ne_some.mpr fun urls hurls => ?_
    have hfailed := ((hextracts.1 _ _).mp hurls).1.2
      ⟨"wpt-firefox-nightly-testharness-2", "1", "failed"⟩ (by decide +kernel)
    exact absurd hfailed (by decide)
  · have htasks : tasksOf "" failureBetween.tasks "chrome-dev-pr_head" =
        [⟨"wpt-chrome-dev-results", "2", "completed"⟩] := by decide +kernel
    refine (hextracts.1 _ _).mpr ⟨⟨?_, ?_⟩, ?_⟩
    · rw [htasks]
      exact List.cons_ne_nil _ _
    · rw [htasks]
      decide
    · rw [htasks]

end Main

end WptFyi.Taskcluster
