import WptFyi.Lib.Fallback
import WptFyi.Lib.RangeOrder

/-!
# Recent screenshots (`api/screenshot/model.go`)

`RecentScreenshotHashes` asks for the screenshots with all labels of a run, and drops the
least important label as long as it has too few.

A datastore lists the screenshots of a query with the last used first; those used at the same time
come in any order, and in another one the next time. So there is no one right answer, and
`MostRelevant` says what an answer has to be: how many hashes, that they belong to screenshots
which keep more of the labels than those left out, or as many and were used later. The rounds meet
it because each of them lists, of what it adds, the newest, and what earlier rounds have found is
found again and not added twice.

- `Datastore`: the screenshots, and what `GetAll` may list of them;
- `recentScreenshotHashes`: the rounds, each of which asks for as many as are wanted;
- `MostRelevant`: what the hashes are taken to be;
- `recentScreenshotHashes_mostRelevant`: they are that, in any datastore whose queries
  succeed.
-/

namespace WptFyi.Screenshots

open Lib Lib.Fallback

/-- `MaxItemsInResponse`. -/
def maxItemsInResponse : Int := 10000

/-- The fields of `Screenshot` that are read here. -/
structure Screenshot where
  hashDigest : String
  hashMethod : String
  labels : List String
  lastUsed : Int
deriving DecidableEq

/-- `Hash`. -/
def Screenshot.hash (s : Screenshot) : String := s.hashMethod ++ ":" ++ s.hashDigest

/-- A query for screenshots: `Labels =` for every label, by `-LastUsed`, and the limit. -/
structure Query where
  labels : List String
  limit : Int
deriving DecidableEq

/-- The screenshot has all labels. -/
def hasLabels (labels : List String) (s : Screenshot) : Bool :=
  labels.all fun l => decide (l ∈ s.labels)

/-- A store of screenshots. What was used at the same time is listed in any order, which
may be another one for another query. -/
structure Datastore where
  screenshots : List Screenshot
  getAll : Query → Except String (List Screenshot)
  getAll_spec : ∀ q hits, 0 ≤ q.limit → getAll q = .ok hits →
    Answers screenshots Screenshot.lastUsed q.limit.toNat (hasLabels q.labels) hits

/-- The loop over the hits of a round. -/
def addHits (totalLimit : Int) : Finset String → List Screenshot → Finset String
  | all, [] => all
  | all, s :: hits =>
    let all := insert s.hash all
    if (all.card : Int) = totalLimit then all else addHits totalLimit all hits

/-- The rounds of `RecentScreenshotHashes`. -/
def rounds (ds : Datastore) (totalLimit : Int) (labels : List String) (all : Finset String) :
    Finset String × Option String :=
  if (all.card : Int) < totalLimit then
    match ds.getAll ⟨labels, totalLimit⟩ with
    | .error err => (all, some err)
    | .ok hits =>
      match labels with
      | [] => (addHits totalLimit all hits, none)
      | _ :: labels => rounds ds totalLimit labels (addHits totalLimit all hits)
  else (all, none)

/-- The labels that are not empty, the least important first. -/
def importantLast (browser browserVersion os osVersion : String) : List String :=
  [osVersion, browserVersion, os, browser].filter fun l => decide (l ≠ "")

/-- `RecentScreenshotHashes`. -/
def recentScreenshotHashes (ds : Datastore) (toStringSlice : RangeOrder String)
    (browser browserVersion os osVersion : String) (limit : Option Int) :
    List String × Option String :=
  let totalLimit := limit.getD maxItemsInResponse
  let labels := importantLast browser browserVersion os osVersion
  let (all, err) := rounds ds totalLimit labels ∅
  ((toStringSlice all).1, err)

/-! ## What is returned -/

/-- How many labels are dropped before the screenshot is among those asked for. -/
def dropped (labels : List String) (s : Screenshot) : Nat :=
  labels.tails.findIdx fun set => hasLabels set s

/-- The hashes of screenshots from a store, as many as there are or as are wanted, those
with more of the labels first, and of those with as many the ones used last. -/
structure MostRelevant (screenshots : List Screenshot) (labels : List String) (limit : Nat)
    (hashes : List String) : Prop where
  nodup : hashes.Nodup
  length_eq : hashes.length = min limit screenshots.length
  stored : ∀ hash ∈ hashes, ∃ s ∈ screenshots, s.hash = hash
  /-- who needs fewer labels to be dropped comes first -/
  labelled : ∀ s ∈ screenshots, ∀ t ∈ screenshots, s.hash ∈ hashes →
    dropped labels t < dropped labels s → t.hash ∈ hashes
  recent : ∀ s ∈ screenshots, ∀ t ∈ screenshots, s.hash ∈ hashes →
    dropped labels t = dropped labels s → s.lastUsed < t.lastUsed → t.hash ∈ hashes

/-! ## The rounds are a fallback

The rounds drop one label after the other, so the screenshots that each of them asks for include
those of the round before. That is the fallback of the library. -/

section Rounds

variable {ds : Datastore} {totalLimit : Int}

theorem addHits_eq (hlimit : 0 ≤ totalLimit) (all : Finset String) (hits : List Screenshot) :
    addHits totalLimit all hits = addUntil Screenshot.hash totalLimit.toNat all hits := by
  induction hits generalizing all with
  | nil => rfl
  | cons s hits ih =>
    have hiff : ((insert s.hash all).card : Int) = totalLimit ↔
        (insert s.hash all).card = totalLimit.toNat := by omega
    simp only [addHits, addUntil, hiff, ih]

/-- If no query fails, no round does, and their hits are answers along the chain. -/
theorem rounds_eq (hlimit : 0 ≤ totalLimit) (hok : ∀ q, ∃ hits, ds.getAll q = .ok hits)
    (labels : List String) (all : Finset String) :
    ∃ answers, List.Forall₂ (fun cond hits =>
        Answers ds.screenshots Screenshot.lastUsed totalLimit.toNat cond hits)
        (labels.tails.map hasLabels) answers ∧
      rounds ds totalLimit labels all =
        (fallback Screenshot.hash totalLimit.toNat answers all, none) := by
  have hiff : ∀ all : Finset String,
      ((all.card : Int) < totalLimit ↔ all.card < totalLimit.toNat) := by
    intro all
    omega
  induction labels generalizing all with
  | nil =>
    obtain ⟨hits, hhits⟩ := hok ⟨[], totalLimit⟩
    have hans := ds.getAll_spec _ _ hlimit hhits
    refine ⟨[hits], List.Forall₂.cons hans List.Forall₂.nil, ?_⟩
    rw [rounds, fallback, hhits]
    simp only [hiff, addHits_eq hlimit, fallback]
    split <;> rfl
  | cons l labels ih =>
    obtain ⟨hits, hhits⟩ := hok ⟨l :: labels, totalLimit⟩
    have hans := ds.getAll_spec _ _ hlimit hhits
    -- the rounds that follow ask for fewer labels
    obtain ⟨answers, hanswers, heq⟩ := ih (addHits totalLimit all hits)
    refine ⟨hits :: answers, ?_, ?_⟩
    · rw [List.tails_cons, List.map_cons]
      exact List.Forall₂.cons hans hanswers
    · rw [addHits_eq hlimit] at heq
      rw [rounds, fallback, hhits]
      simp only [hiff, addHits_eq hlimit, heq]
      split <;> rfl

/-- With a label less there is more that has them all. -/
theorem hasLabels_of_suffix {labels labels' : List String} (h : labels' <:+ labels)
    {s : Screenshot} (hs : hasLabels labels s) : hasLabels labels' s := by
  rw [hasLabels, List.all_eq_true] at hs ⊢
  intro l hl
  exact hs l (h.subset hl)

/-- Of the label sets that are asked for, one after the other, each has the next. -/
theorem tails_chain (labels : List String) :
    (labels.tails.map hasLabels).Pairwise fun p q => ∀ s, p s → q s := by
  induction labels with
  | nil => exact List.pairwise_singleton _ _
  | cons l labels ih =>
    rw [List.tails_cons, List.map_cons]
    refine List.Pairwise.cons ?_ ih
    intro cond hcond s hs
    obtain ⟨labels', hsuffix, rfl⟩ := List.mem_map.mp hcond
    refine hasLabels_of_suffix ?_ hs
    exact ((List.mem_tails _ _).mp hsuffix).trans (List.suffix_cons l labels)

/-- In the end no label is asked for. -/
theorem tails_getLast (cond : Screenshot → Bool) (labels : List String) :
    (cond :: labels.tails.map hasLabels).getLast (List.cons_ne_nil _ _) = fun _ => true := by
  induction labels generalizing cond with
  | nil => rfl
  | cons l labels ih =>
    rw [List.getLast_cons (by simp)]
    simp only [List.tails_cons, List.map_cons]
    exact ih _

end Rounds

theorem findIdx_map_hasLabels (sets : List (List String)) (s : Screenshot) :
    (sets.map hasLabels).findIdx (· s) = sets.findIdx fun set => hasLabels set s :=
  List.findIdx_map _ _ _

/-- What is collected along the chain of the label sets is most relevant. -/
theorem MostRelevant.of_collected {screenshots : List Screenshot}
    (hdistinct : (screenshots.map Screenshot.hash).Nodup) {labels : List String} {limit : Nat}
    {all : Finset String}
    (hall : Collected screenshots Screenshot.hash Screenshot.lastUsed limit (fun _ => false)
      (labels.tails.map hasLabels) all) (toStringSlice : RangeOrder String) :
    MostRelevant screenshots labels limit (toStringSlice all).1 := by
  -- the last round asks for no label, so it can answer with every screenshot
  have hcomplete := hall.complete
  rw [tails_getLast] at hcomplete
  have hcard := card_keysWhere_true hdistinct
  have hranked := hall.ranked
  simp only [findIdx_map_hasLabels, ← mem_rangeOrder toStringSlice all] at hranked
  have hnodup := (toStringSlice all).2.1
  refine ⟨hnodup, ?_, ?_, ?_, ?_⟩
  · rw [← List.toFinset_card_of_nodup hnodup, (toStringSlice all).2.2, ← hcard]
    rcases hcomplete with ⟨hsub, hfull | ⟨hfew, heq⟩⟩
    · have hle := Finset.card_le_card hsub
      omega
    · rw [← heq]
      omega
  · intro hash hmem
    obtain ⟨s, hs, -, heq⟩ :=
      mem_keysWhere.mp (hcomplete.1 ((mem_rangeOrder toStringSlice all hash).mp hmem))
    exact ⟨s, hs, heq⟩
  · intro s hs t ht hmem hlt
    exact hranked s hs t ht hmem Bool.false_ne_true (Or.inl hlt)
  · intro s hs t ht hmem heq hused
    exact hranked s hs t ht hmem Bool.false_ne_true (Or.inr ⟨heq, hused⟩)

/-- **Recent screenshots**, when no query fails. -/
theorem recentScreenshotHashes_mostRelevant (ds : Datastore)
    (hdistinct : (ds.screenshots.map Screenshot.hash).Nodup)
    (hok : ∀ q, ∃ hits, ds.getAll q = .ok hits) (toStringSlice : RangeOrder String)
    (browser browserVersion os osVersion : String) (limit : Option Int)
    (hlimit : 0 ≤ limit.getD maxItemsInResponse) :
    ∃ hashes,
      recentScreenshotHashes ds toStringSlice browser browserVersion os osVersion limit =
        (hashes, none) ∧
      MostRelevant ds.screenshots (importantLast browser browserVersion os osVersion)
        (limit.getD maxItemsInResponse).toNat hashes := by
  obtain ⟨answers, hans, hrounds⟩ := rounds_eq hlimit hok
    (importantLast browser browserVersion os osVersion) ∅
  have hchain : ((fun _ => false) :: (importantLast browser browserVersion os osVersion).tails.map
      hasLabels).Pairwise fun p q => ∀ s, p s → q s :=
    List.Pairwise.cons (fun _ _ _ hfalse => absurd hfalse Bool.false_ne_true) (tails_chain _)
  have hall := fallback_spec hdistinct hans hchain (by simp [keysWhere_false])
  rw [keysWhere_false] at hall
  refine ⟨_, ?_, MostRelevant.of_collected hdistinct hall toStringSlice⟩
  rw [recentScreenshotHashes, hrounds]

/-- A datastore that lists what was used at the same time as it is stored. -/
def Datastore.ofScreenshots (screenshots : List Screenshot) : Datastore where
  screenshots := screenshots
  getAll q := .ok (((screenshots.filter (hasLabels q.labels)).insertionSort
    fun s t => t.lastUsed ≤ s.lastUsed).take q.limit.toNat)
  getAll_spec := by
    intro q hits _ hhits
    cases hhits
    exact answers_insertionSort screenshots Screenshot.lastUsed _ _

/-- Three screenshots, of which two have the browser and one has the version, too. -/
def browserScreenshots : List Screenshot :=
  [⟨"0001", "sha1", ["chrome", "64"], 1⟩, ⟨"0002", "sha1", ["chrome"], 2⟩,
    ⟨"0003", "sha1", [], 3⟩]

theorem recentScreenshotHashes_mostRelevant_browser :
    ∃ hashes,
      recentScreenshotHashes (.ofScreenshots browserScreenshots)
        (sortedOrder id Function.injective_id) "chrome" "64" "" "" (some 2) = (hashes, none) ∧
      MostRelevant browserScreenshots (importantLast "chrome" "64" "" "") 2 hashes :=
  recentScreenshotHashes_mostRelevant (.ofScreenshots browserScreenshots) (by decide)
    (fun _ => ⟨_, rfl⟩) _ _ _ _ _ (some 2) (by decide)

end WptFyi.Screenshots
