import WptFyi.Cache.Filter

/-!
# What a filter accepts

A row is what a filter can learn about a `TestID`: its names and its result in
each run. `holds` evaluates a concrete query on a row, without an index and
without panics.

This is where searches leave the index behind. A filter looks up names and results by a `TestID` in
the maps of one shard; a row has them at hand, and a row can just as well be made from the reports
of some runs (`naiveRow`). So a statement about `holds` is one about both, and the index and the
reference can be compared query by query without going into either. Two atoms ask for more than a
name or a result: `is:different` compares the results of all runs of the request, and the
web-feature and label atoms ask for metadata, which the query itself carries.

- `holds`: a concrete query on a row, by recursion on the query;
- `Index.row`: the row of a `TestID` in an index;
- `newFilter_eq`: on a `TestID` of an index that has the runs of the query, the
  filter gives what the query gives on the row of that `TestID`.
-/

namespace WptFyi.Cache

open Lib Query Shared

/-- A row of results; `runs` are the runs of the request, which `is:different`
compares. -/
structure Row where
  name : Option TestName
  result : RunID → ResultID
  runs : Finset RunID

/-- A condition on the names of a row: false for a row without. -/
def Row.nameSatisfies (row : Row) (p : TestName → Bool) : Bool :=
  match row.name with
  | none => false
  | some n => p n

/-- `is:` on a row. -/
def Row.hasQuality (row : Row) (quality : MetadataQuality) : Bool :=
  match quality with
  | .different => decide (1 < (row.runs.image row.result).card)
  | quality => row.nameSatisfies (qualityMatches quality)

mutual

/-- A concrete query on a row. -/
def holds (cases : CaseMapping) (row : Row) : ConcreteQuery → Bool
  | .trueQ => true
  | .falseQ => false
  | .testNamePattern pattern => row.nameSatisfies (testNamePatternMatches cases pattern)
  | .subtestNamePattern subtest => row.nameSatisfies (subtestNamePatternMatches cases subtest)
  | .testPath path => row.nameSatisfies (testPathMatches path)
  | .runTestStatusEq run status => row.result run == status
  | .runTestStatusNeq run status => row.result run != status
  | .count n args => ((holdsArgs cases row args).count true : Int) == n
  | .lessThan n args => decide (((holdsArgs cases row args).count true : Int) < n)
  | .moreThan n args => decide (((holdsArgs cases row args).count true : Int) > n)
  | .link pattern metadata => row.nameSatisfies (linkMatches pattern metadata)
  | .triaged _ metadata => row.nameSatisfies (triagedMatches metadata)
  | .testLabel label metadata => row.nameSatisfies (testLabelMatches cases label metadata)
  | .testWebFeature webFeature data =>
    row.nameSatisfies (testWebFeatureMatches cases webFeature data)
  | .metadataQuality quality => row.hasQuality quality
  | .and args => (holdsArgs cases row args).all id
  | .or args => (holdsArgs cases row args).any id
  | .not arg => !holds cases row arg

/-- A list of queries on a row. -/
def holdsArgs (cases : CaseMapping) (row : Row) : List ConcreteQuery → List Bool
  | [] => []
  | q :: qs => holds cases row q :: holdsArgs cases row qs

end

theorem holdsArgs_eq_map (cases : CaseMapping) (row : Row) (qs : List ConcreteQuery) :
    holdsArgs cases row qs = qs.map (holds cases row) := by
  induction qs with
  | nil => rfl
  | cons q qs ih => rw [holdsArgs, ih, List.map_cons]

@[simp] theorem holds_trueQ (cases : CaseMapping) (row : Row) : holds cases row .trueQ = true := rfl

@[simp] theorem holds_falseQ (cases : CaseMapping) (row : Row) :
    holds cases row .falseQ = false := rfl

theorem holds_and (cases : CaseMapping) (row : Row) (args : List ConcreteQuery) :
    holds cases row (.and args) = true ↔ ∀ q ∈ args, holds cases row q = true := by
  simp [holds, holdsArgs_eq_map]

theorem holds_or (cases : CaseMapping) (row : Row) (args : List ConcreteQuery) :
    holds cases row (.or args) = true ↔ ∃ q ∈ args, holds cases row q = true := by
  simp [holds, holdsArgs_eq_map]

theorem holds_not (cases : CaseMapping) (row : Row) (arg : ConcreteQuery) :
    holds cases row (.not arg) = true ↔ ¬ holds cases row arg = true := by
  simp [holds]

/-- How many arguments of a count hold. -/
theorem count_holdsArgs (cases : CaseMapping) (row : Row) (args : List ConcreteQuery) :
    (holdsArgs cases row args).count true = args.countP (holds cases row) := by
  rw [holdsArgs_eq_map, List.count_eq_countP, List.countP_map]
  congr 1
  funext q
  simp

/-! ## Filters and rows

What each filter says of a test, as a question about its row: its name and the status that each run
has for it. -/

/-- The row of a `TestID` in an index. -/
def Index.row (idx : Index) (t : TestID) : Row where
  name := idx.tests.lookup t
  result := fun run => RunResults.getResult ((idx.runResults.lookup run).getD ∅) t
  runs := idx.runResults.keys

theorem Index.result_row {idx : Index} {run : RunID} {rrs : RunResults}
    (h : idx.runResults.lookup run = some rrs) (t : TestID) :
    (idx.row t).result run = rrs.getResult t := by
  simp only [Index.row, h, Option.getD_some]

theorem nameFilter_eq (idx : Index) (p : TestName → Bool) (t : TestID) :
    nameFilter idx p t = some ((idx.row t).nameSatisfies p) := by
  unfold nameFilter Row.nameSatisfies Index.row
  cases idx.tests.lookup t <;> rfl

theorem resultFilter_eq {idx : Index} {run : RunID} (h : run ∈ idx.runResults)
    (p : ResultID → Bool) (t : TestID) :
    resultFilter idx run p t = some (p ((idx.row t).result run)) := by
  obtain ⟨rrs, hrrs⟩ := Finmap.mem_iff.mp h
  rw [resultFilter, Index.result_row hrrs, hrrs]
  rfl

/-- The results of a row are those of the runs that know it. -/
theorem resultSet_eq (idx : Index) (t : TestID) :
    resultSet idx t = (idx.row t).runs.image (idx.row t).result := by
  ext re
  rw [resultSet, Multiset.mem_toFinset, Multiset.mem_map, Finset.mem_image]
  constructor
  · rintro ⟨⟨run, rrs⟩, hmem, rfl⟩
    have hlookup : idx.runResults.lookup run = some rrs := Finmap.lookup_eq_some_iff.mpr hmem
    exact ⟨run, Finmap.mem_keys.mpr (Finmap.mem_of_lookup_eq_some hlookup),
      Index.result_row hlookup t⟩
  · rintro ⟨run, hrun, rfl⟩
    obtain ⟨rrs, hrrs⟩ := Finmap.mem_iff.mp (Finmap.mem_keys.mp hrun)
    exact ⟨⟨run, rrs⟩, Finmap.lookup_eq_some_iff.mp hrrs, (Index.result_row hrrs t).symm⟩

theorem qualityFilter_eq (idx : Index) (quality : MetadataQuality) (t : TestID) :
    qualityFilter idx quality t = some ((idx.row t).hasQuality quality) := by
  cases quality with
  | different => simp only [qualityFilter, Row.hasQuality, resultSet_eq]
  | unknown => exact nameFilter_eq idx _ t
  | tentative => exact nameFilter_eq idx _ t
  | optional => exact nameFilter_eq idx _ t

section Loops

variable {fs : List Filter} {bs : List Bool} {t : TestID}

/-- A conjunction of filters that return a value returns the conjunction of the values. -/
theorem andFilter_eq (h : fs.map (· t) = bs.map some) : andFilter fs t = some (bs.all id) := by
  induction fs generalizing bs with
  | nil =>
    obtain rfl : bs = [] := by simpa using h.symm
    rfl
  | cons f fs ih =>
    obtain ⟨b, bs, rfl⟩ : ∃ b bs', bs = b :: bs' := by
      cases bs with
      | nil => simp at h
      | cons b bs => exact ⟨b, bs, rfl⟩
    obtain ⟨hf, hfs⟩ := List.cons.inj h
    cases b with
    | true => simp [andFilter, hf, ih hfs]
    | false => simp [andFilter, hf]

/-- So does a disjunction. -/
theorem orFilter_eq (h : fs.map (· t) = bs.map some) : orFilter fs t = some (bs.any id) := by
  induction fs generalizing bs with
  | nil =>
    obtain rfl : bs = [] := by simpa using h.symm
    rfl
  | cons f fs ih =>
    obtain ⟨b, bs, rfl⟩ : ∃ b bs', bs = b :: bs' := by
      cases bs with
      | nil => simp at h
      | cons b bs => exact ⟨b, bs, rfl⟩
    obtain ⟨hf, hfs⟩ := List.cons.inj h
    cases b with
    | true => simp [orFilter, hf]
    | false => simp [orFilter, hf, ih hfs]

/-- The number of filters that accept. -/
theorem countMatches_eq (h : fs.map (· t) = bs.map some) :
    countMatches fs t = some (bs.count true) := by
  induction fs generalizing bs with
  | nil =>
    obtain rfl : bs = [] := by simpa using h.symm
    rfl
  | cons f fs ih =>
    obtain ⟨b, bs, rfl⟩ : ∃ b bs', bs = b :: bs' := by
      cases bs with
      | nil => simp at h
      | cons b bs => exact ⟨b, bs, rfl⟩
    obtain ⟨hf, hfs⟩ := List.cons.inj h
    cases b <;> simp [countMatches, hf, ih hfs]

end Loops

mutual

/-- **Filters evaluate queries**: a filter over an index that has the query's
runs does not panic, and accepts a `TestID` when the query holds on its row. -/
theorem newFilter_eq (cases : CaseMapping) (idx : Index) (t : TestID) :
    ∀ q : ConcreteQuery, (∀ run ∈ q.runIDs, run ∈ idx.runResults) →
      newFilter cases idx q t = some (holds cases (idx.row t) q)
  | .trueQ, _ => rfl
  | .falseQ, _ => rfl
  | .testNamePattern _, _ => nameFilter_eq idx _ t
  | .subtestNamePattern _, _ => nameFilter_eq idx _ t
  | .testPath _, _ => nameFilter_eq idx _ t
  | .runTestStatusEq run status, hruns =>
    resultFilter_eq (hruns run (by simp [ConcreteQuery.runIDs])) (fun re => re == status) t
  | .runTestStatusNeq run status, hruns =>
    resultFilter_eq (hruns run (by simp [ConcreteQuery.runIDs])) (fun re => re != status) t
  | .count _ args, hruns => by
    rw [newFilter, countFilter, countMatches_eq (filters_eq cases idx t args hruns)]
    rfl
  | .lessThan _ args, hruns => by
    rw [newFilter, countFilter, countMatches_eq (filters_eq cases idx t args hruns)]
    rfl
  | .moreThan _ args, hruns => by
    rw [newFilter, countFilter, countMatches_eq (filters_eq cases idx t args hruns)]
    rfl
  | .link _ _, _ => nameFilter_eq idx _ t
  | .triaged _ _, _ => nameFilter_eq idx _ t
  | .testLabel _ _, _ => nameFilter_eq idx _ t
  | .testWebFeature _ _, _ => nameFilter_eq idx _ t
  | .metadataQuality quality, _ => qualityFilter_eq idx quality t
  | .and args, hruns => andFilter_eq (filters_eq cases idx t args hruns)
  | .or args, hruns => orFilter_eq (filters_eq cases idx t args hruns)
  | .not arg, hruns => by
    simp only [newFilter, holds, newFilter_eq cases idx t arg hruns, Option.map_some]

theorem filters_eq (cases : CaseMapping) (idx : Index) (t : TestID) :
    ∀ qs : List ConcreteQuery, (∀ run ∈ ConcreteQuery.runIDsOfArgs qs, run ∈ idx.runResults) →
      (filters cases idx qs).map (· t) = (holdsArgs cases (idx.row t) qs).map some
  | [], _ => rfl
  | q :: qs, hruns => by
    have hq := newFilter_eq cases idx t q fun run h =>
      hruns run (List.mem_append_left _ h)
    have hqs := filters_eq cases idx t qs fun run h =>
      hruns run (List.mem_append_right _ h)
    rw [filters, holdsArgs, List.map_cons, List.map_cons, hq, hqs]

end

end WptFyi.Cache
