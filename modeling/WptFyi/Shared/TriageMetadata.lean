import WptFyi.Shared.Metadata

/-!
# Triage (`shared/triage_metadata.go`)

A triage request submits metadata by test; `addToFiles` puts it back into the
folder shape, merging a submitted link into an existing one of its folder where
it can. The test for that is `MatchesProductSpec`, which selects runs by a
product and is not an equality of products.

So a link may be merged into one of a more general product, and then its results are there for that
product. What the merge does is followed link by link: every submitted link is placed somewhere,
under its own product or that of the link which takes it, and nothing that was there before is
changed. The flattening then grows by what the placements say, whatever the order of the tests.

- `addToFiles`: the source's two loops, visiting the submitted tests in a given
  order. No slice it appends to is read again through another name, so links
  and results are plain lists;
- `placements`: for each submitted link, the product it ends up under;
- `flatten_updateFiles`: the flattening grows by the submitted entries, each
  under the product of its placement.
-/

namespace WptFyi.Shared

open Lib Lib.GoStrings

/-- A submission: the tests in visiting order, with their links. -/
abbrev Submission := List (String × List MetadataLink)

/-- The folder a test's metadata goes to. -/
def folderOf (test : String) : String := (splitWPTTestPath test).1

/-- `appendTestName`: fill in the test name of every result; a link without
results gets one for the whole test. -/
def appendTestName (test : String) (links : List MetadataLink) : List MetadataLink :=
  let testName := (splitWPTTestPath test).2
  links.map fun link =>
    if link.results = [] then { link with results := [{ testPath := testName }] }
    else { link with results := link.results.map fun result =>
      { result with testPath := testName } }

/-- The test for merging a submitted link into an existing one. -/
def MetadataLink.mergesInto (link existingLink : MetadataLink) : Bool :=
  link.url == existingLink.url && link.product.matchesProductSpec existingLink.product &&
    link.label == existingLink.label

/-- The loop over the existing links: add the results to the first link that
the submitted one merges into, or the link itself at the end. -/
def mergeLink : List MetadataLink → MetadataLink → List MetadataLink
  | [], link => [link]
  | existingLink :: rest, link =>
    if link.mergesInto existingLink then
      { existingLink with results := existingLink.results ++ link.results } :: rest
    else existingLink :: mergeLink rest link

/-- One test of the first loop of `addToFiles`. -/
def addTest (filesMap : GoMap String Metadata) (test : String) (links : List MetadataLink) :
    GoMap String Metadata :=
  let folderName := folderOf test
  let links := appendTestName test links
  match filesMap.lookup folderName with
  -- the META.yml does not exist in the repository
  | none => filesMap.insert folderName ⟨links⟩
  | some existing => filesMap.insert folderName ⟨links.foldl mergeLink existing.links⟩

section AddTest

variable {filesMap : GoMap String Metadata} {test : String} (links : List MetadataLink)

theorem addTest_of_lookup_eq_none (h : filesMap.lookup (folderOf test) = none) :
    addTest filesMap test links =
      filesMap.insert (folderOf test) ⟨appendTestName test links⟩ := by
  simp only [addTest, h]

theorem addTest_of_lookup_eq_some {existing : Metadata}
    (h : filesMap.lookup (folderOf test) = some existing) :
    addTest filesMap test links = filesMap.insert (folderOf test)
      ⟨(appendTestName test links).foldl mergeLink existing.links⟩ := by
  simp only [addTest, h]

end AddTest

/-- The files map after the first loop of `addToFiles`. -/
def updateFiles (filesMap : GoMap String Metadata) (order : Submission) : GoMap String Metadata :=
  order.foldl (fun filesMap entry => addTest filesMap entry.1 entry.2) filesMap

/-- `addToFiles`: the updated files map and the new contents of the touched
files. A file that `marshal` fails on is left out. -/
def addToFiles {ε : Type*} (marshal : Metadata → Except ε String)
    (filesMap : GoMap String Metadata) (order : Submission) :
    GoMap String Metadata × GoMap String String :=
  let filesMap := updateFiles filesMap order
  let res := order.foldl (fun res entry =>
    let folderName := folderOf entry.1
    match marshal ((filesMap.lookup folderName).getD ⟨[]⟩) with
    | .error _ => res
    | .ok metadataBytes => res.insert folderName metadataBytes) ∅
  (filesMap, res)

/-! ## What is submitted -/

/-- The entries of a submitted link, under the given test and product: one for
the whole test when it has no results. -/
def submittedLinkEntries (test : String) (product : ProductSpec) (link : MetadataLink) :
    Multiset MetadataEntry :=
  if link.results = [] then {entryOf test product link {}}
  else link.results.map (entryOf test product link)

/-- The entries a submission asks for. -/
def submittedEntries (order : Submission) : Multiset MetadataEntry :=
  (order.map fun entry => (entry.2.map fun link =>
    submittedLinkEntries entry.1 link.product link).sum).sum

/-! ## Where a link ends up -/

/-- The product whose link takes a submitted link's results. -/
def targetProduct (existing : List MetadataLink) (link : MetadataLink) : ProductSpec :=
  match existing.find? link.mergesInto with
  | none => link.product
  | some existingLink => existingLink.product

/-- A link with its test name filled in, the test it was submitted for and the
product it ended up under. -/
structure Placement where
  test : String
  link : MetadataLink
  target : ProductSpec

/-- The placements of links that are merged one after the other. -/
def mergePlacements (test : String) : List MetadataLink → List MetadataLink → List Placement
  | _, [] => []
  | existing, link :: links =>
    ⟨test, link, targetProduct existing link⟩ ::
      mergePlacements test (mergeLink existing link) links

/-- The placements of one test's links. -/
def testPlacements (filesMap : GoMap String Metadata) (test : String)
    (links : List MetadataLink) : List Placement :=
  match filesMap.lookup (folderOf test) with
  | none => (appendTestName test links).map fun link => ⟨test, link, link.product⟩
  | some existing => mergePlacements test existing.links (appendTestName test links)

/-- The placements of a whole submission. -/
def placements : GoMap String Metadata → Submission → List Placement
  | _, [] => []
  | filesMap, (test, links) :: rest =>
    testPlacements filesMap test links ++ placements (addTest filesMap test links) rest

namespace Placement

/-- The entry that a result becomes in the flattening. -/
def landedEntry (pl : Placement) (result : MetadataTestResult) : MetadataEntry :=
  entryOf (getWPTTestPath (folderOf pl.test) (splitWPTTestPath pl.test).2) pl.target pl.link result

/-- The entry that a result was submitted as. -/
def wantedEntry (pl : Placement) (result : MetadataTestResult) : MetadataEntry :=
  entryOf pl.test pl.link.product pl.link result

/-- The entries the flattening gains. -/
def landed (pl : Placement) : List MetadataEntry := pl.link.results.map pl.landedEntry

/-- The entries that were submitted. -/
def wanted (pl : Placement) : List MetadataEntry := pl.link.results.map pl.wantedEntry

end Placement

/-! ## One submitted link -/

/-- A link whose results all carry the test's name, and that has some. -/
def Named (test : String) (link : MetadataLink) : Prop :=
  link.results ≠ [] ∧ ∀ result ∈ link.results, result.testPath = (splitWPTTestPath test).2

theorem named_of_mem_appendTestName {test : String} {links : List MetadataLink}
    {link : MetadataLink} (h : link ∈ appendTestName test links) : Named test link := by
  obtain ⟨submitted, _, rfl⟩ := List.mem_map.mp h
  by_cases hresults : submitted.results = []
  · rw [if_pos hresults]
    exact ⟨List.cons_ne_nil _ _, by simp⟩
  · rw [if_neg hresults]
    exact ⟨by simpa using hresults, by simp⟩

/-- A link's results merged into a folder land under the target product. -/
theorem sum_linkEntries_mergeLink (folder : String) (existing : List MetadataLink)
    (link : MetadataLink) :
    ((mergeLink existing link).map (linkEntries folder)).sum =
      (existing.map (linkEntries folder)).sum +
        link.results.map fun result => entryOf (getWPTTestPath folder result.testPath)
          (targetProduct existing link) link result := by
  induction existing with
  | nil => simp [mergeLink, targetProduct, linkEntries]
  | cons existingLink rest ih =>
    by_cases hmerge : link.mergesInto existingLink = true
    · have hurl : link.url = existingLink.url ∧ link.label = existingLink.label := by
        simp only [MetadataLink.mergesInto, Bool.and_eq_true, beq_iff_eq] at hmerge
        exact ⟨hmerge.1.1, hmerge.2⟩
      have htarget : targetProduct (existingLink :: rest) link = existingLink.product := by
        simp [targetProduct, hmerge]
      rw [mergeLink, if_pos hmerge, htarget]
      simp only [List.map_cons, List.sum_cons, linkEntries, List.map_append, ← Multiset.coe_add,
        entryOf, hurl.1, hurl.2]
      abel
    · have htarget : targetProduct (existingLink :: rest) link = targetProduct rest link := by
        simp [targetProduct, hmerge]
      rw [mergeLink, if_neg hmerge, htarget, List.map_cons, List.sum_cons, ih, List.map_cons,
        List.sum_cons, add_assoc]

/-- The results of a named link land as its placement says. -/
theorem Named.landed_eq {test : String} {link : MetadataLink} (h : Named test link)
    (target : ProductSpec) :
    (link.results.map fun result => entryOf (getWPTTestPath (folderOf test) result.testPath)
      target link result) = Placement.landed ⟨test, link, target⟩ := by
  refine List.map_congr_left fun result hresult => ?_
  rw [h.2 result hresult]
  rfl

/-- A submitted link asks for the entries its placement lists. -/
theorem sum_submittedLinkEntries (test : String) (links : List MetadataLink) :
    (links.map fun link => submittedLinkEntries test link.product link).sum =
      ((appendTestName test links).map fun link =>
        (Placement.wanted ⟨test, link, link.product⟩ : Multiset MetadataEntry)).sum := by
  rw [appendTestName, List.map_map]
  congr 1
  refine List.map_congr_left fun link _ => ?_
  by_cases hresults : link.results = []
  · simp [submittedLinkEntries, Placement.wanted, Placement.wantedEntry, hresults, entryOf]
  · simp only [Function.comp_apply, submittedLinkEntries, if_neg hresults, Placement.wanted,
      List.map_map]
    rfl

/-! ## One test -/

/-- Merging the links of a test adds to the entries of a folder what their placements say. -/
theorem sum_linkEntries_foldl_mergeLink {test : String} {links : List MetadataLink}
    (hnamed : ∀ link ∈ links, Named test link) (existing : List MetadataLink) :
    ((links.foldl mergeLink existing).map (linkEntries (folderOf test))).sum =
      (existing.map (linkEntries (folderOf test))).sum +
        ((mergePlacements test existing links).map fun pl =>
          (pl.landed : Multiset MetadataEntry)).sum := by
  induction links generalizing existing with
  | nil => simp [mergePlacements]
  | cons link links ih =>
    obtain ⟨hlink, hlinks⟩ := List.forall_mem_cons.mp hnamed
    rw [List.foldl_cons, ih hlinks, sum_linkEntries_mergeLink, hlink.landed_eq, mergePlacements,
      List.map_cons, List.sum_cons, add_assoc]

/-- **One test**: its folder gains the entries of its links as they were placed, and the other
folders stay as they are. -/
theorem flatten_addTest (filesMap : GoMap String Metadata) (test : String)
    (links : List MetadataLink) :
    flatten (addTest filesMap test links) = flatten filesMap +
      ((testPlacements filesMap test links).map fun pl =>
        (pl.landed : Multiset MetadataEntry)).sum := by
  have hnamed : ∀ link ∈ appendTestName test links, Named test link :=
    fun _ => named_of_mem_appendTestName
  unfold flatten testPlacements
  cases hlookup : filesMap.lookup (folderOf test) with
  | none =>
    have hfresh : folderOf test ∉ filesMap := Finmap.lookup_eq_none.mp hlookup
    rw [addTest_of_lookup_eq_none links hlookup, GoMap.bindEntries_insert_of_notMem _ hfresh,
      add_comm, folderEntries, List.map_map]
    congr 2
    refine List.map_congr_left fun link hlink => ?_
    exact congrArg _ ((hnamed link hlink).landed_eq link.product)
  | some existing =>
    rw [addTest_of_lookup_eq_some links hlookup]
    refine GoMap.bindEntries_insert_of_lookup _ hlookup ?_
    exact sum_linkEntries_foldl_mergeLink hnamed existing.links

/-- **Every order**: the flattening grows by what the placements list. -/
theorem flatten_updateFiles (filesMap : GoMap String Metadata) (order : Submission) :
    flatten (updateFiles filesMap order) = flatten filesMap +
      ((placements filesMap order).map fun pl => (pl.landed : Multiset MetadataEntry)).sum := by
  induction order generalizing filesMap with
  | nil => simp [updateFiles, placements]
  | cons entry rest ih =>
    show flatten (updateFiles (addTest filesMap entry.1 entry.2) rest) = _
    rw [ih, flatten_addTest, placements, List.map_append, List.sum_append, add_assoc]

/-! ## What the placements were submitted for -/

theorem map_wanted_mergePlacements (test : String) (existing links : List MetadataLink) :
    (mergePlacements test existing links).map Placement.wanted =
      links.map fun link => Placement.wanted ⟨test, link, link.product⟩ := by
  induction links generalizing existing with
  | nil => rfl
  | cons link links ih =>
    rw [mergePlacements, List.map_cons, ih]
    rfl

theorem map_wanted_testPlacements (filesMap : GoMap String Metadata) (test : String)
    (links : List MetadataLink) :
    (testPlacements filesMap test links).map Placement.wanted =
      (appendTestName test links).map fun link => Placement.wanted ⟨test, link, link.product⟩ := by
  unfold testPlacements
  cases filesMap.lookup (folderOf test) with
  | none => rw [List.map_map]; rfl
  | some existing => exact map_wanted_mergePlacements test existing.links _

/-- The placements were submitted for the entries of the submission. -/
theorem sum_wanted_placements (filesMap : GoMap String Metadata) (order : Submission) :
    ((placements filesMap order).map fun pl => (pl.wanted : Multiset MetadataEntry)).sum =
      submittedEntries order := by
  induction order generalizing filesMap with
  | nil => rfl
  | cons entry rest ih =>
    have htest := congrArg (List.map fun l : List MetadataEntry => (l : Multiset MetadataEntry))
      (map_wanted_testPlacements filesMap entry.1 entry.2)
    rw [List.map_map, List.map_map] at htest
    rw [placements, List.map_append, List.sum_append, ih, submittedEntries, submittedEntries,
      List.map_cons, List.sum_cons, sum_submittedLinkEntries]
    congr 2

end WptFyi.Shared
