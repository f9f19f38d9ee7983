import WptFyi.Shared.TriageMetadata

/-!
# When triage loses nothing

Folding submitted links into a folder only ever appends *headers* (product,
URL and label of a link), so a folder's first link that a submitted one merges
into keeps its place. That place is the potential of the argument below: a link
that lands under another product lands at an earlier one, so what it loses no
other link of the submission makes up for.

This is needed because the statement is about multisets: the entries that were gained and those
that were submitted might agree although two links were placed wrongly, each where the other
belongs. With the potential no such exchange is possible, and the multisets agree only if every
link was placed where it was meant to be.

The condition is then brought into a form that does not run the merge. As long as the links keep
their products, merging a link and writing it down at the end take later links alike (`SameTaker`),
so it can be read off the links of the folder and those submitted before.

- `firstTaker`: the header that takes a submitted link, and its place;
- `flatten_updateFiles_eq_iff`: the flattening grows by exactly the submitted
  entries when every placement keeps its product and its path;
- `MergesKeepProduct`: the same on the inputs alone, without running the merge;
- `flatten_addToFiles_eq_iff`: the two together.
-/

namespace WptFyi.Shared

open Lib Lib.GoStrings

/-- What a merge looks at. -/
structure LinkHeader where
  product : ProductSpec
  url : String
  label : String
deriving DecidableEq

def MetadataLink.header (link : MetadataLink) : LinkHeader :=
  ⟨link.product, link.url, link.label⟩

def MetadataEntry.header (entry : MetadataEntry) : LinkHeader :=
  ⟨entry.product, entry.url, entry.label⟩

namespace LinkHeader

/-- `mergesInto` on headers. -/
def mergesInto (h existing : LinkHeader) : Bool :=
  h.url == existing.url && h.product.matchesProductSpec existing.product &&
    h.label == existing.label

theorem mergesInto_self (h : LinkHeader) : h.mergesInto h = true := by
  simp [mergesInto, ProductSpec.matchesProductSpec_self]

/-- A header a link merges into differs in the product at most. -/
theorem eq_of_mergesInto {h existing : LinkHeader} (hmerge : h.mergesInto existing = true)
    (hproduct : existing.product = h.product) : existing = h := by
  simp only [mergesInto, Bool.and_eq_true, beq_iff_eq] at hmerge
  obtain ⟨⟨hurl, -⟩, hlabel⟩ := hmerge
  cases existing
  cases h
  simp only at hproduct hurl hlabel
  rw [hproduct, hurl, hlabel]

/-- The header that takes a link: the first it merges into, else its own. -/
def firstTaker (hs : List LinkHeader) (h : LinkHeader) : LinkHeader :=
  (hs.find? h.mergesInto).getD h

/-- The taker has a submitted link's URL and label. -/
theorem firstTaker_eq (hs : List LinkHeader) (h : LinkHeader) :
    firstTaker hs h = { h with product := (firstTaker hs h).product } := by
  cases hfind : hs.find? h.mergesInto with
  | none => rw [firstTaker, hfind, Option.getD_none]
  | some taker =>
    have hmerge := List.find?_some hfind
    simp only [mergesInto, Bool.and_eq_true, beq_iff_eq] at hmerge
    rw [firstTaker, hfind, Option.getD_some, hmerge.1.1, hmerge.2]

/-- **The potential**: the taker of a link stands before any header like the
link's own, however many headers are appended later. -/
theorem idxOf_firstTaker {hs hs' : List LinkHeader} (hle : hs <+: hs') (h : LinkHeader) :
    hs'.idxOf (firstTaker hs h) ≤ hs'.idxOf h ∧
      (firstTaker hs h ≠ h → hs'.idxOf (firstTaker hs h) < hs'.idxOf h) := by
  cases hfind : hs.find? h.mergesInto with
  | none =>
    rw [firstTaker, hfind]
    exact ⟨le_rfl, fun hne => absurd rfl hne⟩
  | some taker =>
    obtain ⟨_, before, after, rfl, hbefore⟩ := List.find?_eq_some_iff_append.mp hfind
    obtain ⟨later, rfl⟩ := hle
    have hmem : h ∉ before := fun hmem => by simpa [mergesInto_self] using hbefore h hmem
    have htaker : (before ++ taker :: after ++ later).idxOf taker ≤ before.length := by
      rw [List.append_assoc, List.idxOf_append]
      split
      · exact List.idxOf_le_length
      · simp
    rw [firstTaker, hfind, Option.getD_some]
    rw [show (before ++ taker :: after ++ later).idxOf h =
      before.length + (taker :: (after ++ later)).idxOf h by
        rw [List.append_assoc, List.idxOf_append_of_notMem hmem, List.cons_append]]
    refine ⟨by omega, fun hne => ?_⟩
    rw [List.idxOf_cons_ne _ hne]
    omega

end LinkHeader

open LinkHeader

/-- The headers of a list of links. -/
def headers (links : List MetadataLink) : List LinkHeader := links.map MetadataLink.header

theorem find?_headers (existing : List MetadataLink) (link : MetadataLink) :
    (headers existing).find? link.header.mergesInto =
      (existing.find? link.mergesInto).map MetadataLink.header := by
  rw [headers, List.find?_map]
  rfl

theorem targetProduct_eq (existing : List MetadataLink) (link : MetadataLink) :
    targetProduct existing link = (firstTaker (headers existing) link.header).product := by
  rw [firstTaker, find?_headers, targetProduct]
  cases existing.find? link.mergesInto <;> rfl

/-- Merging a link appends its header, or none. -/
theorem headers_mergeLink (existing : List MetadataLink) (link : MetadataLink) :
    headers (mergeLink existing link) =
      if ((headers existing).find? link.header.mergesInto).isSome then headers existing
      else headers existing ++ [link.header] := by
  induction existing with
  | nil => rfl
  | cons existingLink rest ih =>
    have hsame : link.header.mergesInto existingLink.header = link.mergesInto existingLink := rfl
    by_cases hmerge : link.mergesInto existingLink = true
    · have hfind : (headers (existingLink :: rest)).find? link.header.mergesInto =
          some existingLink.header := List.find?_cons_of_pos (hsame.trans hmerge)
      rw [mergeLink, if_pos hmerge, hfind]
      rfl
    · rw [mergeLink, if_neg hmerge]
      have htail : headers (existingLink :: mergeLink rest link) =
          existingLink.header :: headers (mergeLink rest link) := rfl
      rw [htail, ih]
      have hfind : (headers (existingLink :: rest)).find? link.header.mergesInto =
          (headers rest).find? link.header.mergesInto := by
        simp [headers, hsame, hmerge]
      rw [hfind]
      split <;> rfl

theorem headers_prefix_mergeLink (existing : List MetadataLink) (link : MetadataLink) :
    headers existing <+: headers (mergeLink existing link) := by
  rw [headers_mergeLink]
  split
  · exact List.prefix_refl _
  · exact List.prefix_append _ _

theorem headers_prefix_foldl_mergeLink (existing links : List MetadataLink) :
    headers existing <+: headers (links.foldl mergeLink existing) := by
  induction links generalizing existing with
  | nil => exact List.prefix_refl _
  | cons link links ih => exact (headers_prefix_mergeLink existing link).trans (ih _)

@[simp] theorem headers_appendTestName (test : String) (links : List MetadataLink) :
    headers (appendTestName test links) = headers links := by
  rw [headers, appendTestName, List.map_map]
  refine List.map_congr_left fun link _ => ?_
  show MetadataLink.header (if _ then _ else _) = _
  split <;> rfl

/-! ## Headers of a folder

The links of a folder by their headers. A submitted link goes to the first header that takes it,
and headers are only ever appended. -/

/-- The headers of a folder's links; none when it has no file. -/
def folderHeaders (filesMap : GoMap String Metadata) (folder : String) : List LinkHeader :=
  match filesMap.lookup folder with
  | none => []
  | some existing => headers existing.links

theorem folderHeaders_of_lookup_eq_some {filesMap : GoMap String Metadata} {folder : String}
    {existing : Metadata} (h : filesMap.lookup folder = some existing) :
    folderHeaders filesMap folder = headers existing.links := by
  rw [folderHeaders, h]

theorem folderHeaders_of_lookup_eq_none {filesMap : GoMap String Metadata} {folder : String}
    (h : filesMap.lookup folder = none) : folderHeaders filesMap folder = [] := by
  rw [folderHeaders, h]

section AddTest

variable {filesMap : GoMap String Metadata} {test : String} (links : List MetadataLink)

theorem mem_addTest {folder : String} :
    folder ∈ addTest filesMap test links ↔ folder = folderOf test ∨ folder ∈ filesMap := by
  cases hlookup : filesMap.lookup (folderOf test) with
  | none => rw [addTest_of_lookup_eq_none links hlookup, Finmap.mem_insert]
  | some existing => rw [addTest_of_lookup_eq_some links hlookup, Finmap.mem_insert]

theorem folderHeaders_addTest_of_ne {folder : String} (h : folder ≠ folderOf test) :
    folderHeaders (addTest filesMap test links) folder = folderHeaders filesMap folder := by
  cases hlookup : filesMap.lookup (folderOf test) with
  | none =>
    rw [addTest_of_lookup_eq_none links hlookup, folderHeaders, folderHeaders,
      Finmap.lookup_insert_of_ne _ h]
  | some existing =>
    rw [addTest_of_lookup_eq_some links hlookup, folderHeaders, folderHeaders,
      Finmap.lookup_insert_of_ne _ h]

theorem folderHeaders_addTest_of_none (h : filesMap.lookup (folderOf test) = none) :
    folderHeaders (addTest filesMap test links) (folderOf test) = headers links := by
  rw [addTest_of_lookup_eq_none links h,
    folderHeaders_of_lookup_eq_some (Finmap.lookup_insert _), headers_appendTestName]

theorem folderHeaders_addTest_of_some {existing : Metadata}
    (h : filesMap.lookup (folderOf test) = some existing) :
    folderHeaders (addTest filesMap test links) (folderOf test) =
      headers ((appendTestName test links).foldl mergeLink existing.links) := by
  rw [addTest_of_lookup_eq_some links h, folderHeaders_of_lookup_eq_some (Finmap.lookup_insert _)]

/-- A test only appends headers to its folder. -/
theorem folderHeaders_prefix_addTest (folder : String) :
    folderHeaders filesMap folder <+: folderHeaders (addTest filesMap test links) folder := by
  by_cases hfolder : folder = folderOf test
  · subst hfolder
    cases hlookup : filesMap.lookup (folderOf test) with
    | none =>
      rw [folderHeaders_of_lookup_eq_none hlookup]
      exact List.nil_prefix
    | some existing =>
      rw [folderHeaders_of_lookup_eq_some hlookup, folderHeaders_addTest_of_some links hlookup]
      exact headers_prefix_foldl_mergeLink _ _
  · rw [folderHeaders_addTest_of_ne links hfolder]

end AddTest

theorem folderHeaders_prefix_updateFiles (filesMap : GoMap String Metadata) (order : Submission)
    (folder : String) :
    folderHeaders filesMap folder <+: folderHeaders (updateFiles filesMap order) folder := by
  induction order generalizing filesMap with
  | nil => exact List.prefix_refl _
  | cons entry rest ih => exact (folderHeaders_prefix_addTest entry.2 folder).trans (ih _)

/-- A placement's target is the taker among some earlier headers of its folder. -/
theorem exists_firstTaker_mergePlacements {test : String} {existing links : List MetadataLink}
    {pl : Placement} (h : pl ∈ mergePlacements test existing links) :
    pl.test = test ∧ ∃ hs, hs <+: headers (links.foldl mergeLink existing) ∧
      pl.target = (firstTaker hs pl.link.header).product := by
  induction links generalizing existing with
  | nil => exact absurd h List.not_mem_nil
  | cons link links ih =>
    rcases List.mem_cons.mp h with rfl | h
    · exact ⟨rfl, headers existing, headers_prefix_foldl_mergeLink existing (link :: links),
        targetProduct_eq existing link⟩
    · exact ih h

/-- A placement's target is the first header that takes the link, among those of its folder at that
time. -/
theorem exists_firstTaker {filesMap : GoMap String Metadata} {order : Submission} {pl : Placement}
    (h : pl ∈ placements filesMap order) :
    ∃ hs, hs <+: folderHeaders (updateFiles filesMap order) (folderOf pl.test) ∧
      pl.target = (firstTaker hs pl.link.header).product := by
  induction order generalizing filesMap with
  | nil => exact absurd h List.not_mem_nil
  | cons entry rest ih =>
    obtain ⟨test, links⟩ := entry
    rcases List.mem_append.mp h with h | h
    · have hlater := folderHeaders_prefix_updateFiles (addTest filesMap test links) rest
      unfold testPlacements at h
      cases hlookup : filesMap.lookup (folderOf test) with
      | none =>
        rw [hlookup] at h
        obtain ⟨link, _, rfl⟩ := List.mem_map.mp h
        exact ⟨[], List.nil_prefix, rfl⟩
      | some existing =>
        rw [hlookup] at h
        obtain ⟨rfl, hs, hle, htarget⟩ := exists_firstTaker_mergePlacements h
        rw [← folderHeaders_addTest_of_some links hlookup] at hle
        exact ⟨hs, hle.trans (hlater _), htarget⟩
    · exact ih h

/-! ## No compensation

A link that lands under another product lands at an earlier place than its own. So the places
summed over a submission are what they should be only if each link keeps its product. -/

/-- The potential of an entry: the place of its header in its folder. The length
of its path is added because a path can lose a slash as well. -/
def entryWeight (filesMap : GoMap String Metadata) (entry : MetadataEntry) : Nat :=
  (folderHeaders filesMap (folderOf entry.test)).idxOf entry.header + entry.test.length

/-- A placement that keeps the product and the path. -/
def Placement.Keeps (pl : Placement) : Prop :=
  pl.target = pl.link.product ∧ ¬ DoubleSlash pl.test

/-- An entry lands no later than it was submitted for, and earlier unless its
placement keeps it. -/
theorem entryWeight_landed {filesMap : GoMap String Metadata} {pl : Placement}
    {hs : List LinkHeader} (hle : hs <+: folderHeaders filesMap (folderOf pl.test))
    (htarget : pl.target = (firstTaker hs pl.link.header).product)
    (htest : hasPrefix pl.test "/" = true) (result : MetadataTestResult) :
    entryWeight filesMap (pl.landedEntry result) ≤ entryWeight filesMap (pl.wantedEntry result) ∧
      (¬ pl.Keeps →
        entryWeight filesMap (pl.landedEntry result) <
          entryWeight filesMap (pl.wantedEntry result)) := by
  generalize hlandedEntry : pl.landedEntry result = landed
  generalize hwantedEntry : pl.wantedEntry result = wanted
  have hfolder : folderOf landed.test = folderOf pl.test := by
    rw [← hlandedEntry]
    exact congrArg Prod.fst (splitWPTTestPath_getWPTTestPath_split htest)
  have hfolder' : folderOf wanted.test = folderOf pl.test := by rw [← hwantedEntry]; rfl
  have hlanded : landed.header = firstTaker hs pl.link.header := by
    rw [firstTaker_eq, ← htarget, ← hlandedEntry]
    rfl
  have hwanted : wanted.header = pl.link.header := by rw [← hwantedEntry]; rfl
  -- the link that takes a result stands no later than the one submitted
  obtain ⟨hplace, hearlier⟩ := idxOf_firstTaker hle pl.link.header
  -- a double slash loses one slash on the way through the file, other tests none
  have hlength : landed.test.length ≤ wanted.test.length ∧
      (DoubleSlash pl.test → landed.test.length < wanted.test.length) := by
    subst hlandedEntry hwantedEntry
    by_cases hdouble : DoubleSlash pl.test
    · have hpath : (pl.wantedEntry result).test = "/" ++ (pl.landedEntry result).test :=
        getWPTTestPath_split_doubleSlash hdouble
      have hlt : (pl.landedEntry result).test.length < (pl.wantedEntry result).test.length := by
        rw [hpath, String.length_append]
        exact Nat.lt_add_of_pos_left (by decide)
      exact ⟨hlt.le, fun _ => hlt⟩
    · have hpath : (pl.landedEntry result).test = (pl.wantedEntry result).test :=
        getWPTTestPath_split htest hdouble
      exact ⟨by rw [hpath], fun h => absurd h hdouble⟩
  unfold entryWeight
  rw [hfolder, hfolder', hlanded, hwanted]
  refine ⟨Nat.add_le_add hplace hlength.1, fun hnot => ?_⟩
  by_cases hproduct : pl.target = pl.link.product
  · have hdouble : DoubleSlash pl.test := by_contra fun h => hnot ⟨hproduct, h⟩
    exact Nat.add_lt_add_of_le_of_lt hplace (hlength.2 hdouble)
  · refine Nat.add_lt_add_of_lt_of_le (hearlier fun heq => hproduct ?_) hlength.1
    rw [htarget, heq]
    rfl

/-- A multiset of pairs whose sides agree, each first side weighing no more than
the second, has no pair where it weighs less. -/
theorem not_lt_of_map_fst_eq_map_snd {α : Type*} {pairs : Multiset (α × α)} (weight : α → Nat)
    (hle : ∀ p ∈ pairs, weight p.1 ≤ weight p.2) (heq : pairs.map Prod.fst = pairs.map Prod.snd)
    {p : α × α} (hp : p ∈ pairs) : ¬ weight p.1 < weight p.2 := by
  intro hlt
  have hsum : (pairs.map fun p => weight p.1).sum < (pairs.map fun p => weight p.2).sum :=
    Multiset.sum_lt_sum hle ⟨p, hp, hlt⟩
  have hsame := congrArg (fun s : Multiset α => (s.map weight).sum) heq
  rw [Multiset.map_map, Multiset.map_map] at hsame
  exact absurd hsame hsum.ne

/-- The entries of the placements, as landed and as submitted. -/
def entryPairs (pls : List Placement) : List (MetadataEntry × MetadataEntry) :=
  pls.flatMap fun pl => pl.link.results.map fun result =>
    (pl.landedEntry result, pl.wantedEntry result)

theorem sum_landed_eq (pls : List Placement) :
    (pls.map fun pl => (pl.landed : Multiset MetadataEntry)).sum =
      (↑(entryPairs pls) : Multiset (MetadataEntry × MetadataEntry)).map Prod.fst := by
  induction pls with
  | nil => rfl
  | cons pl pls ih =>
    have hpairs : entryPairs (pl :: pls) = _ ++ entryPairs pls := List.flatMap_cons
    rw [List.map_cons, List.sum_cons, ih, hpairs, ← Multiset.coe_add, Multiset.map_add]
    congr 1
    rw [Multiset.map_coe, List.map_map]
    rfl

theorem sum_wanted_eq (pls : List Placement) :
    (pls.map fun pl => (pl.wanted : Multiset MetadataEntry)).sum =
      (↑(entryPairs pls) : Multiset (MetadataEntry × MetadataEntry)).map Prod.snd := by
  induction pls with
  | nil => rfl
  | cons pl pls ih =>
    have hpairs : entryPairs (pl :: pls) = _ ++ entryPairs pls := List.flatMap_cons
    rw [List.map_cons, List.sum_cons, ih, hpairs, ← Multiset.coe_add, Multiset.map_add]
    congr 1
    rw [Multiset.map_coe, List.map_map]
    rfl

theorem link_mem_of_mem_mergePlacements {test : String} {existing links : List MetadataLink}
    {pl : Placement} (h : pl ∈ mergePlacements test existing links) : pl.link ∈ links := by
  induction links generalizing existing with
  | nil => exact absurd h List.not_mem_nil
  | cons link links ih =>
    rcases List.mem_cons.mp h with rfl | h
    · exact List.mem_cons_self
    · exact List.mem_cons_of_mem _ (ih h)

/-- A placement of a test is of one of its links. -/
theorem mem_testPlacements {filesMap : GoMap String Metadata} {test : String}
    {links : List MetadataLink} {pl : Placement} (h : pl ∈ testPlacements filesMap test links) :
    pl.test = test ∧ pl.link ∈ appendTestName test links := by
  unfold testPlacements at h
  cases hlookup : filesMap.lookup (folderOf test) with
  | none =>
    rw [hlookup] at h
    obtain ⟨link, hlink, rfl⟩ := List.mem_map.mp h
    exact ⟨rfl, hlink⟩
  | some existing =>
    rw [hlookup] at h
    exact ⟨(exists_firstTaker_mergePlacements h).1, link_mem_of_mem_mergePlacements h⟩

/-- Placements come from the submission, with results. -/
theorem exists_of_mem_placements {filesMap : GoMap String Metadata} {order : Submission}
    {pl : Placement} (h : pl ∈ placements filesMap order) :
    ∃ entry ∈ order, pl.test = entry.1 ∧ entry.2 ≠ [] ∧ pl.link.results ≠ [] := by
  induction order generalizing filesMap with
  | nil => exact absurd h List.not_mem_nil
  | cons entry rest ih =>
    rcases List.mem_append.mp h with h | h
    · obtain ⟨htest, hlink⟩ := mem_testPlacements h
      refine ⟨entry, List.mem_cons_self, htest, ?_, (named_of_mem_appendTestName hlink).1⟩
      intro hnil
      rw [hnil] at hlink
      exact List.not_mem_nil hlink
    · obtain ⟨entry', hmem, hrest⟩ := ih h
      exact ⟨entry', List.mem_cons_of_mem _ hmem, hrest⟩

/-- **No compensation**: the flattening grows by exactly the submitted entries
when every placement keeps its product and its path. -/
theorem flatten_updateFiles_eq_iff {filesMap : GoMap String Metadata} {order : Submission}
    (htests : ∀ entry ∈ order, hasPrefix entry.1 "/" = true) :
    flatten (updateFiles filesMap order) = flatten filesMap + submittedEntries order ↔
      ∀ pl ∈ placements filesMap order, pl.Keeps := by
  rw [flatten_updateFiles, ← sum_wanted_placements filesMap, add_right_inj, sum_landed_eq,
    sum_wanted_eq]
  have hweight : ∀ pl ∈ placements filesMap order, ∀ result,
      entryWeight (updateFiles filesMap order) (pl.landedEntry result) ≤
        entryWeight (updateFiles filesMap order) (pl.wantedEntry result) ∧
      (¬ pl.Keeps → entryWeight (updateFiles filesMap order) (pl.landedEntry result) <
        entryWeight (updateFiles filesMap order) (pl.wantedEntry result)) := by
    intro pl hpl result
    obtain ⟨hs, hle, htarget⟩ := exists_firstTaker hpl
    obtain ⟨entry, hentry, htest, -, -⟩ := exists_of_mem_placements hpl
    exact entryWeight_landed hle htarget (htest ▸ htests entry hentry) result
  constructor
  · intro heq pl hpl
    -- landed and wanted entries are the same all in all, and none weighs more than wanted
    by_contra hnot
    obtain ⟨-, -, -, -, hresults⟩ := exists_of_mem_placements hpl
    obtain ⟨result, hresult⟩ := List.exists_mem_of_ne_nil _ hresults
    refine not_lt_of_map_fst_eq_map_snd (entryWeight (updateFiles filesMap order)) ?_ heq
      (p := (pl.landedEntry result, pl.wantedEntry result)) ?_ ((hweight pl hpl result).2 hnot)
    · intro p hp
      obtain ⟨pl', hpl', hp'⟩ := List.mem_flatMap.mp hp
      obtain ⟨result', -, rfl⟩ := List.mem_map.mp hp'
      exact (hweight pl' hpl' result').1
    · exact List.mem_flatMap.mpr ⟨pl, hpl, List.mem_map.mpr ⟨result, hresult, rfl⟩⟩
  · intro hkeeps
    refine Multiset.map_congr rfl fun p hp => ?_
    obtain ⟨pl, hpl, hp'⟩ := List.mem_flatMap.mp hp
    obtain ⟨result, -, rfl⟩ := List.mem_map.mp hp'
    obtain ⟨entry, hentry, htest, -, -⟩ := exists_of_mem_placements hpl
    obtain ⟨hproduct, hdouble⟩ := hkeeps pl hpl
    show pl.landedEntry result = pl.wantedEntry result
    rw [Placement.landedEntry, Placement.wantedEntry, hproduct, folderOf,
      getWPTTestPath_split (htest ▸ htests entry hentry) hdouble]

/-! ## The condition on the inputs

Whether a link keeps its product is read off the links of the folder and those submitted before it,
without running the merge. -/

/-- A submitted link's first match among the links before it has the submitted
product. -/
def KeepsProduct (prior : List MetadataLink) (link : MetadataLink) : Prop :=
  ∀ existingLink ∈ prior.find? link.mergesInto, existingLink.product = link.product

instance (prior : List MetadataLink) (link : MetadataLink) : Decidable (KeepsProduct prior link) :=
  inferInstanceAs (Decidable (∀ existingLink ∈ prior.find? link.mergesInto, _))

/-- One test's links, each among the links before it. -/
def LinksKeepProduct : List MetadataLink → List MetadataLink → Prop
  | _, [] => True
  | prior, link :: links => KeepsProduct prior link ∧ LinksKeepProduct (prior ++ [link]) links

instance : ∀ prior links, Decidable (LinksKeepProduct prior links)
  | _, [] => isTrue trivial
  | prior, link :: links =>
    have := instDecidableLinksKeepProduct (prior ++ [link]) links
    inferInstanceAs (Decidable (KeepsProduct prior link ∧ LinksKeepProduct (prior ++ [link]) links))

/-- The links a folder has been given: its file's and those submitted for the
tests visited so far. -/
def priorLinks (filesMap : GoMap String Metadata) (visited : Submission) (folder : String) :
    List MetadataLink :=
  ((filesMap.lookup folder).map Metadata.links).getD [] ++
    (visited.filter fun entry => folderOf entry.1 = folder).flatMap Prod.snd

/-- The tests after `visited`: when their folder has a file by then, their links
keep their products. -/
def TestsKeepProduct (filesMap : GoMap String Metadata) : Submission → Submission → Prop
  | _, [] => True
  | visited, (test, links) :: rest =>
    (folderOf test ∈ filesMap ∨ folderOf test ∈ visited.map (folderOf ∘ Prod.fst) →
      LinksKeepProduct (priorLinks filesMap visited (folderOf test)) links) ∧
    TestsKeepProduct filesMap (visited ++ [(test, links)]) rest

instance (filesMap : GoMap String Metadata) :
    ∀ visited order, Decidable (TestsKeepProduct filesMap visited order)
  | _, [] => isTrue trivial
  | visited, (test, links) :: rest =>
    have := instDecidableTestsKeepProduct filesMap (visited ++ [(test, links)]) rest
    inferInstanceAs (Decidable ((_ → _) ∧ _))

/-- **The merges keep the products**: every submitted link for a folder that has
a file when its test is visited matches, among the folder's links and those
submitted for it before, first one with the same product (or none). -/
def MergesKeepProduct (filesMap : GoMap String Metadata) (order : Submission) : Prop :=
  TestsKeepProduct filesMap [] order

instance (filesMap : GoMap String Metadata) (order : Submission) :
    Decidable (MergesKeepProduct filesMap order) :=
  inferInstanceAs (Decidable (TestsKeepProduct filesMap [] order))

/-- Two lists of headers that take every link alike. -/
def SameTaker (hs hs' : List LinkHeader) : Prop :=
  ∀ h : LinkHeader, hs.find? h.mergesInto = hs'.find? h.mergesInto

/-- Whether a link keeps its product can be told from any links that take links alike. -/
theorem keepsProduct_iff {existing prior : List MetadataLink}
    (hsame : SameTaker (headers existing) (headers prior)) (link : MetadataLink) :
    KeepsProduct prior link ↔ targetProduct existing link = link.product := by
  have hfind := hsame link.header
  rw [find?_headers, find?_headers] at hfind
  rw [KeepsProduct, targetProduct]
  cases hprior : prior.find? link.mergesInto with
  | none =>
    rw [hprior, Option.map_none, Option.map_eq_none_iff] at hfind
    rw [hfind]
    simp
  | some taker =>
    rw [hprior, Option.map_some, Option.map_eq_some_iff] at hfind
    obtain ⟨taker', htaker', hheader⟩ := hfind
    rw [htaker']
    have hproduct : taker'.product = taker.product := congrArg LinkHeader.product hheader
    simp [hproduct]

theorem keepsProduct_congr (prior : List MetadataLink) {link link' : MetadataLink}
    (h : link'.header = link.header) : KeepsProduct prior link' ↔ KeepsProduct prior link := by
  have hmerge : link'.mergesInto = link.mergesInto := by
    funext existing
    show link'.header.mergesInto existing.header = link.header.mergesInto existing.header
    rw [h]
  have hproduct : link'.product = link.product := congrArg LinkHeader.product h
  rw [KeepsProduct, KeepsProduct, hmerge, hproduct]

/-- Merging a link that keeps its product, and writing it down at the end, take
every later link alike. -/
theorem SameTaker.mergeLink {existing prior : List MetadataLink}
    (hsame : SameTaker (headers existing) (headers prior)) {link link' : MetadataLink}
    (hlink : link'.header = link.header) (hkeeps : KeepsProduct prior link) :
    SameTaker (headers (mergeLink existing link')) (headers (prior ++ [link])) := by
  intro h
  rw [headers_mergeLink, hlink, hsame link.header, find?_headers]
  have happend : headers (prior ++ [link]) = headers prior ++ [link.header] := List.map_append
  rw [happend]
  cases htaker : prior.find? link.mergesInto with
  | none =>
    simp [List.find?_append, hsame h]
  | some taker =>
    rw [Option.map_some, Option.isSome_some, if_pos rfl, hsame h, List.find?_append]
    -- the taker's header is the link's own, so the link adds nothing new
    have hmerge : link.mergesInto taker = true := List.find?_some htaker
    have hheader : taker.header = link.header :=
      LinkHeader.eq_of_mergesInto (h := link.header) hmerge (hkeeps taker htaker)
    have hmem : link.header ∈ headers prior :=
      hheader ▸ List.mem_map_of_mem (List.mem_of_find?_eq_some htaker)
    cases hprior : (headers prior).find? h.mergesInto with
    | some _ => rfl
    | none =>
      have hnot := List.find?_eq_none.mp hprior link.header hmem
      simp [hnot]

/-- **One test**: its placements keep the products exactly when its links do
among the links before them. -/
theorem linksKeepProduct_iff {test : String} {existing prior links named : List MetadataLink}
    (hsame : SameTaker (headers existing) (headers prior))
    (hnamed : headers named = headers links) :
    (∀ pl ∈ mergePlacements test existing named, pl.target = pl.link.product) ↔
      LinksKeepProduct prior links := by
  induction links generalizing existing prior named with
  | nil =>
    obtain rfl : named = [] := List.map_eq_nil_iff.mp hnamed
    simp [mergePlacements, LinksKeepProduct]
  | cons link links ih =>
    obtain ⟨link', named, rfl, hlink, hnamed⟩ := List.map_eq_cons_iff.mp hnamed
    rw [mergePlacements, List.forall_mem_cons, LinksKeepProduct]
    show targetProduct existing link' = link'.product ∧ _ ↔ _
    rw [← keepsProduct_iff hsame, keepsProduct_congr prior hlink]
    exact and_congr_right fun hkeeps => ih (hsame.mergeLink hlink hkeeps) hnamed

/-- Such links leave a folder that goes on taking links alike. -/
theorem SameTaker.foldl_mergeLink {existing prior links named : List MetadataLink}
    (hsame : SameTaker (headers existing) (headers prior)) (hnamed : headers named = headers links)
    (hkeeps : LinksKeepProduct prior links) :
    SameTaker (headers (named.foldl Shared.mergeLink existing)) (headers (prior ++ links)) := by
  induction links generalizing existing prior named with
  | nil =>
    obtain rfl : named = [] := List.map_eq_nil_iff.mp hnamed
    rwa [List.append_nil]
  | cons link links ih =>
    obtain ⟨link', named, rfl, hlink, hnamed⟩ := List.map_eq_cons_iff.mp hnamed
    have hrest := ih (hsame.mergeLink hlink hkeeps.1) hnamed hkeeps.2
    rwa [List.append_assoc, List.singleton_append] at hrest

/-- Which folders have a file, and how they take links, after some tests were
visited. -/
structure Follows (filesMap : GoMap String Metadata) (visited : Submission)
    (filesMap' : GoMap String Metadata) : Prop where
  mem_iff : ∀ folder, folder ∈ filesMap' ↔
    folder ∈ filesMap ∨ folder ∈ visited.map (folderOf ∘ Prod.fst)
  taker : ∀ folder, SameTaker (folderHeaders filesMap' folder)
    (headers (priorLinks filesMap visited folder))

theorem follows_nil (filesMap : GoMap String Metadata) : Follows filesMap [] filesMap where
  mem_iff folder := by simp
  taker folder := by
    intro h
    unfold folderHeaders priorLinks
    cases filesMap.lookup folder with
    | none => rfl
    | some existing => simp

/-- The links of a folder nobody gave any are none. -/
theorem priorLinks_eq_nil {filesMap : GoMap String Metadata} {visited : Submission}
    {folder : String} (hfiles : folder ∉ filesMap)
    (hvisited : folder ∉ visited.map (folderOf ∘ Prod.fst)) :
    priorLinks filesMap visited folder = [] := by
  rw [priorLinks, Finmap.lookup_eq_none.mpr hfiles, List.filter_eq_nil_iff.mpr]
  · rfl
  · intro entry hentry heq
    exact hvisited (List.mem_map.mpr ⟨entry, hentry, by simpa using heq⟩)

theorem priorLinks_snoc (filesMap : GoMap String Metadata) (visited : Submission) (test : String)
    (links : List MetadataLink) (folder : String) :
    priorLinks filesMap (visited ++ [(test, links)]) folder =
      priorLinks filesMap visited folder ++ if folderOf test = folder then links else [] := by
  unfold priorLinks
  rw [List.filter_append, List.flatMap_append, List.append_assoc]
  congr 2
  by_cases h : folderOf test = folder <;> simp [h]

/-- **The step**: visiting a test whose links keep their products. -/
theorem Follows.addTest {filesMap filesMap' : GoMap String Metadata} {visited : Submission}
    (h : Follows filesMap visited filesMap') (test : String) (links : List MetadataLink)
    (hkeeps : folderOf test ∈ filesMap' →
      LinksKeepProduct (priorLinks filesMap visited (folderOf test)) links) :
    Follows filesMap (visited ++ [(test, links)]) (addTest filesMap' test links) where
  mem_iff folder := by
    rw [mem_addTest, h.mem_iff, List.map_append, List.mem_append, List.map_singleton,
      List.mem_singleton]
    exact ⟨fun hmem => by tauto, fun hmem => by tauto⟩
  taker folder := by
    rw [priorLinks_snoc]
    by_cases hfolder : folder = folderOf test
    · subst hfolder
      rw [if_pos rfl]
      cases hlookup : filesMap'.lookup (folderOf test) with
      | none =>
        have hfresh := mt (h.mem_iff _).mpr (Finmap.lookup_eq_none.mp hlookup)
        rw [folderHeaders_addTest_of_none links hlookup,
          priorLinks_eq_nil (fun hmem => hfresh (Or.inl hmem)) (fun hmem => hfresh (Or.inr hmem)),
          List.nil_append]
        exact fun _ => rfl
      | some existing =>
        have htaker := h.taker (folderOf test)
        rw [folderHeaders_of_lookup_eq_some hlookup] at htaker
        rw [folderHeaders_addTest_of_some links hlookup]
        exact htaker.foldl_mergeLink (headers_appendTestName test links)
          (hkeeps (Finmap.mem_of_lookup_eq_some hlookup))
    · rw [folderHeaders_addTest_of_ne links hfolder, if_neg (Ne.symm hfolder), List.append_nil]
      exact h.taker folder

/-- **Every order**: the placements keep the products exactly when the links do
among those before them. -/
theorem testsKeepProduct_iff {filesMap filesMap' : GoMap String Metadata}
    {visited order : Submission} (h : Follows filesMap visited filesMap') :
    (∀ pl ∈ placements filesMap' order, pl.target = pl.link.product) ↔
      TestsKeepProduct filesMap visited order := by
  induction order generalizing filesMap' visited with
  | nil => simp [placements, TestsKeepProduct]
  | cons entry rest ih =>
    obtain ⟨test, links⟩ := entry
    rw [placements, List.forall_mem_append, TestsKeepProduct, ← h.mem_iff]
    have htest : (∀ pl ∈ testPlacements filesMap' test links, pl.target = pl.link.product) ↔
        (folderOf test ∈ filesMap' →
          LinksKeepProduct (priorLinks filesMap visited (folderOf test)) links) := by
      unfold testPlacements
      cases hlookup : filesMap'.lookup (folderOf test) with
      | none =>
        -- a folder without a file takes the links as they are
        refine iff_of_true (fun pl hpl => ?_) fun hmem => ?_
        · obtain ⟨link, -, rfl⟩ := List.mem_map.mp hpl
          rfl
        · exact absurd hmem (Finmap.lookup_eq_none.mp hlookup)
      | some existing =>
        have htaker := h.taker (folderOf test)
        rw [folderHeaders_of_lookup_eq_some hlookup] at htaker
        have hlinks : (∀ pl ∈ mergePlacements test existing.links (appendTestName test links),
            pl.target = pl.link.product) ↔ _ :=
          linksKeepProduct_iff htaker (headers_appendTestName test links)
        refine hlinks.trans ?_
        constructor
        · intro hkeeps _
          exact hkeeps
        · intro hkeeps
          exact hkeeps (Finmap.mem_of_lookup_eq_some hlookup)
    rw [htest]
    exact and_congr_right fun hkeeps => ih (h.addTest test links hkeeps)

/-- Every submitted link has a placement, so a lost slash shows. -/
theorem doubleSlash_placements_iff (filesMap : GoMap String Metadata) (order : Submission) :
    (∀ pl ∈ placements filesMap order, ¬ DoubleSlash pl.test) ↔
      ∀ entry ∈ order, entry.2 ≠ [] → ¬ DoubleSlash entry.1 := by
  induction order generalizing filesMap with
  | nil => simp [placements]
  | cons entry rest ih =>
    obtain ⟨test, links⟩ := entry
    rw [placements, List.forall_mem_append, List.forall_mem_cons, ih]
    refine and_congr_left fun _ => ⟨fun h hlinks => ?_, fun h pl hpl => ?_⟩
    · have hlength := congrArg List.length (map_wanted_testPlacements filesMap test links)
      rw [List.length_map, List.length_map, appendTestName, List.length_map] at hlength
      have hpos := List.length_pos_of_ne_nil hlinks
      obtain ⟨pl, hpl⟩ := List.exists_mem_of_length_pos (hlength ▸ hpos)
      exact (mem_testPlacements hpl).1 ▸ h pl hpl
    · obtain ⟨htest, hlink⟩ := mem_testPlacements hpl
      rw [htest]
      refine h fun hnil => ?_
      rw [show links = [] from hnil] at hlink
      exact List.not_mem_nil hlink

/-- **No loss on triage**: for every files map and every order of the submitted
tests, the flattening grows by exactly the submitted entries if and only if no
submitted path loses its first slash and the merges keep the products. -/
theorem flatten_addToFiles_eq_iff {ε : Type*} (marshal : Metadata → Except ε String)
    (filesMap : GoMap String Metadata) (order : Submission)
    (htests : ∀ entry ∈ order, hasPrefix entry.1 "/" = true) :
    flatten (addToFiles marshal filesMap order).1 = flatten filesMap + submittedEntries order ↔
      (∀ entry ∈ order, entry.2 ≠ [] → ¬ DoubleSlash entry.1) ∧
        MergesKeepProduct filesMap order := by
  rw [MergesKeepProduct, ← testsKeepProduct_iff (follows_nil filesMap),
    ← doubleSlash_placements_iff filesMap]
  show flatten (updateFiles filesMap order) = _ ↔ _
  rw [flatten_updateFiles_eq_iff htests]
  exact ⟨fun h => ⟨fun pl hpl => (h pl hpl).2, fun pl hpl => (h pl hpl).1⟩,
    fun h pl hpl => ⟨h.2 pl hpl, h.1 pl hpl⟩⟩

def chromeSpec : ProductSpec := { browserName := "chrome", revision := "latest" }

/-- The file of folder `a`: one link of one result, under the given product. -/
def oneLinkFiles (product : ProductSpec) : GoMap String Metadata :=
  Finmap.singleton "a"
    ⟨[{ product, url := "https://external.com/item", results := [{ testPath := "a.html" }] }]⟩

/-- A submission for one more test of that folder, under `chrome`. -/
def oneTestSubmission : Submission :=
  [("/a/b.html", [{ product := chromeSpec, url := "https://external.com/item" }])]

/-- The file of folder `a` afterwards, under a product. -/
def mergedYaml (product : String) : String :=
  "links:\n    - product: " ++ product ++ "\n      url: https://external.com/item\n" ++
    "      results:\n        - test: a.html\n        - test: b.html\n"

/-- `chrome` merges into `chrome`. -/
theorem flatten_addToFiles_chrome :
    flatten (addToFiles (ε := String) (fun _ => .ok (mergedYaml "chrome"))
      (oneLinkFiles chromeSpec) oneTestSubmission).1 =
      flatten (oneLinkFiles chromeSpec) + submittedEntries oneTestSubmission :=
  (flatten_addToFiles_eq_iff _ _ _ (by decide)).mpr (by decide)

/-- `chrome` also merges into `chrome-64`, and is lost. -/
theorem flatten_addToFiles_chrome_64 :
    ¬ flatten (addToFiles (ε := String) (fun _ => .ok (mergedYaml "chrome-64"))
      (oneLinkFiles { chromeSpec with browserVersion := "64" }) oneTestSubmission).1 =
      flatten (oneLinkFiles { chromeSpec with browserVersion := "64" }) +
        submittedEntries oneTestSubmission := by
  decide

end WptFyi.Shared
