import WptFyi.Lib.GoMap
import WptFyi.Shared.Models

/-!
# Metadata of the wpt-metadata repository (`shared/metadata.go`)

The repository shards metadata over folders, one `META.yml` file each; the API
shows it flattened, by test path. This module has both shapes, the functions
between them and the two path functions they rest on.

A link stands in a folder and names the tests it is about by their file names; in the flattened
shape it stands under each of these tests, with the results that are about it. The flattening is
taken as a multiset of entries, one for each result of each link, since the files are ranged over
in any order and links are told apart by what they say only.

- `splitWPTTestPath`, `getWPTTestPath`: inverse to each other on every test
  path but those that begin with two slashes and have no third
  (`getWPTTestPath_split`);
- `constructMetadataResponse`: from folders to tests, selecting by product;
- `flatten`: what it goes through before selecting, as a multiset.
-/

namespace WptFyi.Shared

open Lib Lib.GoStrings

/-- A filter for the test results a link applies to. -/
structure MetadataTestResult where
  testPath : String := ""
  subtestName : Option String := none
  status : Option TestStatus := none
deriving DecidableEq

/-- An item of the `links` node of a `META.yml` file. -/
structure MetadataLink where
  product : ProductSpec
  url : String := ""
  label : String := ""
  results : List MetadataTestResult := []
deriving DecidableEq

/-- A `META.yml` file. -/
structure Metadata where
  links : List MetadataLink
deriving DecidableEq

/-- The flattened shape: from test paths to the links of the test. -/
abbrev MetadataResults := GoMap String (List MetadataLink)

/-! ## Paths

The folder of a `META.yml` and the name of a test in it, put together to the path of the test and
taken apart again. -/

/-- A folder path and a test name as one test path. -/
def getWPTTestPath (folderPath testname : String) : String :=
  if folderPath = "" then "/" ++ testname else "/" ++ folderPath ++ "/" ++ testname

/-- A test path as a folder path and a test name. -/
def splitWPTTestPath (githubPath : String) : String × String :=
  if hasPrefix githubPath "/" then
    let pathArray := (split githubPath '/').tail
    if pathArray.length = 1 then ("", pathArray.headD "")
    else (join pathArray.dropLast '/', pathArray.getLastD "")
  else ("", "")

/-- A path of two slashes and a name: its folder is empty, so its first slash
is lost on the way through a folder. -/
def DoubleSlash (path : String) : Prop :=
  hasPrefix path "//" = true ∧ '/' ∉ path.toList.drop 2

instance (path : String) : Decidable (DoubleSlash path) := inferInstanceAs (Decidable (_ ∧ _))

theorem splitWPTTestPath_root {name : String} (hname : '/' ∉ name.toList) :
    splitWPTTestPath ("/" ++ name) = ("", name) := by
  have hsplit : split ("/" ++ name) '/' = ["", name] := by
    have hlist : ("/" ++ name).toList = [] ++ '/' :: name.toList := by simp
    rw [split, hlist, List.splitOn_append_cons_self, List.splitOn_eq_singleton hname]
    simp
  have hslash : hasPrefix ("/" ++ name) "/" = true := by simp [hasPrefix_iff]
  rw [splitWPTTestPath, if_pos hslash, hsplit]
  rfl

/-- A path of a folder and a name is split at the slash between them. -/
theorem splitWPTTestPath_folder (folder : String) {name : String} (hname : '/' ∉ name.toList) :
    splitWPTTestPath ("/" ++ folder ++ "/" ++ name) = (folder, name) := by
  have hsplit : split ("/" ++ folder ++ "/" ++ name) '/' =
      "" :: (split folder '/' ++ [name]) := by
    have hlist : ("/" ++ folder ++ "/" ++ name).toList =
        [] ++ '/' :: (folder.toList ++ '/' :: name.toList) := by simp
    rw [split, hlist, List.splitOn_append_cons_self, List.splitOn_append_cons_self,
      List.splitOn_eq_singleton hname, split]
    simp
  have hslash : hasPrefix ("/" ++ folder ++ "/" ++ name) "/" = true := by simp [hasPrefix_iff]
  have hne : split folder '/' ≠ [] := by simp [split, List.splitOn_ne_nil]
  have hlong : (split folder '/' ++ [name]).length ≠ 1 := by
    have := List.length_pos_of_ne_nil hne
    simp
    omega
  rw [splitWPTTestPath, if_pos hslash, hsplit]
  simp only [List.tail_cons, if_neg hlong, List.dropLast_concat]
  rw [join_split]
  simp

/-- Every path that begins with a slash is of one of two shapes. -/
theorem exists_of_hasPrefix_slash {path : String} (h : hasPrefix path "/" = true) :
    (∃ name, '/' ∉ name.toList ∧ path = "/" ++ name) ∨
      ∃ folder name, '/' ∉ name.toList ∧ path = "/" ++ folder ++ "/" ++ name := by
  obtain ⟨rest, hrest⟩ := hasPrefix_iff.mp h
  by_cases hslash : '/' ∈ rest
  · obtain ⟨pre, post, hpost, rfl⟩ := exists_eq_append_cons_of_mem hslash
    refine Or.inr ⟨String.ofList pre, String.ofList post, by simpa using hpost, ?_⟩
    rw [← String.toList_inj, ← hrest]
    simp
  · refine Or.inl ⟨String.ofList rest, by simpa using hslash, ?_⟩
    rw [← String.toList_inj, ← hrest]
    simp

theorem doubleSlash_iff {path : String} :
    DoubleSlash path ↔ ∃ name, '/' ∉ name.toList ∧ path = "//" ++ name := by
  constructor
  · rintro ⟨hslashes, hrest⟩
    obtain ⟨rest, heq⟩ := hasPrefix_iff.mp hslashes
    rw [← heq] at hrest
    refine ⟨String.ofList rest, by simpa using hrest, ?_⟩
    rw [← String.toList_inj, ← heq]
    simp
  · rintro ⟨name, hname, rfl⟩
    exact ⟨by simp [hasPrefix_iff], by simpa using hname⟩

/-- **Round trip**: splitting a test path and putting it together again gives
the path back, unless it begins with two slashes and has no third. -/
theorem getWPTTestPath_split {path : String} (h : hasPrefix path "/" = true)
    (hdouble : ¬ DoubleSlash path) :
    getWPTTestPath (splitWPTTestPath path).1 (splitWPTTestPath path).2 = path := by
  rcases exists_of_hasPrefix_slash h with ⟨name, hname, rfl⟩ | ⟨folder, name, hname, rfl⟩
  · rw [splitWPTTestPath_root hname, getWPTTestPath, if_pos rfl]
  · rw [splitWPTTestPath_folder folder hname, getWPTTestPath]
    refine if_neg fun hfolder => hdouble (doubleSlash_iff.mpr ⟨name, hname, ?_⟩)
    rw [show folder = "" from hfolder]
    rfl

/-- Such a path loses its first slash. -/
theorem getWPTTestPath_split_doubleSlash {path : String} (h : DoubleSlash path) :
    path = "/" ++ getWPTTestPath (splitWPTTestPath path).1 (splitWPTTestPath path).2 := by
  obtain ⟨name, hname, rfl⟩ := doubleSlash_iff.mp h
  have hpath : "//" ++ name = "/" ++ "" ++ "/" ++ name := rfl
  rw [hpath, splitWPTTestPath_folder "" hname, getWPTTestPath, if_pos rfl]
  simp [← String.toList_inj]

/-- Going through a folder and a name does not change what they are. -/
theorem splitWPTTestPath_getWPTTestPath_split {path : String} (h : hasPrefix path "/" = true) :
    splitWPTTestPath (getWPTTestPath (splitWPTTestPath path).1 (splitWPTTestPath path).2) =
      splitWPTTestPath path := by
  by_cases hdouble : DoubleSlash path
  · obtain ⟨name, hname, rfl⟩ := doubleSlash_iff.mp hdouble
    have hsplit : splitWPTTestPath ("//" ++ name) = ("", name) :=
      splitWPTTestPath_folder "" hname
    rw [hsplit, getWPTTestPath, if_pos rfl, splitWPTTestPath_root hname]
  · rw [getWPTTestPath_split h hdouble]

/-! ## From folders to tests -/

/-- `addResponseLink`: one result of one link, added under its test. -/
def addResponseLink (fullTestName : String) (link : MetadataLink) (result : MetadataTestResult)
    (outMap : MetadataResults) : MetadataResults :=
  let newLink : MetadataLink :=
    { product := link.product, url := link.url, label := link.label,
      -- the test path is redundant: it is the key
      results := if result.subtestName.isSome || result.status.isSome then
        [{ subtestName := result.subtestName, status := result.status }] else [] }
  match outMap.lookup fullTestName with
  | none => outMap.insert fullTestName [newLink]
  | some links => outMap.insert fullTestName (links ++ [newLink])

/-- The loop body of `constructMetadataResponse`: a link without a browser is
about the test itself; any other is kept when some product matches. -/
def selectResult (productSpecs : List ProductSpec) (includeTestLevel : Bool) (folderPath : String)
    (link : MetadataLink) (res : MetadataResults) (result : MetadataTestResult) :
    MetadataResults :=
  let fullTestName := getWPTTestPath folderPath result.testPath
  let res := if link.product.browserName = "" && includeTestLevel then
    addResponseLink fullTestName link result res else res
  if productSpecs.any link.product.matchesProductSpec then
    addResponseLink fullTestName link result res else res

/-- `constructMetadataResponse`, ranging over the files in the order given. -/
def constructMetadataResponse (productSpecs : List ProductSpec) (includeTestLevel : Bool)
    (metadata : List (String × Metadata)) : MetadataResults :=
  metadata.foldl (fun res file =>
    file.2.links.foldl (fun res link =>
      link.results.foldl (selectResult productSpecs includeTestLevel file.1 link) res) res) ∅

/-- `PrepareLinkFilter`: the URLs of each test that has any. -/
def prepareLinkFilter (metadata : MetadataResults) : GoMap String (List String) :=
  metadata.filterMapValues fun links =>
    match (links.map MetadataLink.url).filter (· ≠ "") with
    | [] => none
    | urls => some urls

/-- `PrepareTestLabelFilter`: the labels of each test that has any. -/
def prepareTestLabelFilter (metadata : MetadataResults) : GoMap String (List String) :=
  metadata.filterMapValues fun links =>
    match (links.map MetadataLink.label).filter (· ≠ "") with
    | [] => none
    | labels => some labels

/-! ## The flattening -/

/-- One result of one link of one test. -/
structure MetadataEntry where
  test : String
  product : ProductSpec
  url : String
  label : String
  subtestName : Option String
  status : Option TestStatus
deriving DecidableEq

/-- The entry of a result of a link, under the given product. -/
def entryOf (test : String) (product : ProductSpec) (link : MetadataLink)
    (result : MetadataTestResult) : MetadataEntry :=
  { test, product, url := link.url, label := link.label, subtestName := result.subtestName,
    status := result.status }

/-- The entries of a link in a folder. -/
def linkEntries (folderPath : String) (link : MetadataLink) : Multiset MetadataEntry :=
  link.results.map fun result =>
    entryOf (getWPTTestPath folderPath result.testPath) link.product link result

/-- The entries of a folder's links. -/
def folderEntries (folderPath : String) (metadata : Metadata) : Multiset MetadataEntry :=
  (metadata.links.map (linkEntries folderPath)).sum

/-- **The flattening of a files map**: what `constructMetadataResponse` goes
through before it selects by product. -/
def flatten (files : GoMap String Metadata) : Multiset MetadataEntry :=
  files.bindEntries folderEntries

end WptFyi.Shared
