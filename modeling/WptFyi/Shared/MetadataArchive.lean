import WptFyi.Shared.ProductSpecs
import WptFyi.Shared.TriageMetadata

/-!
# The archive of the metadata repository (`shared/metadata_util.go`)

The repository is fetched as a tar archive with a single leading directory;
`parseMetadataFromGZip` keys the content of each `META.yml` file by its folder.
Triage looks a folder up under the path that `splitWPTTestPath` cuts off a test path,
and writes it back to `getMetadataFilePath` of that.

The key is made by cutting off the leading directory and the file name, each with a slash. The file
of the root has nothing between the two, and the cut that takes off the name with its slash finds
no slash there, so the key of this file is its name, under which no folder is looked up.

- `metadataKey`, `parseMetadataFromGZip`: the keys of an archive;
- `parseMetadataFromGZip_lookup`: what a file is found under;
- `KeyedAs`: a folder's file comes back under the folder;
- `FoundForTest`: triage finds the metadata of a test's folder;
- `metadata_paths_iff`: both are so for every folder but the root, whose file is keyed
  by its own name.
-/

namespace WptFyi.Shared

open Lib Lib.GoStrings

abbrev Bytes := List UInt8

def metadataFileName : String := "META.yml"

/-- `GetMetadataFilePath`. -/
def getMetadataFilePath (folderName : String) : String :=
  if folderName = "" then metadataFileName else folderName ++ "/" ++ metadataFileName

/-- An entry of a tar archive, and what reading it gives. -/
structure TarEntry (ε : Type) where
  name : String
  /-- `tar.TypeReg` -/
  regular : Bool
  data : Except ε Bytes

/-- `name[strings.Index(name, "/")+1:]`: all of it where there is no slash. -/
def afterFirstSlash (name : String) : String :=
  match name.toList.dropWhile (· ≠ '/') with
  | [] => name
  | _ :: rest => String.ofList rest

/-- The key of a metadata file: its path without the leading directory and the file
name. -/
def metadataKey (name : String) : String := trimSuffix (afterFirstSlash name) "/META.yml"

/-- The files that are read. -/
def TarEntry.isMetadata {ε : Type} (entry : TarEntry ε) : Bool :=
  entry.regular && hasSuffix entry.name "META.yml"

/-- One turn of the loop of `parseMetadataFromGZip`. -/
def addTarEntry {ε : Type} (metadataMap : GoMap String Bytes) (entry : TarEntry ε) :
    Except ε (GoMap String Bytes) :=
  if entry.isMetadata then
    match entry.data with
    | .error err => .error err
    | .ok data => .ok (metadataMap.insert (metadataKey entry.name) data)
  else .ok metadataMap

/-- `parseMetadataFromGZip`, for the entries up to the end of the archive or up to an
error of `Next`. -/
def parseMetadataFromGZip {ε : Type} (entries : List (TarEntry ε)) (nextErr : Option ε) :
    Except ε (GoMap String Bytes) := do
  let metadataMap ← entries.foldlM addTarEntry ∅
  match nextErr with
  | some err => .error err
  | none => .ok metadataMap

/-- `parseMetadata`: files that `yaml.Unmarshal` fails on are left out. -/
def parseMetadata (unmarshal : Bytes → Option Metadata) (metadataByteMap : GoMap String Bytes) :
    GoMap String Metadata := GoMap.filterMapValues unmarshal metadataByteMap

/-! ## The keys of an archive

Each `META.yml` of the archive is put under the key that is made of its name. A file that comes
later under the same key replaces the earlier one. -/

section Parse

variable {ε : Type}

/-- The two steps of a computation that raised nothing. -/
theorem exists_of_bind_ok {α β : Type} {x : Except ε α} {f : α → Except ε β} {b : β}
    (h : (x >>= f) = .ok b) : ∃ a, x = .ok a ∧ f a = .ok b := by
  cases x with
  | error err => cases h
  | ok a => exact ⟨a, rfl, h⟩

/-- An entry changes what is under its own key, if it is metadata at all. -/
theorem addTarEntry_lookup {m m' : GoMap String Bytes} {entry : TarEntry ε}
    (h : addTarEntry m entry = .ok m') {key : String}
    (hkey : entry.isMetadata = true → metadataKey entry.name ≠ key) :
    m'.lookup key = m.lookup key := by
  unfold addTarEntry at h
  split at h
  · next hmetadata =>
    split at h
    · cases h
    · cases h
      exact Finmap.lookup_insert_of_ne _ (hkey hmetadata).symm
  · cases h
    rfl

/-- So do entries that have other keys. -/
theorem foldlM_addTarEntry_lookup {m m' : GoMap String Bytes} {entries : List (TarEntry ε)}
    (h : entries.foldlM addTarEntry m = .ok m') {key : String}
    (hkey : ∀ entry ∈ entries, entry.isMetadata = true → metadataKey entry.name ≠ key) :
    m'.lookup key = m.lookup key := by
  induction entries generalizing m with
  | nil =>
    cases h
    rfl
  | cons entry entries ih =>
    obtain ⟨m₁, hentry, hrest⟩ := exists_of_bind_ok h
    rw [ih hrest fun e he => hkey e (List.mem_cons_of_mem _ he),
      addTarEntry_lookup hentry (hkey entry List.mem_cons_self)]

/-- **What an archive is parsed to**: a file that no later one replaces is under its
key. -/
theorem parseMetadataFromGZip_lookup {before after : List (TarEntry ε)} {name : String}
    {data : Bytes} {m : GoMap String Bytes} (hname : hasSuffix name "META.yml" = true)
    (h : parseMetadataFromGZip (before ++ ⟨name, true, .ok data⟩ :: after) none = .ok m)
    (hafter : ∀ entry ∈ after, entry.isMetadata = true →
      metadataKey entry.name ≠ metadataKey name) :
    m.lookup (metadataKey name) = some data := by
  obtain ⟨m', hfold, hm⟩ := exists_of_bind_ok h
  cases hm
  rw [List.foldlM_append] at hfold
  obtain ⟨m₁, -, hfold⟩ := exists_of_bind_ok hfold
  obtain ⟨m₂, hentry, hrest⟩ := exists_of_bind_ok hfold
  have hmetadata : (⟨name, true, .ok data⟩ : TarEntry ε).isMetadata = true := hname
  rw [addTarEntry, if_pos hmetadata] at hentry
  cases hentry
  rw [foldlM_addTarEntry_lookup hrest hafter, Finmap.lookup_insert]

end Parse

/-! ## Keys and folders -/

theorem afterFirstSlash_append {leading : String} (h : '/' ∉ leading.toList) (rest : String) :
    afterFirstSlash (leading ++ "/" ++ rest) = rest := by
  have hlist : (leading ++ "/" ++ rest).toList = leading.toList ++ '/' :: rest.toList := by simp
  have hdrop : (leading.toList ++ '/' :: rest.toList).dropWhile (· ≠ '/') = '/' :: rest.toList := by
    rw [List.dropWhile_append_of_pos]
    · simp
    · intro c hc
      simpa using fun heq : c = '/' => h (heq ▸ hc)
  rw [afterFirstSlash, hlist, hdrop]
  exact String.ofList_toList

/-- The key of the file of a folder. -/
theorem metadataKey_getMetadataFilePath {leading : String} (h : '/' ∉ leading.toList)
    (folderName : String) :
    metadataKey (leading ++ "/" ++ getMetadataFilePath folderName) =
      if folderName = "" then metadataFileName else folderName := by
  rw [metadataKey, afterFirstSlash_append h, getMetadataFilePath]
  split
  · -- the file name alone does not end in a slash and the file name
    decide
  · have hpath : folderName ++ "/" ++ metadataFileName = folderName ++ "/META.yml" :=
      String.append_assoc
    rw [hpath, trimSuffix_append]

theorem hasSuffix_getMetadataFilePath (leading folderName : String) :
    hasSuffix (leading ++ "/" ++ getMetadataFilePath folderName) "META.yml" = true := by
  rw [hasSuffix_iff, getMetadataFilePath, String.toList_append]
  refine List.IsSuffix.trans ?_ (List.suffix_append _ _)
  split
  · exact List.suffix_refl _
  · rw [String.toList_append]
    exact List.suffix_append _ _

/-- In any archive with the metadata file of a folder below its leading directory, and
no later entry that replaces it, the content is found under the folder. -/
def KeyedAs (folderName : String) : Prop :=
  ∀ (leading : String) (data : Bytes) (before after : List (TarEntry String))
    (m : GoMap String Bytes), '/' ∉ leading.toList →
    parseMetadataFromGZip (before ++
      ⟨leading ++ "/" ++ getMetadataFilePath folderName, true, .ok data⟩ :: after) none = .ok m →
    (∀ entry ∈ after, entry.isMetadata = true → metadataKey entry.name ≠ folderName) →
    m.lookup folderName = some data

/-- An archive that has the metadata of the root only. -/
def rootArchive : List (TarEntry String) :=
  [⟨"wpt-metadata/META.yml", true, .ok [108, 105, 110, 107, 115, 58]⟩]

/-- The file of the root is found under its own name. -/
theorem parse_rootArchive :
    parseMetadataFromGZip rootArchive none =
      .ok (Finmap.singleton "META.yml" [108, 105, 110, 107, 115, 58]) := by
  have hkey : metadataKey "wpt-metadata/META.yml" = "META.yml" := by decide
  have hmetadata : (⟨"wpt-metadata/META.yml", true, .ok [108, 105, 110, 107, 115, 58]⟩ :
      TarEntry String).isMetadata = true := by decide
  show (do
    let m ← addTarEntry ∅ (⟨"wpt-metadata/META.yml", true, .ok [108, 105, 110, 107, 115, 58]⟩ :
      TarEntry String)
    Except.ok m) = _
  rw [addTarEntry, if_pos hmetadata, hkey]
  rfl

/-- A folder's file is keyed by the folder unless the folder is the root. -/
theorem keyedAs_iff (folderName : String) : KeyedAs folderName ↔ folderName ≠ "" := by
  constructor
  · rintro h rfl
    have hfound := h "wpt-metadata" _ [] [] _ (by decide) parse_rootArchive
      (fun _ hentry => absurd hentry List.not_mem_nil)
    exact absurd hfound (by decide)
  · intro hne leading data before after m hleading hparse hafter
    have hkey := metadataKey_getMetadataFilePath hleading folderName
    rw [if_neg hne] at hkey
    have hlookup := parseMetadataFromGZip_lookup
      (hasSuffix_getMetadataFilePath leading folderName) hparse
    rw [hkey] at hlookup
    exact hlookup hafter

/-! ## Tests and their folders

A test is found under the folder that its path is split at, which is that of its `META.yml`; the
one at the root is the exception. -/

/-- A test path by its components. -/
def testPath (components : List String) : String := "/" ++ join components '/'

/-- The folder of a test in the repository. -/
def testFolder (components : List String) : String := join components.dropLast '/'

/-- Triage finds the metadata that an archive has for the folder of a test. -/
def FoundForTest (components : List String) : Prop :=
  ∀ (leading : String) (data : Bytes) (before after : List (TarEntry String))
    (m : GoMap String Bytes) (unmarshal : Bytes → Option Metadata) (existing : Metadata),
    '/' ∉ leading.toList →
    parseMetadataFromGZip (before ++
      ⟨leading ++ "/" ++ getMetadataFilePath (testFolder components), true, .ok data⟩ :: after)
      none = .ok m →
    (∀ entry ∈ after, entry.isMetadata = true →
      metadataKey entry.name ≠ testFolder components) →
    unmarshal data = some existing →
    (parseMetadata unmarshal m).lookup (folderOf (testPath components)) = some existing

/-- The components of a path. -/
def Components (components : List String) : Prop :=
  components ≠ [] ∧ ∀ component ∈ components, component ≠ "" ∧ '/' ∉ component.toList

/-- Joining with one more piece at the end. -/
theorem join_concat {init : List String} (hne : init ≠ []) (last : String) :
    join (init ++ [last]) '/' = join init '/' ++ "/" ++ last := by
  induction init with
  | nil => exact absurd rfl hne
  | cons a init ih =>
    rw [← String.toList_inj]
    cases init with
    | nil => simp [toList_join_cons_cons, join_singleton]
    | cons b init =>
      have hrest := ih (List.cons_ne_nil b init)
      rw [← String.toList_inj] at hrest
      rw [List.cons_append, List.cons_append, toList_join_cons_cons, ← List.cons_append, hrest]
      simp [toList_join_cons_cons]

/-- Only a test directly under the root has an empty folder. -/
theorem testFolder_eq_empty_iff {components : List String} (h : Components components) :
    testFolder components = "" ↔ components.length = 1 := by
  obtain ⟨init, last, rfl⟩ : ∃ init last, components = init ++ [last] :=
    ⟨_, _, (List.dropLast_append_getLast h.1).symm⟩
  rw [testFolder, List.dropLast_concat, List.length_append, List.length_singleton,
    Nat.add_eq_right, List.length_eq_zero_iff]
  constructor
  · intro hempty
    cases init with
    | nil => rfl
    | cons a init =>
      have ha := (h.2 a (List.mem_append_left _ List.mem_cons_self)).1
      rw [← String.toList_inj] at hempty
      cases init with
      | nil => exact absurd (String.toList_inj.mp (by simpa [join_singleton] using hempty)) ha
      | cons b init => simp [toList_join_cons_cons] at hempty
  · rintro rfl
    rfl

/-- A test path is split into its folder and its name. -/
theorem splitWPTTestPath_testPath {components : List String} (h : Components components) :
    splitWPTTestPath (testPath components) =
      (testFolder components, components.getLast h.1) := by
  obtain ⟨hne, hparts⟩ := h
  obtain ⟨init, last, rfl⟩ : ∃ init last, components = init ++ [last] :=
    ⟨_, _, (List.dropLast_append_getLast hne).symm⟩
  have hlast := (hparts last (List.mem_append_right _ List.mem_cons_self)).2
  rw [testPath, testFolder, List.dropLast_concat, List.getLast_concat]
  by_cases hinit : init = []
  · subst hinit
    rw [List.nil_append, join_singleton]
    exact splitWPTTestPath_root hlast
  · rw [join_concat hinit, ← String.append_assoc, ← String.append_assoc]
    exact splitWPTTestPath_folder _ hlast

/-- Going through folder and name gives the path back. -/
theorem getWPTTestPath_testPath {components : List String} (h : Components components) :
    getWPTTestPath (splitWPTTestPath (testPath components)).1
      (splitWPTTestPath (testPath components)).2 = testPath components := by
  have hfolder := testFolder_eq_empty_iff h
  rw [splitWPTTestPath_testPath h, getWPTTestPath]
  obtain ⟨init, last, rfl⟩ : ∃ init last, components = init ++ [last] :=
    ⟨_, _, (List.dropLast_append_getLast h.1).symm⟩
  rw [testPath, testFolder, List.dropLast_concat, List.getLast_concat]
  rw [testFolder, List.dropLast_concat] at hfolder
  by_cases hinit : init = []
  · subst hinit
    rw [if_pos (hfolder.mpr rfl), List.nil_append, join_singleton]
  · have hne : join init '/' ≠ "" := fun hempty => hinit (by simpa using hfolder.mp hempty)
    rw [if_neg hne, join_concat hinit, String.append_assoc, String.append_assoc,
      String.append_assoc]

/-- **Paths round trip through archive and triage exactly below the root**: a folder's
file is keyed by the folder unless it is the root's, and a test path is split and put
together again, with its folder's metadata found, unless it is directly under the
root. -/
theorem metadata_paths_iff (folderName : String) (components : List String) :
    (KeyedAs folderName ↔ folderName ≠ "") ∧
    (Components components →
      ((getWPTTestPath (splitWPTTestPath (testPath components)).1
          (splitWPTTestPath (testPath components)).2 = testPath components ∧
        FoundForTest components) ↔ components.length ≠ 1)) := by
  refine ⟨keyedAs_iff folderName, fun hcomponents => ?_⟩
  rw [and_iff_right (getWPTTestPath_testPath hcomponents), ne_eq,
    ← testFolder_eq_empty_iff hcomponents]
  have hfolder : folderOf (testPath components) = testFolder components :=
    congrArg Prod.fst (splitWPTTestPath_testPath hcomponents)
  unfold FoundForTest
  rw [hfolder]
  constructor
  · intro h hroot
    rw [hroot] at h
    -- an archive with the root META.yml alone: its entry is skipped, so nothing is found
    have hfound := h "wpt-metadata" _ [] [] _ (fun _ => some ⟨[]⟩) ⟨[]⟩ (by decide)
      parse_rootArchive (fun _ hentry => absurd hentry List.not_mem_nil) rfl
    rw [parseMetadata, GoMap.lookup_filterMapValues] at hfound
    exact absurd hfound (by decide)
  · intro hne leading data before after m unmarshal existing hleading hparse hafter hdata
    have hkeyed := (keyedAs_iff (testFolder components)).mpr hne leading data before after m
      hleading hparse hafter
    rw [parseMetadata, GoMap.lookup_filterMapValues, hkeyed]
    exact hdata

/-- The file of the root is found under its own name only. -/
theorem not_keyedAs_root : ¬KeyedAs "" := by
  intro h
  have hfound := h "wpt-metadata" _ [] [] _ (by decide) parse_rootArchive
    (fun _ hentry => absurd hentry List.not_mem_nil)
  exact absurd hfound (by decide)

end WptFyi.Shared
