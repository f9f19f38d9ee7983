import WptFyi.Webapp.QueryGrammar

/-!
# Matching the query grammar (`webapp/components/test-search.js`)

Every rule of `QUERY_GRAMMAR` as a function from a text to a parse tree and what is
left of the text. Choice is ordered, repetition takes all it can, and neither is
tried again. A rule with a capital letter skips spaces before each of its parts.
The rules that call each other take `fuel`, which bounds how deep they do; without any left,
a rule matches nothing.

Words of the grammar match in any letter case, and a name that is not in quotation marks cannot
begin with one of them. What a letter is, the grammar leaves to its library, and so it is a
parameter here.

- `Rule`, `many`, `caseInsensitive`: what rules are made of;
- `atomExp`, `expList`: the rules of the grammar;
- `matchRoot`: the parse tree of a search, when the whole text matches.
-/

namespace WptFyi.Webapp.QueryParser

open Lib Lib.GoStrings Query

/-- A rule: the tree, and the text after it. -/
abbrev Rule (α : Type) := List Char → Option (α × List Char)

/-- `space*`. -/
def skipSpaces (cs : List Char) : List Char := cs.dropWhile fun c => c.toNat ≤ 0x20

/-- A terminal. -/
def terminal (word : String) (cs : List Char) : Option (List Char) :=
  if word.toList.isPrefixOf cs then some (cs.drop word.length) else none

/-- A terminal in a rule that skips spaces. -/
def spacedTerminal (word : String) (cs : List Char) : Option (List Char) :=
  terminal word (skipSpaces cs)

/-- What both a separator and an element match, as often as they do. -/
def many {α : Type} (elem : Rule α) : Nat → Rule (List α)
  | 0, _ => none
  | fuel + 1, cs =>
    match elem cs with
    | none => some ([], cs)
    | some (x, cs) => (many elem fuel cs).map fun (xs, cs) => (x :: xs, cs)

section Tokens

variable (m : CaseTables)

/-- A rule whose alternatives are case-insensitive words. -/
def caseInsensitive (words : List String) : Rule (CaseInsensitive m words) := fun cs =>
  words.attach.findSome? fun ⟨word, hword⟩ =>
    let text := String.ofList (cs.take word.length)
    if h : m.upper.toUpper text = m.upper.toUpper word then
      some (⟨word, text, hword, h⟩, cs.drop word.length)
    else none

/-- `caseInsensitive<word>`. -/
def keyword (word : String) (cs : List Char) : Option (List Char) :=
  (caseInsensitive m [word] cs).map Prod.snd

def number : Rule NumberToken := fun cs =>
  if h : cs.takeWhile Char.isDigit = [] then none
  else some (⟨_, h, fun _ hc => List.mem_takeWhile_imp hc⟩, cs.dropWhile Char.isDigit)

def browserVersion : Rule (NumberToken × List NumberToken) := fun cs => do
  let (fst, cs) ← number cs
  let (rest, cs) ← many (fun cs => terminal "." cs >>= number) (cs.length + 1) cs
  return ((fst, rest), cs)

def productSpec : Rule (ProductSpecToken m) := fun cs => do
  let (browserName, cs) ← caseInsensitive m allBrowserNames cs
  match terminal "-" cs >>= browserVersion with
  | some (version, cs) => some (⟨browserName, some version⟩, cs)
  | none => some (⟨browserName, none⟩, cs)

/-- The words a pattern cannot begin with. -/
def reservedWords : List String :=
  allBrowserNames ++ ["not", "and", "or", "all", "none", "exists", "seq", "count", "one", "two",
    "three", "status", "subtest", "path", "link", "triaged", "label", "feature", "is"]

/-- `nameFragmentChar`. -/
def isNameFragmentChar (c : Char) : Bool :=
  c.toNat ≤ 0x08 || (0x0E ≤ c.toNat && c.toNat ≤ 0x1F) || c.toNat = 0x21 || 0x23 ≤ c.toNat

/-- `(space+ nameFragmentChar+)*`. -/
def fragmentWords : Nat → Rule (List Char)
  | 0, _ => none
  | fuel + 1, cs =>
    let spaces := cs.takeWhile fun c => c.toNat ≤ 0x20
    let word := (cs.drop spaces.length).takeWhile isNameFragmentChar
    if spaces = [] ∨ word = [] then some ([], cs)
    else (fragmentWords fuel (cs.drop (spaces.length + word.length))).map fun (words, cs) =>
      (spaces ++ word ++ words, cs)

/-- A fragment that is not empty. -/
def nameFragmentOf (text : String) : Option NameFragment :=
  if h : text = "" then none else some ⟨text, h⟩

/-- `nameFragment`, where `isLetter` is the built-in rule `letter`. -/
def nameFragment (isLetter : Char → Bool) : Rule NameFragment := fun cs =>
  let isBasic (c : Char) : Bool := isLetter c || c.isDigit || ['/', '.', '-', '_', '?'].contains c
  match nameFragmentOf (String.ofList (cs.takeWhile isBasic)) with
  | some p => some (p, cs.dropWhile isBasic)
  | none => do
    let cs ← terminal "\"" cs
    let word := cs.takeWhile isNameFragmentChar
    let (words, cs) ← fragmentWords (cs.length + 1) (cs.drop word.length)
    let cs ← terminal "\"" cs
    -- `nameFragmentChar+` comes first
    if word = [] then none else (nameFragmentOf (String.ofList (word ++ words))).map (·, cs)

end Tokens

section Rules

variable (m : CaseTables) (isLetter : Char → Bool)

def statusExp : Rule (AtomExp m) := fun cs =>
  (do let cs ← keyword m "status" cs >>= terminal ":"
      let (r, cs) ← caseInsensitive m statuses cs
      return (.statusEq r, cs))
  <|> (do let cs ← keyword m "status" cs >>= terminal ":!"
          let (r, cs) ← caseInsensitive m statuses cs
          return (.statusNeq r, cs))
  <|> (do let (l, cs) ← productSpec m cs
          let cs ← terminal ":" cs
          let (r, cs) ← caseInsensitive m statuses cs
          return (.statusProductEq l r, cs))
  <|> (do let (l, cs) ← productSpec m cs
          let cs ← terminal ":!" cs
          let (r, cs) ← caseInsensitive m statuses cs
          return (.statusProductNeq l r, cs))

/-- `subtestExp` and its like, which differ in the word. -/
def fragmentExp (word : String) (atom : NameFragment → AtomExp m) : Rule (AtomExp m) := fun cs => do
  let cs ← keyword m word cs >>= terminal ":"
  let (r, cs) ← nameFragment isLetter cs
  return (atom r, cs)

def triagedExp : Rule (AtomExp m) := fun cs => do
  let cs ← keyword m "triaged" cs >>= terminal ":"
  ((caseInsensitive m allBrowserNames cs).map fun (r, cs) => (.triagedBrowser r, cs))
    <|> ((terminal "test-issue" cs).map fun cs => (.triagedTestIssue, cs))

def isExp : Rule (AtomExp m) := fun cs => do
  let cs ← keyword m "is" cs >>= terminal ":"
  let (r, cs) ← caseInsensitive m metadataQualities cs
  return (.isExp r, cs)

def patternExp : Rule (AtomExp m) := fun cs =>
  if (caseInsensitive m reservedWords cs).isSome then none
  else (nameFragment isLetter cs).map fun (p, cs) => (.patternExp p, cs)

/-- The rules of `Fragment` without `not`, in order. -/
def atomExp : Rule (AtomExp m) := fun cs =>
  let cs := skipSpaces cs
  fragmentExp m isLetter "link" .linkExp cs <|> isExp m cs <|> triagedExp m cs
    <|> fragmentExp m isLetter "label" .labelExp cs
    <|> fragmentExp m isLetter "feature" .webFeatureExp cs
    <|> statusExp m cs <|> fragmentExp m isLetter "subtest" .subtestExp cs
    <|> fragmentExp m isLetter "path" .pathExp cs <|> patternExp m isLetter cs

/-- `not`. -/
def notWord (cs : List Char) : Option (List Char) :=
  spacedTerminal "!" cs <|> spacedTerminal "not" cs

/-- `and`. -/
def andWord (cs : List Char) : Option (List Char) :=
  spacedTerminal "&" cs <|> keyword m "and" (skipSpaces cs)

/-- `or`. -/
def orWord (cs : List Char) : Option (List Char) :=
  spacedTerminal "|" cs <|> keyword m "or" (skipSpaces cs)

def fragment : Nat → Rule (Fragment m)
  | 0, _ => none
  | fuel + 1, cs =>
    (do let cs ← notWord cs
        let (p, cs) ← fragment fuel cs
        return (.not p, cs))
    <|> ((atomExp m isLetter cs).map fun (e, cs) => (.atom e, cs))

mutual

def exp : Nat → Rule (Exp m)
  | 0, _ => none
  | fuel + 1, cs => do
    let (fst, cs) ← orPart fuel cs
    let (rest, cs) ← many (fun cs => orWord m cs >>= orPart fuel) fuel cs
    return (.list fst rest, cs)

def orPart : Nat → Rule (OrPart m)
  | 0, _ => none
  | fuel + 1, cs => do
    let (fst, cs) ← andPart fuel cs
    let (rest, cs) ← many (fun cs => andWord m cs >>= andPart fuel) fuel cs
    return (.list fst rest, cs)

def andPart : Nat → Rule (AndPart m)
  | 0, _ => none
  | fuel + 1, cs =>
    ((nestedExp fuel cs).map fun (p, cs) => (.nestedExp p, cs))
      <|> ((fragment m isLetter fuel cs).map fun (p, cs) => (.fragment p, cs))

def nestedExp : Nat → Rule (NestedExp m)
  | 0, _ => none
  | fuel + 1, cs =>
    (do let cs ← spacedTerminal "(" cs
        let (p, cs) ← exp fuel cs
        let cs ← spacedTerminal ")" cs
        return (.paren p, cs))
    <|> (do let cs ← notWord cs
            let (p, cs) ← nestedExp fuel cs
            return (.not p, cs))

end

def inequality (cs : List Char) : Option (Inequality × List Char) :=
  let cs := skipSpaces cs
  ((terminal ">=" cs).map (.ge, ·)) <|> ((terminal "<=" cs).map (.le, ·))
    <|> ((terminal ">" cs).map (.gt, ·)) <|> ((terminal "<" cs).map (.lt, ·))
    <|> ((terminal "=" cs).map (.eq, ·))

def countSpecifier : Rule CountSpecifier := fun cs =>
  (do let cs ← spacedTerminal "count" cs
      let (c, cs) ← inequality ((spacedTerminal ":" cs).getD cs)
      let (n, cs) ← number (skipSpaces cs)
      return (.countInequality c n, cs))
  <|> (do let cs ← spacedTerminal "count:" cs
          let (n, cs) ← number (skipSpaces cs)
          return (.countN n, cs))
  <|> ((spacedTerminal "three" cs).map (.count3, ·))
  <|> ((spacedTerminal "two" cs).map (.count2, ·))
  <|> ((spacedTerminal "one" cs).map (.count1, ·))

/-- `word ListOf<Exp, space*> ")"`. -/
def expList (word : String) (fuel : Nat) : Rule (List (Exp m)) := fun cs => do
  let cs ← spacedTerminal word cs
  let (l, cs) ← many (exp m isLetter fuel) fuel cs
  let cs ← spacedTerminal ")" cs
  return (l, cs)

def count (fuel : Nat) : Rule (CountSpecifier × Exp m) := fun cs => do
  let (specifier, cs) ← countSpecifier cs
  let cs ← spacedTerminal "(" cs
  let (body, cs) ← exp m isLetter fuel cs
  let cs ← spacedTerminal ")" cs
  return ((specifier, body), cs)

mutual

def orQ : Nat → Rule (OrQ m)
  | 0, _ => none
  | fuel + 1, cs => do
    let (fst, cs) ← andQ fuel cs
    let (rest, cs) ← many (fun cs => orWord m cs >>= andQ fuel) fuel cs
    return (.list fst rest, cs)

def andQ : Nat → Rule (AndQ m)
  | 0, _ => none
  | fuel + 1, cs => do
    let (fst, cs) ← q fuel cs
    let (rest, cs) ← many (fun cs => andWord m cs >>= q fuel) fuel cs
    return (.list fst rest, cs)

def q : Nat → Rule (Q m)
  | 0, _ => none
  | fuel + 1, cs =>
    ((expList m isLetter "all(" fuel cs).map fun (l, cs) => (.all l, cs))
    <|> ((expList m isLetter "none(" fuel cs).map fun (l, cs) => (.none l, cs))
    <|> ((count m isLetter fuel cs).map fun ((specifier, body), cs) => (.count specifier body, cs))
    <|> ((expList m isLetter "seq(" fuel cs).map fun (l, cs) => (.sequential l, cs))
    <|> ((expList m isLetter "exists(" fuel cs).map fun (l, cs) => (.existsExplicit l, cs))
    <|> ((andPart m isLetter fuel cs).map fun (p, cs) => (.existsImplicit p, cs))
    <|> (do let cs ← spacedTerminal "(" cs
            let (r, cs) ← many (orQ fuel) fuel cs
            let cs ← spacedTerminal ")" cs
            return (.parenRoot r, cs))
    <|> (do let cs ← notWord cs
            let (p, cs) ← q fuel cs
            return (.not p, cs))

end

/-- `QUERY_GRAMMAR.match`. -/
def matchRoot (fuel : Nat) (search : String) : Option (Root m) := do
  let (r, cs) ← many (orQ m isLetter fuel) fuel search.toList
  if skipSpaces cs = [] then some r else none

end Rules

end WptFyi.Webapp.QueryParser
