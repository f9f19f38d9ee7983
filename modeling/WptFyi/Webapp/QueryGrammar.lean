import WptFyi.Lib.JsNumber
import WptFyi.Query.Decode

/-!
# The query grammar and what it means (`webapp/components/test-search.js`)

`QUERY_GRAMMAR` as the types of its parse trees, one constructor for each
alternative, and `QUERY_SEMANTICS` as one function for each rule. A parse tree
keeps of the text what the semantics reads: the words of case-insensitive
terminals as they were spelled, digits and name fragments.

The semantics builds objects, in two ways that matter later. The action of the root looks at the
objects it has got, and puts them into one `exists` when all of them are implicit ones; and a count
without its number adds what is counted to an object that another action returned.

- `Exp`, `OrQ`, `Root`: the parse trees;
- `StructuredQuery`: the objects that `eval` builds, and their JSON;
- `Root.eval`: the operation `eval` of a whole search.
-/

namespace WptFyi.Webapp

open Lib Lib.GoStrings Shared Query

/-! ## Tokens

What the parse tree keeps of the text, and then one type for each rule, with a constructor for each
alternative. -/

/-- `AllBrowserNames`. -/
def allBrowserNames : List String :=
  ["android_webview", "blitz", "chrome_android", "chrome_ios", "chrome", "chromium", "deno",
    "edge", "firefox_android", "firefox", "flow", "ladybird", "node.js", "safari", "servo",
    "webkitgtk", "wpewebkit", "wktr"]

def statuses : List String :=
  ["pass", "ok", "error", "timeout", "notrun", "fail", "crash", "skip", "assert", "unknown",
    "missing", "precondition_failed"]

def metadataQualities : List String := ["different", "tentative", "optional"]

/-- The rules whose alternatives are case-insensitive words: the word that
matched, and the text it matched. -/
structure CaseInsensitive (m : CaseTables) (words : List String) where
  word : String
  text : String
  mem : word ∈ words
  same : m.upper.toUpper text = m.upper.toUpper word

/-- `number`. -/
structure NumberToken where
  digits : List Char
  ne_nil : digits ≠ []
  isDigit : ∀ c ∈ digits, c.isDigit = true

/-- `nameFragment`, without its quotation marks. -/
structure NameFragment where
  text : String
  ne_empty : text ≠ ""

section Trees

variable (m : CaseTables)

/-- `productSpec`: `browserName ("-" browserVersion)?`. -/
structure ProductSpecToken where
  browserName : CaseInsensitive m allBrowserNames
  browserVersion : Option (NumberToken × List NumberToken)

/-- The alternatives of `Fragment` without `not`. -/
inductive AtomExp where
  | linkExp (r : NameFragment)
  | isExp (r : CaseInsensitive m metadataQualities)
  | triagedBrowser (r : CaseInsensitive m allBrowserNames)
  | triagedTestIssue
  | labelExp (r : NameFragment)
  | webFeatureExp (r : NameFragment)
  | statusEq (r : CaseInsensitive m statuses)
  | statusNeq (r : CaseInsensitive m statuses)
  | statusProductEq (l : ProductSpecToken m) (r : CaseInsensitive m statuses)
  | statusProductNeq (l : ProductSpecToken m) (r : CaseInsensitive m statuses)
  | subtestExp (r : NameFragment)
  | pathExp (r : NameFragment)
  | patternExp (p : NameFragment)

inductive Fragment where
  | not (p : Fragment)
  | atom (e : AtomExp m)

mutual

/-- `NonemptyListOf<OrPart, or>`. -/
inductive Exp where
  | list (fst : OrPart) (rest : List OrPart)

/-- `NonemptyListOf<AndPart, and>`. -/
inductive OrPart where
  | list (fst : AndPart) (rest : List AndPart)

inductive AndPart where
  | nestedExp (p : NestedExp)
  | fragment (p : Fragment m)

inductive NestedExp where
  | paren (p : Exp)
  | not (p : NestedExp)

end

inductive Inequality where
  | ge | le | gt | lt | eq

inductive CountSpecifier where
  | countInequality (c : Inequality) (n : NumberToken)
  | countN (n : NumberToken)
  | count3
  | count2
  | count1

mutual

/-- `NonemptyListOf<AndQ, or>`. -/
inductive OrQ where
  | list (fst : AndQ) (rest : List AndQ)

/-- `NonemptyListOf<Q, and>`. -/
inductive AndQ where
  | list (fst : Q) (rest : List Q)

inductive Q where
  | all (l : List (Exp m))
  | none (l : List (Exp m))
  | count (cs : CountSpecifier) (exp : Exp m)
  | sequential (l : List (Exp m))
  | existsExplicit (e : List (Exp m))
  | existsImplicit (e : AndPart m)
  -- `"(" Root ")"`
  | parenRoot (r : List OrQ)
  | not (p : Q)

end

/-- `Root`: `ListOf<OrQ, space*>`. -/
abbrev Root := List (OrQ m)

end Trees

/-! ## Structured queries

The objects that the actions build, and the functions that the actions of several rules share. -/

/-- The objects that `eval` builds. A product and a status are one object. -/
inductive StructuredQuery where
  | pattern (s : String)
  | subtest (s : String)
  | path (s : String)
  | link (s : String)
  | label (s : String)
  | feature (s : String)
  | is (s : String)
  | triaged (s : String)
  | status (product : Option String) (status : String)
  | statusNot (product : Option String) (status : String)
  | not (p : StructuredQuery)
  | and (ps : List StructuredQuery)
  | or (ps : List StructuredQuery)
  | exists (ps : List StructuredQuery)
  | all (ps : List StructuredQuery)
  | none (ps : List StructuredQuery)
  | sequential (ps : List StructuredQuery)
  | count (n : JsNumber) (body : StructuredQuery)
  | moreThan (n : JsNumber) (body : StructuredQuery)
  | lessThan (n : JsNumber) (body : StructuredQuery)

namespace StructuredQuery

/-- The member `product`, where there is one. -/
def productMember (product : Option String) : List (String × Json) :=
  (product.map fun p => ("product", Json.string p)).toList

mutual

/-- `JSON.stringify`. -/
def toJson : StructuredQuery → Json
  | .pattern s => .object [("pattern", .string s)]
  | .subtest s => .object [("subtest", .string s)]
  | .path s => .object [("path", .string s)]
  | .link s => .object [("link", .string s)]
  | .label s => .object [("label", .string s)]
  | .feature s => .object [("feature", .string s)]
  | .is s => .object [("is", .string s)]
  | .triaged s => .object [("triaged", .string s)]
  | .status product s => .object (productMember product ++ [("status", .string s)])
  | .statusNot product s =>
    .object (productMember product ++ [("status", .object [("not", .string s)])])
  | .not p => .object [("not", toJson p)]
  | .and ps => .object [("and", .array (toJsons ps))]
  | .or ps => .object [("or", .array (toJsons ps))]
  | .exists ps => .object [("exists", .array (toJsons ps))]
  | .all ps => .object [("all", .array (toJsons ps))]
  | .none ps => .object [("none", .array (toJsons ps))]
  | .sequential ps => .object [("sequential", .array (toJsons ps))]
  | .count n body => .object [("count", n.toJson), ("where", toJson body)]
  | .moreThan n body => .object [("moreThan", n.toJson), ("where", toJson body)]
  | .lessThan n body => .object [("lessThan", n.toJson), ("where", toJson body)]

def toJsons : List StructuredQuery → List Json
  | [] => []
  | p :: ps => toJson p :: toJsons ps

end

/-- `emptyQuery`. -/
def emptyQuery : StructuredQuery := .exists [.pattern ""]

mutual

/-- `isImplicitExists` of the action `Root`. -/
def isImplicitExists : StructuredQuery → Bool
  | .exists ps => ps.length == 1
  | .and ps => everyImplicitExists ps
  | .or ps => everyImplicitExists ps
  | _ => false

/-- `ps.every(isImplicitExists)`. -/
def everyImplicitExists : List StructuredQuery → Bool
  | [] => true
  | p :: ps => isImplicitExists p && everyImplicitExists ps

end

mutual

/-- `unwrap` of the action `Root`. -/
def unwrap : StructuredQuery → StructuredQuery
  | .exists (p :: _) => p
  | .or ps => .or (unwrapAll ps)
  | .and ps => .and (unwrapAll ps)
  | p => p

/-- `ps.map(unwrap)`. -/
def unwrapAll : List StructuredQuery → List StructuredQuery
  | [] => []
  | p :: ps => unwrap p :: unwrapAll ps

end

theorem everyImplicitExists_iff : ∀ {ps : List StructuredQuery},
    everyImplicitExists ps = true ↔ ∀ p ∈ ps, isImplicitExists p = true
  | [] => by simp [everyImplicitExists]
  | p :: ps => by
    rw [everyImplicitExists, Bool.and_eq_true, everyImplicitExists_iff, List.forall_mem_cons]

theorem unwrapAll_eq_map : ∀ ps : List StructuredQuery, unwrapAll ps = ps.map unwrap
  | [] => rfl
  | p :: ps => by rw [unwrapAll, unwrapAll_eq_map ps, List.map_cons]

theorem unwrapAll_ne_nil_iff {ps : List StructuredQuery} : unwrapAll ps ≠ [] ↔ ps ≠ [] := by
  rw [unwrapAll_eq_map, ne_eq, List.map_eq_nil_iff]

/-- `andConjunction`. -/
def andConjunction : List StructuredQuery → StructuredQuery
  | [p] => p
  | ps => .and ps

/-- `orConjunction`. -/
def orConjunction : List StructuredQuery → StructuredQuery
  | [p] => p
  | ps => .or ps

/-- The action `Root`, on the queries of its list. -/
def root (ps : List StructuredQuery) : StructuredQuery :=
  if ps = [] then emptyQuery
  else if everyImplicitExists ps then .exists (unwrapAll ps)
  else match ps with
    | [p] => p
    | ps => .and ps

/-- The actions `All`, `None` and `Sequential`: without arguments, everything. -/
def orEmptyQuery (query : List StructuredQuery → StructuredQuery) (ps : List StructuredQuery) :
    StructuredQuery :=
  if ps = [] then emptyQuery else query ps

end StructuredQuery

open StructuredQuery (emptyQuery orConjunction andConjunction root orEmptyQuery)

/-! ## Evaluation

One function for each rule of the grammar, in the order of the grammar. -/

section Eval

variable {m : CaseTables}

/-- The source text of `browserVersion`. -/
def versionText (version : NumberToken × List NumberToken) : String :=
  join ((version.1 :: version.2).map fun n => String.ofList n.digits) '.'

/-- The source text of `productSpec`. -/
def ProductSpecToken.sourceString (p : ProductSpecToken m) : String :=
  match p.browserVersion with
  | none => p.browserName.text
  | some version => p.browserName.text ++ "-" ++ versionText version

/-- The action `browserName`. -/
def evalBrowserName (browser : CaseInsensitive m allBrowserNames) : String :=
  m.upper.toUpper browser.text

/-- The action `statusLiteral`. -/
def evalStatusLiteral (status : CaseInsensitive m statuses) : String :=
  if m.upper.toUpper status.text = "MISSING" then "UNKNOWN" else m.upper.toUpper status.text

/-- `eval` of an atom. -/
def AtomExp.eval : AtomExp m → StructuredQuery
  | .linkExp r => if r.text = "" then emptyQuery else .link r.text
  | .isExp r => .is r.text
  | .triagedBrowser r =>
    if evalBrowserName r = "" then emptyQuery
    -- no browser's name contains `test-issue`, so `replace` does nothing
    else .triaged (m.lower.toLower (evalBrowserName r))
  | .triagedTestIssue => .triaged ""
  | .labelExp r => if r.text = "" then emptyQuery else .label r.text
  | .webFeatureExp r => if r.text = "" then emptyQuery else .feature r.text
  | .statusEq r => .status none (evalStatusLiteral r)
  | .statusNeq r => .statusNot none (evalStatusLiteral r)
  | .statusProductEq l r =>
    .status (some (m.lower.toLower l.sourceString)) (evalStatusLiteral r)
  | .statusProductNeq l r =>
    .statusNot (some (m.lower.toLower l.sourceString)) (evalStatusLiteral r)
  | .subtestExp r => .subtest r.text
  | .pathExp r => .path r.text
  | .patternExp p => .pattern p.text

def Fragment.eval : Fragment m → StructuredQuery
  | .not p => .not p.eval
  | .atom e => e.eval

mutual

def Exp.eval : Exp m → StructuredQuery
  | .list fst rest => orConjunction (fst.eval :: OrPart.evals rest)

def OrPart.eval : OrPart m → StructuredQuery
  | .list fst rest => andConjunction (fst.eval :: AndPart.evals rest)

def OrPart.evals : List (OrPart m) → List StructuredQuery
  | [] => []
  | p :: ps => p.eval :: OrPart.evals ps

def AndPart.eval : AndPart m → StructuredQuery
  | .nestedExp p => p.eval
  | .fragment p => p.eval

def AndPart.evals : List (AndPart m) → List StructuredQuery
  | [] => []
  | p :: ps => p.eval :: AndPart.evals ps

def NestedExp.eval : NestedExp m → StructuredQuery
  | .paren p => p.eval
  | .not p => .not p.eval

end

/-- The action `number`. -/
def NumberToken.eval (n : NumberToken) : JsNumber := .parseInt n.digits

/-- The actions of `CountSpecifier`, given what is counted: `Count` adds it to the
object that they return. -/
def CountSpecifier.eval (body : StructuredQuery) : CountSpecifier → StructuredQuery
  | .countInequality .ge n => .moreThan n.eval.parseIntAgain.pred body
  | .countInequality .gt n => .moreThan n.eval body
  | .countInequality .le n => .lessThan n.eval.parseIntAgain.succ body
  | .countInequality .lt n => .lessThan n.eval body
  | .countInequality .eq n => .count n.eval body
  | .countN n => .count n.eval body
  | .count3 => .count (.int 3) body
  | .count2 => .count (.int 2) body
  | .count1 => .count (.int 1) body

mutual

def OrQ.eval : OrQ m → StructuredQuery
  | .list fst rest => orConjunction (fst.eval :: AndQ.evals rest)

def OrQ.evals : List (OrQ m) → List StructuredQuery
  | [] => []
  | p :: ps => p.eval :: OrQ.evals ps

def AndQ.eval : AndQ m → StructuredQuery
  | .list fst rest => andConjunction (fst.eval :: Q.evals rest)

def AndQ.evals : List (AndQ m) → List StructuredQuery
  | [] => []
  | p :: ps => p.eval :: AndQ.evals ps

def Q.eval : Q m → StructuredQuery
  | .all l => orEmptyQuery .all (l.map Exp.eval)
  | .none l => orEmptyQuery .none (l.map Exp.eval)
  | .count cs exp => cs.eval exp.eval
  | .sequential l => orEmptyQuery .sequential (l.map Exp.eval)
  | .existsExplicit e => .exists (e.map Exp.eval)
  | .existsImplicit e => .exists [e.eval]
  | .parenRoot r => root (OrQ.evals r)
  | .not p => .not p.eval

def Q.evals : List (Q m) → List StructuredQuery
  | [] => []
  | p :: ps => p.eval :: Q.evals ps

end

theorem OrQ.evals_eq_map : ∀ qs : List (OrQ m), OrQ.evals qs = qs.map OrQ.eval
  | [] => rfl
  | q :: qs => by rw [OrQ.evals, OrQ.evals_eq_map qs, List.map_cons]

/-- `eval` of a search. -/
def Root.eval (r : Root m) : StructuredQuery := root (OrQ.evals r)

end Eval

end WptFyi.Webapp
