import WptFyi.Webapp.PrintedSpecs

/-!
# Query params of a test runs page (`webapp/components/test-runs-query.js`)

The state of the page is written to the params of its URL and read back from them.
A channel that all products share becomes one label of the query, and a channel
among the labels of a query is spread over all products.

Both directions work on printed specs, which they parse, change in their labels and print again. The
defaults are left out of the URL, so a page with the default products has no products in its params
and gets them back when it is loaded. Times are milliseconds, and their texts are what `Date` makes
of them.

- `computeTestRunQueryParams`, `getBatchUpdate`: the two directions;
- `SameParams`: params that are equal up to the order of labels;
- `Reloads`, `OneChannel`: a page keeps its params, and the condition for that.
-/

namespace WptFyi.Webapp

open Lib Lib.GoStrings UIProduct

/-! ## State and params

The two directions as the source has them, with the functions on channels that they share. -/

/-- `Date`s in milliseconds, and their texts. -/
structure DateText where
  toISOString : Int → String
  /-- `new Date(text)`. -/
  date : String → Int
  date_toISOString : ∀ t, date (toISOString t) = t

/-- A text that will do: the milliseconds. -/
def DateText.millis : DateText where
  toISOString := Int.repr
  date text := text.toInt?.getD 0
  date_toISOString t := by rw [Int.toInt?_repr, Option.getD_some]

/-- The state of the page; what is not set is empty or `none`. -/
structure UIState where
  shas : List String := []
  aligned : Bool := false
  master : Bool := false
  labels : List String := []
  productSpecs : List String := []
  fromDate : Option Int := none
  toDate : Option Int := none
  maxCount : Option Int := none
  offset : Option Int := none
  view : Option String := none
deriving DecidableEq

/-- The query params. -/
structure Params where
  sha : Option (List String) := none
  label : Option (List String) := none
  maxCount : Option Int := none
  offset : Option Int := none
  fromText : Option String := none
  toText : Option String := none
  product : Option (List String) := none
  aligned : Bool := false
  view : Option String := none
deriving DecidableEq

/-- `computeIsLatest` of several SHAs. -/
def computeAllLatest : List String → Bool
  | [] => true
  | [sha] => computeIsLatest sha
  | _ => false

/-- `computeIsDefaultProducts`. -/
def computeIsDefaultProducts (productSpecs : List String) : Bool :=
  decide (productSpecs = []) || join defaultProductSpecs ',' == join productSpecs ','

/-- The first channel of the first product, when every product has it. -/
def sharedChannel (products : List UIProduct) : Option String :=
  (products.head?.bind fun product => product.labels.find? (· ∈ channels)).filter fun channel =>
    products.all (channel ∈ ·.labels)

/-- The product without its channels. -/
def nonChannel (product : UIProduct) : UIProduct :=
  { product with labels := product.labels.filter (· ∉ channels) }

/-- The product in one channel only. -/
def inChannel (channel : String) (product : UIProduct) : UIProduct :=
  let labels := product.labels.filter fun label => label ∉ channels ∨ label = channel
  { product with labels := if channel ∈ product.labels then labels else labels ++ [channel] }

/-- The labels, with that of the master branch. -/
def withMaster (master : Bool) (labels : List String) : List String :=
  if master ∧ "master" ∉ labels then labels ++ ["master"] else labels

/-- `computeTestRunQueryParams`, once the specs are parsed. -/
def queryParams (defaultMaxCount : Option Int) (text : DateText) (s : UIState)
    (products : List UIProduct) : Params :=
  let labels := withMaster s.master s.labels
  let label := if labels ≠ [] then some labels else none
  let (label, productSpecs) := match sharedChannel products with
    | some channel =>
      (if channel ∈ labels then label else some (labels ++ [channel]),
        products.map fun product => getSpec (nonChannel product))
    | none => (label, products.map getSpec)
  { sha := if computeAllLatest s.shas then none else some s.shas
    label
    maxCount := (s.maxCount.filter (· ≠ 0)).or (defaultMaxCount.filter (· ≠ 0))
    offset := s.offset.filter (· ≠ 0)
    fromText := s.fromDate.map text.toISOString
    toText := s.toDate.map text.toISOString
    product := if computeIsDefaultProducts productSpecs then none else some productSpecs
    -- a SHA makes aligned redundant
    aligned := s.aligned && computeAllLatest s.shas
    view := s.view.filter (· ≠ "") }

/-- `computeTestRunQueryParams`. -/
def computeTestRunQueryParams (defaultMaxCount : Option Int) (text : DateText) (s : UIState) :
    Except String Params := do
  return queryParams defaultMaxCount text s (← s.productSpecs.mapM parseProductSpec)

/-- The specs in the channel of the query, if it has one. -/
def expandChannel (sharedChannel : Option String) (productSpecs : List String) :
    Except String (List String) :=
  match sharedChannel with
  | none => return productSpecs
  | some channel => productSpecs.mapM fun spec => do
      return getSpec (inChannel channel (← parseProductSpec spec))

/-- `_getBatchUpdate`, on a page where nothing else is set. -/
def getBatchUpdate (text : DateText) (params : Params) : Except String UIState := do
  let productSpecs := params.product.getD defaultProductSpecs
  let label := params.label.getD []
  let labels := label.filter (· ∉ channels)
  let productSpecs ← expandChannel (label.find? (· ∈ channels)) productSpecs
  let _products ← productSpecs.mapM parseProductSpec
  return {
    shas := if computeAllLatest (params.sha.getD []) then [] else params.sha.getD []
    aligned := params.aligned
    master := "master" ∈ labels
    labels := labels.filter (· ≠ "master")
    productSpecs
    fromDate := params.fromText.map text.date
    toDate := params.toText.map text.date
    maxCount := params.maxCount
    offset := params.offset
    view := params.view }

/-! ## Equal params -/

/-- What a spec stands for, its labels taken as a set. -/
def specKey (spec : String) : Except String (String × Option String × Finset String × String) :=
  (parseProductSpec spec).map fun p =>
    (p.browser_name, p.browser_version, p.labels.toFinset, p.revision)

/-- Equal up to the order of labels. -/
structure SameParams (params params' : Params) : Prop where
  sha : params.sha = params'.sha
  label : params.label.map List.toFinset = params'.label.map List.toFinset
  maxCount : params.maxCount = params'.maxCount
  offset : params.offset = params'.offset
  fromText : params.fromText = params'.fromText
  toText : params.toText = params'.toText
  product : params.product.map (List.map specKey) = params'.product.map (List.map specKey)
  aligned : params.aligned = params'.aligned
  view : params.view = params'.view

/-- A page loaded from its own URL has the params it had. -/
def Reloads (defaultMaxCount : Option Int) (text : DateText) (s : UIState) : Prop :=
  ∃ params s' params', computeTestRunQueryParams defaultMaxCount text s = .ok params ∧
    getBatchUpdate text params = .ok s' ∧
    computeTestRunQueryParams defaultMaxCount text s' = .ok params' ∧ SameParams params params'

/-- The labels of the query name one channel at most; and where they do without the
products sharing it, the products name none. -/
def OneChannel (labels : List String) (products : List UIProduct) : Prop :=
  match sharedChannel products with
  | some channel => ∀ label ∈ labels, label ∈ channels → label = channel
  | none => (∀ label ∈ labels, label ∉ channels) ∨
      (∀ label ∈ labels, ∀ label' ∈ labels, label ∈ channels → label' ∈ channels → label = label') ∧
        ∀ product ∈ products, ∀ label ∈ product.labels, label ∉ channels

end WptFyi.Webapp
