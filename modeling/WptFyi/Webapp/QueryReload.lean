import WptFyi.Webapp.TestRunsQuery

/-!
# Loading a page from its own URL

The page writes its state to the URL, with a channel that all products share as a label of the
query, and reads the label back as a channel of every product. Writing, reading and writing again
should give the params that were there.

The way there is through the specs of the products: these are printed, read, changed in their
labels and printed again. As they come from the printer they are printable, and so are the ones
with labels changed (`PrintedSpecs`); neither direction fails, and what remains is to compare two
lists of labels. They are compared as sets: a channel that was collapsed once comes back first or
last.

- `computeTestRunQueryParams_eq`, `getBatchUpdate_eq`: neither direction fails on
  specs as they are printed;
- `queryLabels`, `keptProducts`: the params of a page;
- `reloads_iff`: exactly which pages keep their params.
-/

namespace WptFyi.Webapp

open Lib Lib.GoStrings UIProduct

/-! ## Channels of products

Taking a channel out of the labels of a product and putting it back keeps the set of labels, and
keeps the product printable. -/

section Channels

variable {p : UIProduct} {products : List UIProduct} {channel : String}

theorem nonChannel_printable (h : p.Printable) : (nonChannel p).Printable :=
  h.withLabels (h.labels.1.filter _) fun label hlabel =>
    h.labels.2 label (List.mem_of_mem_filter hlabel)

theorem channel_plain : ∀ channel ∈ channels, ',' ∉ channel.toList ∧ '@' ∉ channel.toList := by
  decide

/-- A product in one channel can be told apart in its spec, if it could before. -/
theorem inChannel_printable (h : p.Printable) (hchannel : channel ∈ channels) :
    (inChannel channel p).Printable := by
  have hfilter : (p.labels.filter fun label => label ∉ channels ∨ label = channel).Nodup :=
    h.labels.1.filter _
  have hplain : ∀ label ∈ p.labels.filter fun label => label ∉ channels ∨ label = channel,
      ',' ∉ label.toList ∧ '@' ∉ label.toList := fun label hlabel =>
    h.labels.2 label (List.mem_of_mem_filter hlabel)
  unfold inChannel
  simp only
  split_ifs with hmem
  · exact h.withLabels hfilter hplain
  · refine h.withLabels (List.nodup_append.mpr ⟨hfilter, List.nodup_singleton _, ?_⟩) ?_
    · rintro a ha _ hb rfl
      exact hmem (List.mem_singleton.mp hb ▸ List.mem_of_mem_filter ha)
    · intro label hlabel
      rcases List.mem_append.mp hlabel with hold | hnew
      · exact hplain label hold
      · exact List.mem_singleton.mp hnew ▸ channel_plain channel hchannel

/-- Putting a product in a channel does not change its other labels. -/
theorem nonChannel_inChannel (hchannel : channel ∈ channels) (p : UIProduct) :
    nonChannel (inChannel channel p) = nonChannel p := by
  have hfilter : (p.labels.filter fun label => label ∉ channels ∨ label = channel).filter
      (fun label => label ∉ channels) = p.labels.filter fun label => label ∉ channels := by
    rw [List.filter_filter]
    refine List.filter_congr fun label _ => ?_
    by_cases hlabel : label ∈ channels <;> simp [hlabel]
  unfold nonChannel inChannel
  simp only
  split_ifs
  · rw [hfilter]
  · rw [List.filter_append, hfilter]
    simp [hchannel]

theorem nonChannel_of_forall (h : ∀ label ∈ p.labels, label ∉ channels) : nonChannel p = p := by
  unfold nonChannel
  rw [List.filter_eq_self.mpr fun label hlabel => decide_eq_true (h label hlabel)]

theorem mem_labels_inChannel (p : UIProduct) : channel ∈ (inChannel channel p).labels := by
  unfold inChannel
  simp only
  split_ifs with hmem
  · simp [hmem]
  · simp

/-- A product in one channel has no other. -/
theorem eq_of_mem_inChannel {label : String} (hlabel : label ∈ (inChannel channel p).labels)
    (hmem : label ∈ channels) : label = channel := by
  unfold inChannel at hlabel
  simp only at hlabel
  split_ifs at hlabel
  · simpa [hmem] using (List.mem_filter.mp hlabel).2
  · rcases List.mem_append.mp hlabel with hold | hnew
    · simpa [hmem] using (List.mem_filter.mp hold).2
    · exact List.mem_singleton.mp hnew

theorem sharedChannel_mem (h : sharedChannel products = some channel) : channel ∈ channels := by
  unfold sharedChannel at h
  rw [Option.filter_eq_some_iff] at h
  obtain ⟨product, _, hfind⟩ := Option.bind_eq_some_iff.mp h.1
  simpa using List.find?_some hfind

/-- Products in one channel share it. -/
theorem sharedChannel_inChannel (hne : products ≠ []) (hchannel : channel ∈ channels) :
    sharedChannel (products.map (inChannel channel)) = some channel := by
  obtain ⟨first, rest, rfl⟩ := List.exists_cons_of_ne_nil hne
  have hfind : (inChannel channel first).labels.find? (· ∈ channels) = some channel := by
    cases hfind : (inChannel channel first).labels.find? (· ∈ channels) with
    | none =>
      have hnot := List.find?_eq_none.mp hfind channel (mem_labels_inChannel first)
      exact absurd hchannel (by simpa using hnot)
    | some label =>
      rw [eq_of_mem_inChannel (List.mem_of_find?_eq_some hfind)
        (by simpa using List.find?_some hfind)]
  unfold sharedChannel
  rw [List.map_cons, List.head?_cons, Option.bind_some, hfind, Option.filter_some, if_pos]
  rw [← List.map_cons (f := inChannel channel), List.all_map, List.all_eq_true]
  exact fun product _ => decide_eq_true (mem_labels_inChannel product)

end Channels

/-! ## Neither direction fails

The specs that are parsed were printed before, so the parser accepts each of them. -/

section Parsing

theorem mapM_ok {α β γ : Type} {f : β → Except String γ} {g : α → β} {k : α → γ} {l : List α}
    (h : ∀ a ∈ l, f (g a) = .ok (k a)) : (l.map g).mapM f = .ok (l.map k) := by
  induction l with
  | nil => rfl
  | cons a l ih =>
    obtain ⟨hhead, htail⟩ := List.forall_mem_cons.mp h
    rw [List.map_cons, List.mapM_cons, hhead, ih htail]
    rfl

variable {products : List UIProduct}

theorem mapM_parseProductSpec (h : ∀ p ∈ products, p.Printable) :
    (products.map getSpec).mapM parseProductSpec = .ok products := by
  rw [mapM_ok (g := getSpec) (k := id) fun p hp => parseProductSpec_getSpec (h p hp), List.map_id]

theorem computeTestRunQueryParams_eq {defaultMaxCount : Option Int} {text : DateText} {s : UIState}
    (hspecs : s.productSpecs = products.map getSpec) (h : ∀ p ∈ products, p.Printable) :
    computeTestRunQueryParams defaultMaxCount text s =
      .ok (queryParams defaultMaxCount text s products) := by
  unfold computeTestRunQueryParams
  rw [hspecs, mapM_parseProductSpec h]
  rfl

/-- The products of the default specs. -/
def defaultProducts : List UIProduct :=
  defaultProductSpecs.map fun name => ⟨name, none, [], ""⟩

theorem map_getSpec_defaultProducts : defaultProducts.map getSpec = defaultProductSpecs := by decide

theorem defaultProducts_printable : ∀ p ∈ defaultProducts, p.Printable := by
  have hplain : ∀ name ∈ defaultProductSpecs, name ≠ "" ∧ '-' ∉ name.toList ∧ '[' ∉ name.toList ∧
      '@' ∉ name.toList := by decide
  refine List.forall_mem_map.mpr fun name hname => ⟨hplain name hname, ?_, ?_, ?_⟩
  · rintro version ⟨⟩
  · exact ⟨List.nodup_nil, fun label hlabel => absurd hlabel List.not_mem_nil⟩
  · show "" ≠ "latest"
    decide

/-- The products of a page loaded with labels. -/
def reloadedProducts (label : List String) (products : List UIProduct) : List UIProduct :=
  match label.find? (· ∈ channels) with
  | some channel => products.map (inChannel channel)
  | none => products

theorem reloadedProducts_printable {label : List String} (h : ∀ p ∈ products, p.Printable) :
    ∀ p ∈ reloadedProducts label products, p.Printable := by
  unfold reloadedProducts
  cases hfind : label.find? (· ∈ channels) with
  | none => exact h
  | some channel =>
    have hchannel : channel ∈ channels := by simpa using List.find?_some hfind
    exact List.forall_mem_map.mpr fun p hp => inChannel_printable (h p hp) hchannel

/-- The page that the params load. -/
def reloadedState (text : DateText) (params : Params) (products : List UIProduct) : UIState :=
  let labels := (params.label.getD []).filter (· ∉ channels)
  { shas := if computeAllLatest (params.sha.getD []) then [] else params.sha.getD []
    aligned := params.aligned
    master := "master" ∈ labels
    labels := labels.filter (· ≠ "master")
    productSpecs := (reloadedProducts (params.label.getD []) products).map getSpec
    fromDate := params.fromText.map text.date
    toDate := params.toText.map text.date
    maxCount := params.maxCount
    offset := params.offset
    view := params.view }

/-- **Reading the params**: specs as they are printed are read without an error. -/
theorem getBatchUpdate_eq {text : DateText} {params : Params}
    (hspecs : params.product.getD defaultProductSpecs = products.map getSpec)
    (h : ∀ p ∈ products, p.Printable) :
    getBatchUpdate text params = .ok (reloadedState text params products) := by
  have hreloaded : ∀ p ∈ reloadedProducts (params.label.getD []) products, p.Printable :=
    reloadedProducts_printable h
  have hexpand :
      expandChannel ((params.label.getD []).find? (· ∈ channels)) (products.map getSpec) =
      .ok ((reloadedProducts (params.label.getD []) products).map getSpec) := by
    unfold expandChannel reloadedProducts
    cases (params.label.getD []).find? (· ∈ channels) with
    | none => rfl
    | some channel =>
      simp only
      rw [List.map_map]
      refine mapM_ok fun p hp => ?_
      rw [parseProductSpec_getSpec (h p hp)]
      rfl
  unfold getBatchUpdate
  simp only
  rw [hspecs, hexpand]
  show (do
    let _products ← ((reloadedProducts (params.label.getD []) products).map getSpec).mapM
      parseProductSpec
    return reloadedState text params products : Except String UIState) = _
  rw [mapM_parseProductSpec hreloaded]
  rfl

end Parsing

/-! ## The params of a page, and of the page they load -/

/-- The labels of the query. -/
def queryLabels (labels : List String) (products : List UIProduct) : List String :=
  match sharedChannel products with
  | some channel => if channel ∈ labels then labels else labels ++ [channel]
  | none => labels

/-- The labels of the query are those of the page and the shared channel. -/
theorem mem_queryLabels {labels : List String} {products : List UIProduct} {label : String} :
    label ∈ queryLabels labels products ↔ label ∈ labels ∨ sharedChannel products = some label := by
  unfold queryLabels
  cases sharedChannel products with
  | none => simp
  | some channel =>
    simp only [Option.some_inj]
    split_ifs with hmem
    · refine ⟨Or.inl, ?_⟩
      rintro (h | rfl)
      · exact h
      · exact hmem
    · rw [List.mem_append, List.mem_singleton, eq_comm (a := label)]

/-- The products of the query. -/
def queryProducts (products : List UIProduct) : List UIProduct :=
  match sharedChannel products with
  | some _ => products.map nonChannel
  | none => products

section Reload

variable {defaultMaxCount : Option Int} {text : DateText} {s : UIState} {products : List UIProduct}

theorem queryParams_label : (queryParams defaultMaxCount text s products).label =
    if queryLabels (withMaster s.master s.labels) products ≠ [] then
      some (queryLabels (withMaster s.master s.labels) products) else none := by
  unfold queryParams queryLabels
  cases sharedChannel products with
  | none => rfl
  | some channel =>
    simp only
    split_ifs <;> simp_all

theorem getD_label : (queryParams defaultMaxCount text s products).label.getD [] =
    queryLabels (withMaster s.master s.labels) products := by
  rw [queryParams_label]
  split_ifs with hne
  · rfl
  · exact (not_not.mp hne).symm

/-- The specs of the query; default ones are left out. -/
def productParam (productSpecs : List String) : Option (List String) :=
  if computeIsDefaultProducts productSpecs then none else some productSpecs

theorem queryParams_product : (queryParams defaultMaxCount text s products).product =
    productParam ((queryProducts products).map getSpec) := by
  unfold queryParams queryProducts
  cases sharedChannel products with
  | none => rfl
  | some channel =>
    simp only
    rw [List.map_map]
    rfl

/-- Everything but labels and products is kept. -/
theorem reload_rest (products' products'' : List UIProduct) :
    let params := queryParams defaultMaxCount text s products
    let params' := queryParams defaultMaxCount text (reloadedState text params products') products''
    params.sha = params'.sha ∧ params.maxCount = params'.maxCount ∧ params.offset = params'.offset ∧
      params.fromText = params'.fromText ∧ params.toText = params'.toText ∧
      params.aligned = params'.aligned ∧ params.view = params'.view := by
  -- dates are printed by `toISOString` and read back as they were
  have hdate : ∀ t : Option Int, t.map text.toISOString =
      ((t.map text.toISOString).map text.date).map text.toISOString := by
    intro t
    cases t with
    | none => rfl
    | some t => simp only [Option.map_some, text.date_toISOString]
  have hnil : computeAllLatest [] = true := rfl
  have hfilter : ∀ {α : Type} (o : Option α) (q : α → Bool),
      o.filter q = (o.filter q).filter q := by
    intro α o q
    cases o with
    | none => rfl
    | some a => by_cases hq : q a = true <;> simp [Option.filter_some, hq]
  unfold queryParams reloadedState
  simp only
  refine ⟨?_, ?_, hfilter _ _, hdate _, hdate _, ?_, hfilter _ _⟩
  · by_cases hlatest : computeAllLatest s.shas = true
    · simp [hlatest, hnil]
    · simp [hlatest]
  · cases hcount : s.maxCount.filter (· ≠ 0) with
    | some n =>
      have hself := hfilter s.maxCount (· ≠ 0)
      rw [hcount] at hself
      rw [Option.some_or, ← hself, Option.some_or]
    | none => rw [Option.none_or, ← hfilter, Option.or_self]
  · by_cases hlatest : computeAllLatest s.shas = true
    · simp [hlatest, hnil]
    · simp [hlatest]

/-- The master label is put back where it was taken off. -/
theorem toFinset_withMaster (labels : List String) :
    (withMaster ("master" ∈ labels) (labels.filter (· ≠ "master"))).toFinset = labels.toFinset := by
  unfold withMaster
  ext label
  by_cases hmaster : "master" ∈ labels
  · simp only [hmaster, decide_true, true_and, List.mem_filter, ne_eq, not_true_eq_false,
      decide_false, Bool.false_eq_true, and_false, not_false_eq_true, if_true,
      List.mem_toFinset, List.mem_append, List.mem_singleton]
    by_cases hlabel : label = "master"
    · simp [hlabel, hmaster]
    · simp [hlabel]
  · simp only [hmaster, decide_false, Bool.false_eq_true, false_and, if_false, List.mem_toFinset,
      List.mem_filter]
    refine ⟨And.left, fun hmem => ⟨hmem, ?_⟩⟩
    exact decide_eq_true fun heq => hmaster (heq ▸ hmem)

/-- The products that the params stand for. -/
def keptProducts (products : List UIProduct) : List UIProduct :=
  if computeIsDefaultProducts ((queryProducts products).map getSpec) then defaultProducts
  else queryProducts products

theorem getD_product : (queryParams defaultMaxCount text s products).product.getD
    defaultProductSpecs = (keptProducts products).map getSpec := by
  rw [queryParams_product, productParam, keptProducts]
  split_ifs
  · exact map_getSpec_defaultProducts.symm
  · rfl

theorem keptProducts_printable (h : ∀ p ∈ products, p.Printable) :
    ∀ p ∈ keptProducts products, p.Printable := by
  unfold keptProducts queryProducts
  split_ifs
  · exact defaultProducts_printable
  · cases sharedChannel products with
    | none => exact h
    | some channel => exact List.forall_mem_map.mpr fun p hp => nonChannel_printable (h p hp)

/-- The params stand for the same products again. -/
theorem productParam_keptProducts : productParam ((keptProducts products).map getSpec) =
    productParam ((queryProducts products).map getSpec) := by
  unfold productParam keptProducts
  split_ifs with hquery hdefault
  · rfl
  · exact absurd (by decide : computeIsDefaultProducts (defaultProducts.map getSpec) = true)
      hdefault
  · rfl

theorem keptProducts_ne_nil : keptProducts products ≠ [] := by
  unfold keptProducts
  split_ifs with hdefault
  · decide
  · intro hnil
    rw [hnil] at hdefault
    exact hdefault rfl

/-- Both directions succeed, so it is the params that decide. -/
theorem reloads_iff_sameParams (hspecs : s.productSpecs = products.map getSpec)
    (h : ∀ p ∈ products, p.Printable) :
    let params := queryParams defaultMaxCount text s products
    let products' := reloadedProducts (params.label.getD []) (keptProducts products)
    Reloads defaultMaxCount text s ↔ SameParams params
      (queryParams defaultMaxCount text (reloadedState text params (keptProducts products))
        products') := by
  intro params products'
  have hkept := keptProducts_printable h
  have hcompute : computeTestRunQueryParams defaultMaxCount text s = .ok params :=
    computeTestRunQueryParams_eq hspecs h
  have hupdate : getBatchUpdate text params =
      .ok (reloadedState text params (keptProducts products)) :=
    getBatchUpdate_eq getD_product hkept
  have hagain : computeTestRunQueryParams defaultMaxCount text
      (reloadedState text params (keptProducts products)) = .ok (queryParams defaultMaxCount text
        (reloadedState text params (keptProducts products)) products') :=
    computeTestRunQueryParams_eq rfl (reloadedProducts_printable hkept)
  constructor
  · rintro ⟨_, _, _, hparams, hs, hparams', hsame⟩
    rw [hcompute, Except.ok.injEq] at hparams
    subst hparams
    rw [hupdate, Except.ok.injEq] at hs
    subst hs
    rw [hagain, Except.ok.injEq] at hparams'
    exact hparams' ▸ hsame
  · intro hsame
    exact ⟨_, _, _, hcompute, hupdate, hagain, hsame⟩

/-- Params that agree in the rest are the same when labels and products are. -/
theorem sameParams_iff {s' : UIState} {products' : List UIProduct}
    (hrest : let params := queryParams defaultMaxCount text s products
      let params' := queryParams defaultMaxCount text s' products'
      params.sha = params'.sha ∧ params.maxCount = params'.maxCount ∧
        params.offset = params'.offset ∧ params.fromText = params'.fromText ∧
        params.toText = params'.toText ∧ params.aligned = params'.aligned ∧
        params.view = params'.view) :
    SameParams (queryParams defaultMaxCount text s products)
        (queryParams defaultMaxCount text s' products') ↔
      (queryLabels (withMaster s.master s.labels) products).toFinset =
          (queryLabels (withMaster s'.master s'.labels) products').toFinset ∧
        (queryParams defaultMaxCount text s products).product.map (List.map specKey) =
          (queryParams defaultMaxCount text s' products').product.map (List.map specKey) := by
  -- an empty list of labels is no param at all
  have hlabel : ∀ labels labels' : List String,
      (if labels ≠ [] then some labels else none).map List.toFinset =
        (if labels' ≠ [] then some labels' else none).map List.toFinset ↔
      labels.toFinset = labels'.toFinset := by
    intro labels labels'
    by_cases hne : labels = []
    · by_cases hne' : labels' = []
      · simp [hne, hne']
      · simp [hne, hne', eq_comm (a := (∅ : Finset String))]
    · by_cases hne' : labels' = []
      · simp [hne, hne']
      · simp [hne, hne']
  obtain ⟨hsha, hmax, hoffset, hfrom, hto, haligned, hview⟩ := hrest
  constructor
  · intro h
    have heq := h.label
    rw [queryParams_label, queryParams_label, hlabel] at heq
    exact ⟨heq, h.product⟩
  · rintro ⟨heq, hproduct⟩
    refine ⟨hsha, ?_, hmax, hoffset, hfrom, hto, hproduct, haligned, hview⟩
    rw [queryParams_label, queryParams_label, hlabel]
    exact heq

/-- The labels of the page that is loaded: those that are no channels. -/
theorem toFinset_reloaded (text : DateText) (labels : List String) (params : Params)
    (hlabels : params.label.getD [] = labels) (products' : List UIProduct) :
    let s' := reloadedState text params products'
    (withMaster s'.master s'.labels).toFinset = (labels.filter (· ∉ channels)).toFinset := by
  subst hlabels
  exact toFinset_withMaster _

/-- A query without a channel: labels and products stay as they are. -/
theorem reload_of_no_channel (defaultMaxCount : Option Int) (text : DateText)
    {products' : List UIProduct}
    (hnone : ∀ label ∈ queryLabels (withMaster s.master s.labels) products, label ∉ channels)
    (hkept : products' = keptProducts products) :
    let params := queryParams defaultMaxCount text s products
    let s' := reloadedState text params products'
    (queryLabels (withMaster s.master s.labels) products).toFinset =
        (queryLabels (withMaster s'.master s'.labels) products').toFinset ∧
      params.product = (queryParams defaultMaxCount text s' products').product := by
  intro params s'
  -- a channel that the products share would be among the labels
  have hshared : sharedChannel products = none := by
    cases hshared : sharedChannel products with
    | none => rfl
    | some channel =>
      exact absurd (sharedChannel_mem hshared)
        (hnone channel (mem_queryLabels.mpr (Or.inr hshared)))
  have hdefault : sharedChannel defaultProducts = none := by decide
  -- the products that are read back share none either, nor do the default ones
  have hshared' : sharedChannel products' = none := by
    rw [hkept, keptProducts, queryProducts, hshared]
    split_ifs
    · exact hdefault
    · exact hshared
  have hquery : queryProducts products' = products' := by rw [queryProducts, hshared']
  constructor
  · have hreloaded := toFinset_reloaded text _ params getD_label products'
    rw [List.filter_eq_self.mpr fun label hlabel =>
      decide_eq_true (hnone label hlabel)] at hreloaded
    conv_rhs => rw [queryLabels, hshared']
    exact hreloaded.symm
  · rw [queryParams_product, queryParams_product, hquery, hkept, productParam_keptProducts]

/-- A query with a channel: the products lose theirs, the labels all but this one. -/
theorem reload_of_channel (defaultMaxCount : Option Int) (text : DateText) {channel : String}
    {products' : List UIProduct}
    (hfind : (queryLabels (withMaster s.master s.labels) products).find? (· ∈ channels) =
      some channel)
    (hkept : products' = (keptProducts products).map (inChannel channel)) :
    let params := queryParams defaultMaxCount text s products
    let s' := reloadedState text params (keptProducts products)
    (queryLabels (withMaster s'.master s'.labels) products').toFinset = insert channel
        ((queryLabels (withMaster s.master s.labels) products).filter (· ∉ channels)).toFinset ∧
      (queryParams defaultMaxCount text s' products').product =
        productParam (((keptProducts products).map nonChannel).map getSpec) := by
  intro params s'
  have hchannel : channel ∈ channels := by simpa using List.find?_some hfind
  have hshared : sharedChannel products' = some channel := by
    rw [hkept]
    exact sharedChannel_inChannel keptProducts_ne_nil hchannel
  have hreloaded := toFinset_reloaded text _ params getD_label (keptProducts products)
  -- the channel is taken off the labels of the page, and put on its products
  have hmem : channel ∉ withMaster s'.master s'.labels := by
    intro hmem
    rw [← List.mem_toFinset, hreloaded, List.mem_toFinset] at hmem
    simpa [hchannel] using (List.mem_filter.mp hmem).2
  constructor
  · rw [queryLabels, hshared]
    simp only
    rw [if_neg hmem, List.toFinset_append, hreloaded]
    ext label
    simp
  · have hquery : queryProducts products' = (keptProducts products).map nonChannel := by
      rw [queryProducts, hshared, hkept]
      simp only
      rw [List.map_map]
      exact List.map_congr_left fun p _ => nonChannel_inChannel hchannel p
    rw [queryParams_product, hquery]

/-! ## Which pages keep their params

The params that are written first and those that are written after a reload are compared name by
name; only labels and products can differ. -/

/-- Default specs have no labels at all. -/
theorem labels_of_isDefault (hdefault : computeIsDefaultProducts (products.map getSpec) = true)
    {p : UIProduct} (hp : p ∈ products) : p.labels = [] := by
  have hjoin : '[' ∉ (join (products.map getSpec) ',').toList := by
    simp only [computeIsDefaultProducts, Bool.or_eq_true, decide_eq_true_eq, beq_iff_eq,
      List.map_eq_nil_iff] at hdefault
    rcases hdefault with rfl | heq
    · cases hp
    · rw [← heq]
      decide
  by_contra hlabels
  refine hjoin ?_
  rw [← List.count_pos_iff, count_join (by decide)]
  have hspec : '[' ∈ (getSpec p).toList := by
    rw [getSpec_eq, labelled, if_pos hlabels]
    split_ifs <;> simp [String.toList_append]
  exact lt_of_lt_of_le (List.count_pos_iff.mpr hspec)
    (List.single_le_sum (fun _ _ => Nat.zero_le _) _
    (List.mem_map_of_mem (List.mem_map_of_mem hp)))

/-- Losing the channels is no loss when there are none. -/
theorem map_specKey_nonChannel_iff (h : ∀ p ∈ products, p.Printable) :
    (products.map getSpec).map specKey = ((products.map nonChannel).map getSpec).map specKey ↔
      ∀ p ∈ products, ∀ label ∈ p.labels, label ∉ channels := by
  rw [List.map_map, List.map_map, List.map_map, List.map_inj_left]
  refine forall₂_congr fun p hp => ?_
  simp only [Function.comp_apply, specKey, parseProductSpec_getSpec (h p hp),
    parseProductSpec_getSpec (nonChannel_printable (h p hp))]
  constructor
  · intro heq label hlabel hchannel
    have hlabels : p.labels.toFinset = (nonChannel p).labels.toFinset := by
      simpa [Except.map] using congrArg (Except.map fun key => key.2.2.1) heq
    have hmem : label ∈ (nonChannel p).labels := by
      rw [← List.mem_toFinset, ← hlabels, List.mem_toFinset]
      exact hlabel
    simpa [hchannel] using (List.mem_filter.mp hmem).2
  · intro hnone
    rw [nonChannel_of_forall hnone]

theorem map_nonChannel_keptProducts {channel : String}
    (hshared : sharedChannel products = some channel) :
    (keptProducts products).map nonChannel = keptProducts products := by
  unfold keptProducts queryProducts
  rw [hshared]
  split_ifs
  · decide
  · simp only
    rw [List.map_map]
    refine List.map_congr_left fun p _ => nonChannel_of_forall fun label hlabel => ?_
    simpa using (List.mem_filter.mp hlabel).2

/-- Products that share no channel keep their specs when they name none at all. -/
theorem productParam_nonChannel_iff (hshared : sharedChannel products = none)
    (h : ∀ p ∈ products, p.Printable) :
    (productParam ((queryProducts products).map getSpec)).map (List.map specKey) =
        (productParam (((keptProducts products).map nonChannel).map getSpec)).map
          (List.map specKey) ↔
      ∀ p ∈ products, ∀ label ∈ p.labels, label ∉ channels := by
  have hquery : queryProducts products = products := by rw [queryProducts, hshared]
  rw [keptProducts, hquery]
  by_cases hdefault : computeIsDefaultProducts (products.map getSpec) = true
  · rw [if_pos hdefault]
    refine iff_of_true ?_ fun p hp label hlabel => ?_
    · -- the default products name no channel, and are not written
      have hnone : productParam ((defaultProducts.map nonChannel).map getSpec) = none := by decide
      rw [productParam, if_pos hdefault, hnone]
    · rw [labels_of_isDefault hdefault hp] at hlabel
      cases hlabel
  · rw [if_neg hdefault, productParam, if_neg hdefault, ← map_specKey_nonChannel_iff h]
    constructor
    · intro heq
      unfold productParam at heq
      split_ifs at heq
      · cases heq
      · exact Option.some_inj.mp heq
    · intro heq
      have hnone := (map_specKey_nonChannel_iff h).mp heq
      have hsame : products.map nonChannel = products := by
        conv_rhs => rw [← List.map_id products]
        exact List.map_congr_left fun p hp => nonChannel_of_forall (hnone p hp)
      rw [hsame, productParam, if_neg hdefault]

/-- One channel and what is no channel make up all labels exactly when there is no other channel
among them. -/
theorem toFinset_eq_insert_iff {labels : List String} {channel : String}
    (hmem : channel ∈ labels) (hchannel : channel ∈ channels) :
    labels.toFinset = insert channel (labels.filter (· ∉ channels)).toFinset ↔
      ∀ label ∈ labels, label ∈ channels → label = channel := by
  constructor
  · intro heq label hlabel hchannel
    rw [← List.mem_toFinset, heq, Finset.mem_insert, List.mem_toFinset, List.mem_filter] at hlabel
    rcases hlabel with rfl | ⟨_, hnot⟩
    · rfl
    · simp [hchannel] at hnot
  · intro hone
    ext label
    simp only [List.mem_toFinset, Finset.mem_insert, List.mem_filter, decide_eq_true_eq]
    by_cases hlabel : label ∈ channels
    · simp only [hlabel, not_true_eq_false, and_false, or_false]
      refine ⟨fun hin => hone label hin hlabel, ?_⟩
      rintro rfl
      exact hmem
    · simp only [hlabel, not_false_eq_true, and_true]
      refine ⟨Or.inr, ?_⟩
      rintro (rfl | hin)
      · exact hmem
      · exact hin

end Reload

/-- **Reloading**: a page keeps its params exactly when its labels name no channel but
the one its products share; or one channel when the products name none. -/
theorem reloads_iff (defaultMaxCount : Option Int) (text : DateText) {s : UIState}
    {products : List UIProduct} (hspecs : s.productSpecs = products.map getSpec)
    (h : ∀ p ∈ products, p.Printable) :
    Reloads defaultMaxCount text s ↔ OneChannel s.labels products := by
  have hmaster : ∀ label ∈ channels, label ≠ "master" := by decide
  have hlabels : ∀ label ∈ channels,
      (label ∈ withMaster s.master s.labels ↔ label ∈ s.labels) := by
    intro label hlabel
    unfold withMaster
    split_ifs
    · simp [hmaster label hlabel]
    · rfl
  refine (reloads_iff_sameParams hspecs h).trans ?_
  rw [sameParams_iff (reload_rest _ _), getD_label]
  unfold reloadedProducts
  cases hfind : (queryLabels (withMaster s.master s.labels) products).find? (· ∈ channels) with
  | none =>
    have hnone : ∀ label ∈ queryLabels (withMaster s.master s.labels) products,
        label ∉ channels := by
      simpa using List.find?_eq_none.mp hfind
    obtain ⟨hlabel, hproduct⟩ :=
      reload_of_no_channel defaultMaxCount text hnone rfl
    refine iff_of_true ⟨hlabel, by rw [hproduct]⟩ ?_
    unfold OneChannel
    cases hshared : sharedChannel products with
    | none =>
      exact Or.inl fun label hlabel hchannel =>
        hnone label (mem_queryLabels.mpr (Or.inl ((hlabels label hchannel).mpr hlabel))) hchannel
    | some channel =>
      exact absurd (sharedChannel_mem hshared)
        (hnone channel (mem_queryLabels.mpr (Or.inr hshared)))
  | some channel =>
    have hmem := List.mem_of_find?_eq_some hfind
    have hchannel : channel ∈ channels := by simpa using List.find?_some hfind
    obtain ⟨hlabel, hproduct⟩ :=
      reload_of_channel defaultMaxCount text hfind rfl
    rw [hlabel, hproduct, toFinset_eq_insert_iff hmem hchannel, queryParams_product]
    unfold OneChannel
    cases hshared : sharedChannel products with
    | some shared =>
      -- the products have lost their channels already
      have hsharedMem : shared ∈ queryLabels (withMaster s.master s.labels) products :=
        mem_queryLabels.mpr (Or.inr hshared)
      have hsharedChannel := sharedChannel_mem hshared
      rw [map_nonChannel_keptProducts hshared, productParam_keptProducts, and_iff_left rfl]
      constructor
      · intro hone label hlabel hlabelChannel
        rw [hone label (mem_queryLabels.mpr (Or.inl ((hlabels label hlabelChannel).mpr hlabel)))
          hlabelChannel, hone shared hsharedMem hsharedChannel]
      · intro hone
        have hall : ∀ label ∈ queryLabels (withMaster s.master s.labels) products,
            label ∈ channels → label = shared := by
          intro label hlabel hlabelChannel
          rcases mem_queryLabels.mp hlabel with hlabel | hlabel
          · exact hone label ((hlabels label hlabelChannel).mp hlabel) hlabelChannel
          · exact Option.some_inj.mp (hlabel.symm.trans hshared)
        intro label hlabel hlabelChannel
        rw [hall label hlabel hlabelChannel, hall channel hmem hchannel]
    | none =>
      have hmemLabels : channel ∈ s.labels := by
        rcases mem_queryLabels.mp hmem with hin | hin
        · exact (hlabels channel hchannel).mp hin
        · rw [hshared] at hin
          cases hin
      rw [productParam_nonChannel_iff hshared h]
      constructor
      · rintro ⟨hone, hproducts⟩
        have hall : ∀ label ∈ s.labels, label ∈ channels → label = channel := by
          intro label hlabel hlabelChannel
          exact hone label (mem_queryLabels.mpr (Or.inl ((hlabels label hlabelChannel).mpr hlabel)))
            hlabelChannel
        refine Or.inr ⟨fun label hlabel label' hlabel' hchannel hchannel' => ?_, hproducts⟩
        rw [hall label hlabel hchannel, hall label' hlabel' hchannel']
      · rintro (hnone | ⟨hone, hproducts⟩)
        · exact absurd hchannel (hnone channel hmemLabels)
        · refine ⟨fun label hlabel hlabelChannel => ?_, hproducts⟩
          rcases mem_queryLabels.mp hlabel with hin | hin
          · exact hone label ((hlabels label hlabelChannel).mp hin) channel hmemLabels hlabelChannel
              hchannel
          · rw [hshared] at hin
            cases hin

/-- Two products that share a channel, on the master branch. -/
theorem reloads_stable : Reloads none .millis
    { master := true, productSpecs := ["chrome[stable]", "firefox-64[a,stable]"] } := by
  have hprintable : ∀ p ∈ [(⟨"chrome", none, ["stable"], ""⟩ : UIProduct),
      ⟨"firefox", some "64", ["a", "stable"], ""⟩], p.Printable := by
    intro p hp
    simp only [List.mem_cons, List.not_mem_nil, or_false] at hp
    rcases hp with rfl | rfl
    · refine ⟨by decide, ?_, by decide, by decide⟩
      rintro version ⟨⟩
    · refine ⟨by decide, ?_, by decide, by decide⟩
      rintro version ⟨⟩
      decide
  refine (reloads_iff none .millis (by decide) hprintable).mpr ?_
  rintro label ⟨⟩

/-- A channel among the labels replaces those of the products. -/
theorem not_reloads_beta : ¬ Reloads none .millis
    { labels := ["stable"], productSpecs := ["chrome[beta]", "firefox"] } := by
  rintro ⟨params, s', params', hparams, hs', hparams', hsame⟩
  have hfirst : computeTestRunQueryParams none .millis
      { labels := ["stable"], productSpecs := ["chrome[beta]", "firefox"] } =
        .ok { label := some ["stable"], product := some ["chrome[beta]", "firefox"] } := rfl
  have hupdate : getBatchUpdate .millis
      { label := some ["stable"], product := some ["chrome[beta]", "firefox"] } =
        .ok { productSpecs := ["chrome[stable]", "firefox[stable]"] } := rfl
  have hsecond : computeTestRunQueryParams none .millis
      { productSpecs := ["chrome[stable]", "firefox[stable]"] } =
        .ok { label := some ["stable"], product := some ["chrome", "firefox"] } := by
    decide +kernel
  rw [hfirst, Except.ok.injEq] at hparams
  subst hparams
  rw [hupdate, Except.ok.injEq] at hs'
  subst hs'
  rw [hsecond, Except.ok.injEq] at hparams'
  subst hparams'
  have hkeys := Option.some_inj.mp hsame.product
  have hchrome : specKey "chrome[beta]" = specKey "chrome" := (List.cons.inj hkeys).1
  have hbeta : parseProductSpec "chrome[beta]" = .ok ⟨"chrome", none, ["beta"], ""⟩ := rfl
  have hplain : parseProductSpec "chrome" = .ok ⟨"chrome", none, [], ""⟩ := rfl
  rw [specKey, specKey, hbeta, hplain] at hchrome
  simp [Except.map] at hchrome

end WptFyi.Webapp
