import WptFyi.Filters.Token

/-!
# Filters of a request

What a request asks for comes back from the links and the page tokens made of it, with the
exceptions that can be told from its parameters.

The modules before this one speak of a filter that is given; here it was read from a request, and
what they ask of its products is traced back to the texts that it came from. The ranges of the other
fields need no condition, since every filter that was read is in them.

- `toQuery_returns_iff`: from the parameters of a link;
- `token_returns_iff`: from the token of a page.
-/

namespace WptFyi.Filters

open Lib Lib.GoStrings Shared

variable {m : LowerCase} {v : Values} {f : TestRunFilter}

/-- The products come back when their texts survive printing and no browser is an
experimental one. -/
theorem comesBack_products_iff (h : Reads m v f) : (∀ p ∈ f.products, ComesBack m p) ↔
    (∀ s ∈ productTexts v, SurvivesPrinting s) ∧
      ∀ b ∈ browserParams v, isStableBrowserName b = true := by
  obtain ⟨haccepted, hbrowsers, hproducts⟩ := parseProductOrBrowserParams_spec h.products
  rw [hproducts, List.forall_mem_append, parsedSpecs, List.forall_mem_map, List.forall_mem_map]
  exact and_congr
    (forall₂_congr fun s hs => comesBack_parsed_iff (haccepted s hs))
    (forall₂_congr fun b hb => comesBack_browserSpec_iff (hbrowsers b hb))

/-- **Links**: the parameters of a filter that was read give it again exactly when its times
have whole seconds and zones up to a day, and its products print as distinct specs that
survive it. -/
theorem toQuery_returns_iff (order : RangeOrder String) (hpage : v.get "page" = "")
    (h : parseTestRunFilterParams m v = .ok f) : QueryReturns order f m ↔
      (∀ t ∈ f.times, t.nanosecond = 0 ∧ t.offset.natAbs < 25 * 60) ∧
        (f.products.map ProductSpec.string).Nodup ∧
          (∀ s ∈ productTexts v, SurvivesPrinting s) ∧
            ∀ b ∈ browserParams v, isStableBrowserName b = true := by
  have hreads := (parseTestRunFilterParams_iff hpage).mp h
  rw [queryReturns_iff order f m hreads.wellFormed, comesBack_products_iff hreads]

/-- **Page tokens**: the token of a filter that was read gives it again exactly when its
zones are less than a day and its products survive printing. -/
theorem token_returns_iff (order : RangeOrder String) (hpage : v.get "page" = "")
    (h : parseTestRunFilterParams m v = .ok f) : TokenReturns order f m ↔
      (∀ t ∈ f.times, t.offset.natAbs < 24 * 60) ∧
        (∀ s ∈ productTexts v, SurvivesPrinting s) ∧
          ∀ b ∈ browserParams v, isStableBrowserName b = true := by
  have hreads := (parseTestRunFilterParams_iff hpage).mp h
  rw [tokenReturns_iff order f m hreads.wellFormed, comesBack_products_iff hreads]

/-! ## A request -/

/-- Runs of Chrome since a day, with a browser in the old way. -/
def chromeSince : Values := (((((∅ : Values).set "product" "chrome-64[b,a]@1234567").set "label"
  "stable").set "from" "2018-01-01T00:00:00+01:00").set "browser" "edge").set "max-count" "900"

/-- The filter of `chromeSince`. -/
def chromeSinceFilter : TestRunFilter :=
  (parseTestRunFilterParams .ascii chromeSince).toOption.getD {}

theorem parse_chromeSince :
    parseTestRunFilterParams .ascii chromeSince = .ok chromeSinceFilter := by
  have hok : (parseTestRunFilterParams .ascii chromeSince).isOk = true := by decide +kernel
  rw [chromeSinceFilter]
  cases h : parseTestRunFilterParams .ascii chromeSince with
  | error err =>
    rw [h] at hok
    cases hok
  | ok f => rfl

/-- The condition holds for the parameters of this example. -/
theorem survives_chromeSince : (∀ s ∈ productTexts chromeSince, SurvivesPrinting s) ∧
    ∀ b ∈ browserParams chromeSince, isStableBrowserName b = true := by
  have htexts : productTexts chromeSince = ["chrome-64[b,a]@1234567"] := by decide +kernel
  refine ⟨?_, by decide +kernel⟩
  rw [htexts, List.forall_mem_singleton]
  refine ⟨?_, ?_⟩
  · rintro ⟨b, v, w, h⟩
    have hlen : (split (specProduct "chrome-64[b,a]@1234567") '-').length = 4 :=
      congrArg List.length h
    exact absurd hlen (by decide +kernel)
  · rintro ⟨name, sha, h, hlatest⟩
    have hsha : (splitAtNonMainAt "chrome-64[b,a]@1234567")[1]? = some sha := by rw [h]; rfl
    have hvalue : (splitAtNonMainAt "chrome-64[b,a]@1234567")[1]? = some "1234567" := by
      decide +kernel
    rw [Option.some.inj (hsha.symm.trans hvalue)] at hlatest
    exact absurd hlatest (by decide)

theorem toQuery_returns_chromeSince :
    QueryReturns (sortedOrder id Function.injective_id) chromeSinceFilter .ascii :=
  (toQuery_returns_iff _ (by decide +kernel) parse_chromeSince).mpr
    ⟨by decide +kernel, by decide +kernel, survives_chromeSince⟩

theorem token_returns_chromeSince :
    TokenReturns (sortedOrder id Function.injective_id) chromeSinceFilter .ascii :=
  (token_returns_iff _ (by decide +kernel) parse_chromeSince).mpr
    ⟨by decide +kernel, survives_chromeSince⟩

end WptFyi.Filters
