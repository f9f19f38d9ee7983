import WptFyi.Checks.CollapsePaths

/-!
# The turns of collapsing (`api/checks/update.go`)

What `collapsePaths` leaves, in closed form, for every order of its keys.

A turn goes over the keys, deepest first, and cuts those that are as deep as the first it met.
Depth is counted by slashes for the sort and by parts in the loop, and a folder, which ends in a
slash, has one part less than a file of the same number of slashes. So a folder may come before the
files that are as deep as it for the sort; then it is the first path, the loop takes its parts for
the greatest depth, and it loses a part before the loop has met the real depth. That can only
happen in the first turn: afterwards every path of the greatest depth is a folder itself
(`Topped`). The result of a run is therefore determined by the set of folders that came first in
its first turn.

- `cutTo`: a path as it is, or its folder at a depth;
- `collapseKeys_eq`: a turn cuts all paths to one part less than the deepest has,
  except for folders that the sort happens to put before the first of these;
- `Topped`: after the first turn there are no such folders;
- `settleDepth`: the depth at which the turns stop, by the limit or by their number;
- `collapsePaths_eq`: the paths of a run, from the folders that came first in its
  first turn.
-/

namespace WptFyi.Checks

open Lib Lib.GoStrings Shared

/-! ## Cutting paths

Cutting a path to a depth keeps that many of its parts. To cut twice is to cut to the lesser
depth. -/

/-- How many parts a path has. -/
def partDepth (k : String) : Nat := (partsOf k).length

/-- A path that has at most `m` parts, the folder from its first `m` parts of any other. -/
def cutTo (m : Nat) (k : String) : String :=
  if partDepth k ≤ m then k else folderFrom ((partsOf k).take m)

section Cut

variable {k : String} {m m' : Nat}

theorem partDepth_pos (hk : hasPrefix k "/" = true) : 1 ≤ partDepth k :=
  List.length_pos_of_ne_nil (partsOf_ne_nil hk)

theorem splitDepth_cases (k : String) :
    splitDepth k = partDepth k ∨ splitDepth k = partDepth k + 1 := by
  unfold splitDepth partDepth
  rcases split_cases k with heq | heq
  · exact .inl (by rw [heq])
  · exact .inr (by rw [heq, List.length_append, List.length_singleton])

theorem cutTo_of_le (h : partDepth k ≤ m) : cutTo m k = k := if_pos h

theorem cutTo_of_lt (h : m < partDepth k) : cutTo m k = folderFrom ((partsOf k).take m) :=
  if_neg (not_le.mpr h)

/-- The folder of a path cuts it by one part. -/
theorem folderOf_eq_cutTo (hk : hasPrefix k "/" = true) :
    folderOf k = cutTo (partDepth k - 1) k := by
  have hpos := partDepth_pos hk
  rw [cutTo_of_lt (by omega), folderOf_eq, List.dropLast_eq_take, partDepth]

theorem partsOf_folderFrom_take (hk : hasPrefix k "/" = true) (hm : 1 ≤ m) :
    partsOf (folderFrom ((partsOf k).take m)) = (partsOf k).take m := by
  refine partsOf_folderFrom (List.ne_nil_of_length_pos ?_)
    fun part hpart => notMem_of_mem_partsOf (List.mem_of_mem_take hpart)
  have hpos := partDepth_pos hk
  rw [partDepth] at hpos
  rw [List.length_take]
  omega

theorem partsOf_cutTo (hk : hasPrefix k "/" = true) (hm : 1 ≤ m) :
    partsOf (cutTo m k) = (partsOf k).take m := by
  by_cases h : partDepth k ≤ m
  · rw [cutTo_of_le h, List.take_of_length_le h]
  · rw [cutTo_of_lt (not_le.mp h), partsOf_folderFrom_take hk hm]

theorem partDepth_cutTo (hk : hasPrefix k "/" = true) (hm : 1 ≤ m) :
    partDepth (cutTo m k) = min m (partDepth k) := by
  rw [partDepth, partsOf_cutTo hk hm, List.length_take, partDepth]

theorem splitDepth_cutTo_of_lt (hm : 1 ≤ m) (h : m < partDepth k) :
    splitDepth (cutTo m k) = m + 1 := by
  have hlength : ((partsOf k).take m).length = m := List.length_take_of_le (le_of_lt h)
  rw [cutTo_of_lt h, splitDepth, split_folderFrom
    (List.ne_nil_of_length_pos (by omega)) fun part hpart =>
      notMem_of_mem_partsOf (List.mem_of_mem_take hpart), List.length_append, hlength]
  rfl

/-- Cutting twice. -/
theorem cutTo_cutTo (hk : hasPrefix k "/" = true) (hm : 1 ≤ m) (hle : m ≤ m') :
    cutTo m (cutTo m' k) = cutTo m k := by
  by_cases h : partDepth k ≤ m'
  · rw [cutTo_of_le h]
  · have hlt := not_le.mp h
    have hdepth : partDepth (cutTo m' k) = m' := by
      rw [partDepth_cutTo hk (by omega)]
      omega
    rcases Nat.lt_or_eq_of_le hle with hlt' | rfl
    · rw [cutTo_of_lt (by omega : m < partDepth (cutTo m' k)), partsOf_cutTo hk (by omega),
        List.take_take, min_eq_left hle, cutTo_of_lt (by omega)]
    · rw [cutTo_of_le (by omega : partDepth (cutTo m k) ≤ m)]

/-- A cut path is above the path. -/
theorem above_cutTo (hk : hasPrefix k "/" = true) (m : Nat) : Above (cutTo m k) k := by
  by_cases h : partDepth k ≤ m
  · exact .inl (cutTo_of_le h)
  · rw [cutTo_of_lt (not_le.mp h)]
    refine .inr ⟨?_, hasPrefix_folderFrom_take hk (not_le.mp h)⟩
    rw [hasSuffix_iff, folderFrom, String.toList_append]
    exact List.suffix_append _ _

theorem cutTo_rooted (hk : hasPrefix k "/" = true) (m : Nat) :
    hasPrefix (cutTo m k) "/" = true :=
  (above_cutTo hk m).rooted hk

/-- The only path of one part is the root's. -/
theorem eq_slash_of_partDepth_le (hk : hasPrefix k "/" = true) (h : partDepth k ≤ 1) : k = "/" := by
  obtain ⟨parts, hparts⟩ := partsOf_rooted hk
  have hnil : parts = [] := by
    rw [partDepth, hparts, List.length_cons] at h
    exact List.length_eq_zero_iff.mp (by omega)
  rcases eq_join_or_folderFrom hk with heq | heq
  · rw [hparts, hnil, join_singleton] at heq
    rw [heq] at hk
    exact absurd hk (by decide)
  · rw [hparts, hnil] at heq
    exact heq

theorem cutTo_le_one (hk : hasPrefix k "/" = true) (hm : m ≤ 1) : cutTo m k = "/" := by
  rcases Nat.eq_zero_or_pos m with rfl | hpos
  · rw [cutTo_of_lt (partDepth_pos hk), List.take_zero]
    rfl
  · refine eq_slash_of_partDepth_le (cutTo_rooted hk m) ?_
    rw [partDepth_cutTo hk hpos]
    omega

end Cut

/-! ## One turn

A turn cuts all paths to one part less than the deepest has, in whichever order they come. Only the
folders that come before all files of their depth lose a part that they should keep. -/

section Turn

/-- **One level**: the loop cuts all paths, once a path of the greatest depth has come. -/
theorem foldl_collapseKey {T : Nat} (hT : 2 ≤ T) {keys : List String}
    (hkeys : ∀ k ∈ keys, hasPrefix k "/" = true ∧ partDepth k ≤ T) {C : Finset String}
    (hC : ∀ p ∈ C, partDepth p < T) {d : Int} (hd : d ≤ T)
    (hhead : d = T ∨ ∀ k, keys.head? = some k → partDepth k = T) :
    keys.foldl collapseKey ⟨C, d⟩ =
      ⟨C ∪ (keys.map (cutTo (T - 1))).toFinset, if keys = [] then d else T⟩ := by
  induction keys generalizing C d with
  | nil => simp
  | cons k keys ih =>
    obtain ⟨⟨hk, hle⟩, hrest⟩ := List.forall_mem_cons.mp hkeys
    have hcut : partDepth (cutTo (T - 1) k) < T := by
      rw [partDepth_cutTo hk (by omega)]
      omega
    have hstep : collapseKey ⟨C, d⟩ k = ⟨insert (cutTo (T - 1) k) C, T⟩ := by
      by_cases hdeep : partDepth k = T
      · -- a path of the greatest depth is not there yet, and is cut
        obtain ⟨hmem, -⟩ | ⟨-, hlt, -⟩ | ⟨-, -, heq⟩ := collapseKey_cases ⟨C, d⟩ k
        · exact absurd (hC k hmem) (by omega)
        · have hlt' : ((partDepth k : Nat) : Int) < d := hlt
          omega
        · rw [heq, folderOf_eq_cutTo hk, hdeep]
          exact congrArg _ (congrArg Nat.cast hdeep)
      · -- any other path stays
        have hdT : d = T := hhead.resolve_right fun h => hdeep (h k rfl)
        have hsame : cutTo (T - 1) k = k := cutTo_of_le (by omega)
        rw [hsame]
        obtain ⟨hmem, heq⟩ | ⟨-, -, heq⟩ | ⟨-, hge, -⟩ := collapseKey_cases ⟨C, d⟩ k
        · rw [heq, Finset.insert_eq_of_mem hmem, hdT]
        · rw [heq, hdT]
        · have hge' : d ≤ ((partDepth k : Nat) : Int) := hge
          omega
    rw [List.foldl_cons, hstep, ih hrest ?_ (le_refl _) (.inl rfl), if_neg (List.cons_ne_nil _ _),
      ite_self, List.map_cons, List.toFinset_cons, Finset.insert_union, Finset.union_insert]
    intro p hp
    rcases Finset.mem_insert.mp hp with rfl | hp
    · exact hcut
    · exact hC p hp

variable {s : Finset String}

/-- The most parts that a path of the set has. -/
def deepest (s : Finset String) : Nat := s.sup partDepth

/-- Folders that the sort may put before the first of the deepest names: they are
as deep as those for the sort, but have one part less. -/
def earlyFolders (s : Finset String) : Finset String :=
  s.filter fun k => splitDepth k = s.sup splitDepth ∧ partDepth k < deepest s

/-- What a turn makes of a set when it meets the paths `early` before any of the
deepest: these lose a part more than the others are cut to. -/
def turnSet (s early : Finset String) : Finset String :=
  early.image (cutTo (deepest s - 2)) ∪ (s \ early).image (cutTo (deepest s - 1))

theorem partDepth_le_deepest {k : String} (hk : k ∈ s) : partDepth k ≤ deepest s :=
  Finset.le_sup (f := partDepth) hk

theorem exists_deepest (hdeep : 2 ≤ deepest s) : ∃ k ∈ s, partDepth k = deepest s := by
  have hne : s.Nonempty := by
    by_contra hempty
    rw [Finset.not_nonempty_iff_eq_empty.mp hempty] at hdeep
    exact absurd hdeep (by decide)
  obtain ⟨k, hk, heq⟩ := Finset.exists_mem_eq_sup s hne partDepth
  exact ⟨k, hk, heq.symm⟩

/-- The paths before the first of the deepest. -/
def leading (T : Nat) (keys : List String) : List String :=
  keys.takeWhile fun k => partDepth k ≠ T

/-- What comes before the first key of a depth ends there, if there is such a key. -/
theorem exists_of_leading {T : Nat} {keys : List String} (h : ∃ k ∈ keys, partDepth k = T) :
    ∃ b rest, keys = leading T keys ++ b :: rest ∧ partDepth b = T := by
  obtain ⟨k, hk, hT⟩ := h
  have hsplit :=
    List.takeWhile_append_dropWhile (p := fun k => decide (partDepth k ≠ T)) (l := keys)
  cases hrest : keys.dropWhile fun k => partDepth k ≠ T with
  | nil =>
    exact absurd hT (by simpa using List.dropWhile_eq_nil_iff.mp hrest k hk)
  | cons b rest =>
    refine ⟨b, rest, by rw [← hrest, leading]; exact hsplit.symm, ?_⟩
    have hhead := List.head?_dropWhile_not (fun k => decide (partDepth k ≠ T)) keys
    rw [hrest] at hhead
    simpa using hhead

/-- The keys of a turn, sorted. -/
structure SortedKeys (s : Finset String) (keys : List String) : Prop where
  nodup : keys.Nodup
  mem : ∀ k, k ∈ keys ↔ k ∈ s
  depth : keys.Pairwise fun k k' => splitDepth k' ≤ splitDepth k

theorem sortedKeys (orders : Orders) (i : Nat) (s : Finset String) :
    SortedKeys s (orders.sorted i s) where
  nodup := by
    rw [← Multiset.coe_nodup, orders.sorted_listing]
    exact s.nodup
  mem _ := mem_sorted orders
  depth := orders.sorted_depth i s

/-- What comes before the first of the deepest paths is a folder as deep for the sort. -/
theorem leading_early {keys : List String} (hkeys : SortedKeys s keys) (hdeep : 2 ≤ deepest s)
    {a : String} (ha : a ∈ leading (deepest s) keys) :
    a ∈ earlyFolders s ∧ partDepth a = deepest s - 1 := by
  obtain ⟨k, hk, hkdeep⟩ := exists_deepest hdeep
  obtain ⟨b, rest, heq, hb⟩ := exists_of_leading ⟨k, (hkeys.mem k).mpr hk, hkdeep⟩
  have has : a ∈ s := (hkeys.mem a).mp (by rw [heq]; exact List.mem_append_left _ ha)
  have hle := partDepth_le_deepest has
  have hne : partDepth a ≠ deepest s := by simpa using List.mem_takeWhile_imp ha
  have hpairwise := hkeys.depth
  rw [heq] at hpairwise
  have hba : splitDepth b ≤ splitDepth a :=
    (List.pairwise_append.mp hpairwise).2.2 a ha b List.mem_cons_self
  have hsb := splitDepth_cases b
  have hsa := splitDepth_cases a
  refine ⟨Finset.mem_filter.mpr ⟨has, ?_, by omega⟩, by omega⟩
  -- the first key is one of the leading, too, and no path is deeper than it
  cases hfirst : leading (deepest s) keys with
  | nil => rw [hfirst] at ha; cases ha
  | cons c more =>
    have hc : c ∈ leading (deepest s) keys := by rw [hfirst]; exact List.mem_cons_self
    have hcs : c ∈ s := (hkeys.mem c).mp (by rw [heq]; exact List.mem_append_left _ hc)
    have hcne : partDepth c ≠ deepest s := by simpa using List.mem_takeWhile_imp hc
    have hcle := partDepth_le_deepest hcs
    have hsc := splitDepth_cases c
    refine le_antisymm (Finset.le_sup (f := splitDepth) has) (Finset.sup_le fun k' hk' => ?_)
    have hmem : k' ∈ keys := (hkeys.mem k').mpr hk'
    have hall := hkeys.depth
    rw [heq, hfirst, List.cons_append] at hmem hall
    rcases List.mem_cons.mp hmem with rfl | hmem
    · omega
    · have hk'c := List.rel_of_pairwise_cons hall hmem
      omega

/-- The loop over the leading paths. -/
theorem foldl_leading (hs : ∀ k ∈ s, hasPrefix k "/" = true) {keys : List String}
    (hkeys : SortedKeys s keys) (hdeep : 2 ≤ deepest s) :
    ∃ d : Int, d ≤ deepest s ∧ (leading (deepest s) keys).foldl collapseKey ⟨∅, -1⟩ =
      ⟨((leading (deepest s) keys).map (cutTo (deepest s - 2))).toFinset, d⟩ := by
  have hearly := fun a ha => leading_early hkeys hdeep (a := a) ha
  have hrooted : ∀ a ∈ leading (deepest s) keys, hasPrefix a "/" = true := fun a ha =>
    hs a (Finset.mem_filter.mp (hearly a ha).1).1
  have hnodup : (leading (deepest s) keys).Nodup :=
    hkeys.nodup.sublist (List.takeWhile_sublist _)
  generalize leading (deepest s) keys = A at hearly hrooted hnodup ⊢
  rcases Nat.lt_or_eq_of_le hdeep with hthree | htwo
  · have hlow : ∀ a ∈ A, hasPrefix a "/" = true ∧ partDepth a ≤ deepest s - 1 := fun a ha =>
      ⟨hrooted a ha, (hearly a ha).2.le⟩
    have hlevel := foldl_collapseKey (by omega) hlow (C := ∅) (d := -1)
      (fun p hp => absurd hp (Finset.notMem_empty p)) (by omega)
      (.inr fun a ha => (hearly a (List.mem_of_mem_head? ha)).2)
    refine ⟨_, ?_, by rw [hlevel, Finset.empty_union]; rfl⟩
    split_ifs <;> omega
  · -- only the root's path has one part
    have hslash : ∀ a ∈ A, a = "/" := fun a ha =>
      eq_slash_of_partDepth_le (hrooted a ha) (by rw [(hearly a ha).2]; omega)
    rw [← htwo]
    match A, hslash, hnodup with
    | [], _, _ => exact ⟨-1, by omega, rfl⟩
    | [a], hslash, _ =>
      obtain rfl := hslash a List.mem_cons_self
      exact ⟨1, by omega, by decide +kernel⟩
    | a :: a' :: A, hslash, hnodup =>
      have ha := hslash a List.mem_cons_self
      have ha' := hslash a' (List.mem_cons_of_mem _ List.mem_cons_self)
      rw [ha, ha'] at hnodup
      exact absurd List.mem_cons_self (List.nodup_cons.mp hnodup).1

theorem toFinset_map_cutTo (m : Nat) (keys : List String) :
    (keys.map (cutTo m)).toFinset = keys.toFinset.image (cutTo m) := by
  ext p
  simp only [List.mem_toFinset, List.mem_map, Finset.mem_image]

/-- **A turn** cuts all paths to one part less than the deepest have, and those that
come before the deepest once more. -/
theorem collapseKeys_eq (hs : ∀ k ∈ s, hasPrefix k "/" = true) {keys : List String}
    (hkeys : SortedKeys s keys) (hdeep : 2 ≤ deepest s) :
    collapseKeys keys = ⟨turnSet s (leading (deepest s) keys).toFinset, deepest s⟩ := by
  obtain ⟨k, hk, hkdeep⟩ := exists_deepest hdeep
  obtain ⟨b, rest, heq, hb⟩ := exists_of_leading ⟨k, (hkeys.mem k).mpr hk, hkdeep⟩
  obtain ⟨d, hd, hloop⟩ := foldl_leading hs hkeys hdeep
  have hearly := fun a ha => leading_early hkeys hdeep (a := a) ha
  -- the keys from the first deepest on are those that do not come before it
  have hrest : (b :: rest).toFinset = s \ (leading (deepest s) keys).toFinset := by
    have hnodup := hkeys.nodup
    rw [heq] at hnodup
    have hdisjoint := (List.nodup_append.mp hnodup).2.2
    ext k'
    have hmem : k' ∈ keys ↔ k' ∈ leading (deepest s) keys ∨ k' ∈ b :: rest := by
      conv_lhs => rw [heq]
      exact List.mem_append
    rw [Finset.mem_sdiff, List.mem_toFinset, List.mem_toFinset, ← hkeys.mem k', hmem]
    constructor
    · intro hmem
      exact ⟨.inr hmem, fun ha => hdisjoint k' ha k' hmem rfl⟩
    · rintro ⟨ha | hmem, hnot⟩
      · exact absurd ha hnot
      · exact hmem
  unfold collapseKeys
  -- up to there the depth is not known yet, from there on it is
  nth_rewrite 1 [heq]
  rw [List.foldl_append, hloop, foldl_collapseKey hdeep ?_ ?_ hd (.inr fun k' hk' => ?_),
    if_neg (List.cons_ne_nil _ _), turnSet, ← hrest, toFinset_map_cutTo, toFinset_map_cutTo]
  · intro k' hk'
    have hmem : k' ∈ s := by
      refine (hkeys.mem k').mp ?_
      rw [heq]
      exact List.mem_append_right _ hk'
    exact ⟨hs k' hmem, partDepth_le_deepest hmem⟩
  · intro p hp
    obtain ⟨a, ha, rfl⟩ := List.mem_map.mp (List.mem_toFinset.mp hp)
    obtain ⟨hmem, hdepth⟩ := hearly a ha
    have hroot := hs a (Finset.mem_filter.mp hmem).1
    rcases Nat.lt_or_eq_of_le hdeep with hthree | htwo
    · rw [partDepth_cutTo hroot (by omega)]
      omega
    · rw [cutTo_le_one hroot (by omega), ← htwo]
      decide
  · rw [List.head?_cons, Option.some_inj] at hk'
    rw [← hk', hb]

/-- Paths of which none is before the deepest in any order. -/
structure Topped (s : Finset String) (m : Nat) : Prop where
  rooted : ∀ k ∈ s, hasPrefix k "/" = true
  le : ∀ k ∈ s, partDepth k ≤ m
  top : ∃ k ∈ s, splitDepth k = m + 1

theorem Topped.deepest_eq {m : Nat} (h : Topped s m) : deepest s = m := by
  obtain ⟨k, hk, hsplit⟩ := h.top
  have hcases := splitDepth_cases k
  have hle := h.le k hk
  exact le_antisymm (Finset.sup_le h.le) (le_trans (by omega) (partDepth_le_deepest hk))

theorem Topped.earlyFolders_eq {m : Nat} (h : Topped s m) : earlyFolders s = ∅ := by
  obtain ⟨k, hk, hsplit⟩ := h.top
  refine Finset.filter_eq_empty_iff.mpr fun p _ => ?_
  rintro ⟨hsup, hlt⟩
  have hle : splitDepth k ≤ s.sup splitDepth := Finset.le_sup (f := splitDepth) hk
  have hcases := splitDepth_cases p
  rw [h.deepest_eq] at hlt
  omega

/-- A turn on such paths. -/
theorem Topped.collapseKeys_eq {m : Nat} (h : Topped s m) (hm : 2 ≤ m) (orders : Orders) (i : Nat) :
    collapseKeys (orders.sorted i s) = ⟨s.image (cutTo (m - 1)), m⟩ := by
  have hdeep : 2 ≤ deepest s := by rw [h.deepest_eq]; exact hm
  have hnone : (leading (deepest s) (orders.sorted i s)).toFinset = ∅ := by
    refine Finset.eq_empty_iff_forall_notMem.mpr fun a ha => ?_
    have hearly := (leading_early (sortedKeys orders i s) hdeep (List.mem_toFinset.mp ha)).1
    rw [h.earlyFolders_eq] at hearly
    exact Finset.notMem_empty a hearly
  rw [Checks.collapseKeys_eq h.rooted (sortedKeys orders i s) hdeep, hnone, turnSet,
    Finset.image_empty, Finset.empty_union, Finset.sdiff_empty, h.deepest_eq]

/-- The orders in which the paths `early` come before the others of their depth. -/
def tieOf (early : Finset String) (k : String) : Fin 3 :=
  if k ∈ early then 0 else if partDepth k = splitDepth k then 1 else 2

/-- Any of the early folders can be the ones before the deepest paths. -/
theorem leading_tieOf (hdeep : 2 ≤ deepest s) {early : Finset String}
    (hearly : early ⊆ earlyFolders s) (rank : Finset String → String → Nat) (i : Nat) :
    (leading (deepest s) ((Orders.of (tieOf early) rank).sorted i s)).toFinset = early := by
  obtain ⟨k, hk, hkdeep⟩ := exists_deepest hdeep
  have hkeys := sortedKeys (Orders.of (tieOf early) rank) i s
  have hpairwise : ((Orders.of (tieOf early) rank).sorted i s).Pairwise fun a b =>
      depthRank (tieOf early) s a ≤ depthRank (tieOf early) s b := byRank_pairwise _ s
  have hlead := fun a ha => leading_early hkeys hdeep (a := a) ha
  obtain ⟨b, rest, heq, hb⟩ := exists_of_leading ⟨k, (hkeys.mem k).mpr hk, hkdeep⟩
  have hbs : b ∈ s := (hkeys.mem b).mp
    (by rw [heq]; exact List.mem_append_right _ List.mem_cons_self)
  have hbsup : splitDepth b ≤ s.sup splitDepth := Finset.le_sup (f := splitDepth) hbs
  have hbcases := splitDepth_cases b
  -- the first deepest path is not early, an early folder has fewer parts
  have hbnot : b ∉ early := fun hmem => by
    have hlt := (Finset.mem_filter.mp (hearly hmem)).2.2
    omega
  rw [heq] at hpairwise
  ext a
  rw [List.mem_toFinset]
  constructor
  · intro ha
    obtain ⟨hmem, hdepth⟩ := hlead a ha
    have hasup := (Finset.mem_filter.mp hmem).2.1
    have hacases := splitDepth_cases a
    -- what stands before it has a rank no higher than its own, which early ones have
    have hab := (List.pairwise_append.mp hpairwise).2.2 a ha b List.mem_cons_self
    by_contra hnot
    unfold depthRank tieOf at hab
    rw [if_neg hnot, if_neg (by omega), if_neg hbnot, if_pos (by omega)] at hab
    simp only [Fin.val_one, Fin.val_two] at hab
    omega
  · intro ha
    obtain ⟨has, hasup, hlt⟩ := Finset.mem_filter.mp (hearly ha)
    have hmem := (hkeys.mem a).mpr has
    rw [heq] at hmem
    rcases List.mem_append.mp hmem with hmem | hmem
    · exact hmem
    · exfalso
      rcases List.mem_cons.mp hmem with rfl | hmem
      · omega
      -- an early path behind it would have the higher rank
      · have hba := List.rel_of_pairwise_cons (List.pairwise_append.mp hpairwise).2.1 hmem
        unfold depthRank tieOf at hba
        rw [if_pos ha, if_neg hbnot, hasup] at hba
        split_ifs at hba <;> simp at hba

end Turn

/-! ## The loop

After the first turn the deepest paths are all folders, so no later turn has exceptions. What is
left is given by the depth at which the turns stop and by the folders that came first in the first
one. -/

section Loop

/-- The depth that the turns cut to, from `m` on. -/
def settleDepth (limit : Int) (tests : Finset String) : Nat → Nat → Nat
  | 0, m => m
  | turns + 1, m =>
    if limit < (tests.image (cutTo m)).card ∧ 3 ≤ m then settleDepth limit tests turns (m - 1)
    else m

variable {limit : Int} {tests : Finset String}

/-- Where some path is cut, a folder of that depth is left, and no path can come before it. -/
theorem topped_image (htests : ∀ k ∈ tests, hasPrefix k "/" = true) {m : Nat} (hm : 1 ≤ m)
    (hk : ∃ k ∈ tests, m < partDepth k) : Topped (tests.image (cutTo m)) m := by
  constructor
  · intro p hp
    obtain ⟨k, hk, rfl⟩ := Finset.mem_image.mp hp
    exact cutTo_rooted (htests k hk) m
  · intro p hp
    obtain ⟨k, hk, rfl⟩ := Finset.mem_image.mp hp
    rw [partDepth_cutTo (htests k hk) hm]
    exact min_le_left _ _
  · obtain ⟨k, hk, hlt⟩ := hk
    exact ⟨_, Finset.mem_image_of_mem _ hk, splitDepth_cutTo_of_lt hm hlt⟩

theorem image_cutTo_image (htests : ∀ k ∈ tests, hasPrefix k "/" = true) {m m' : Nat} (hm : 1 ≤ m)
    (hle : m ≤ m') : (tests.image (cutTo m')).image (cutTo m) = tests.image (cutTo m) := by
  rw [Finset.image_image]
  refine Finset.image_congr fun k hk => ?_
  rw [Function.comp_apply, cutTo_cutTo (htests k hk) hm hle]

/-- More than one path means that some path has more than one part. -/
theorem two_le_deepest (htests : ∀ k ∈ tests, hasPrefix k "/" = true) (hlimit : 1 ≤ limit)
    (hcard : limit < tests.card) : 2 ≤ deepest tests := by
  by_contra hshallow
  have hone : tests.card ≤ 1 := by
    refine Finset.card_le_one.mpr fun k hk k' hk' => ?_
    have hle := partDepth_le_deepest hk
    have hle' := partDepth_le_deepest hk'
    rw [eq_slash_of_partDepth_le (htests k hk) (by omega),
      eq_slash_of_partDepth_le (htests k' hk') (by omega)]
  omega

/-- The turns after the first, from paths that are all cut to one depth. -/
theorem collapseFrom_image (htests : ∀ k ∈ tests, hasPrefix k "/" = true) (hlimit : 1 ≤ limit)
    (orders : Orders) (turns : Nat) {i : Nat} (hi : 0 < i) {m : Nat} (hm : 1 ≤ m)
    (hk : ∃ k ∈ tests, m < partDepth k) :
    collapseFrom orders limit turns i (tests.image (cutTo m)) =
      tests.image (cutTo (settleDepth limit tests turns m)) := by
  induction turns generalizing i m with
  | zero => rfl
  | succ turns ih =>
    have htop := topped_image htests hm hk
    rw [collapseFrom, settleDepth]
    dsimp only
    by_cases hcard : limit < (tests.image (cutTo m)).card
    · have htwo : 2 ≤ m := by
        rw [← htop.deepest_eq]
        exact two_le_deepest htop.rooted hlimit hcard
      rw [if_pos hcard, htop.collapseKeys_eq htwo]
      dsimp only
      by_cases hthree : 3 ≤ m
      · rw [if_neg (by omega), if_pos ⟨hcard, hthree⟩,
          image_cutTo_image htests (by omega) (Nat.sub_le m 1)]
        obtain ⟨k, hk, hlt⟩ := hk
        exact ih (Nat.succ_pos i) (by omega) ⟨k, hk, by omega⟩
      · rw [if_pos ⟨hi, by omega⟩, if_neg fun h => hthree h.2]
    · rw [if_neg hcard, if_neg fun h => hcard h.1]

/-- The depth of the folders of a run: the greatest below the deepest at which few
enough paths are left, but no less than ten turns reach, and no less than 2 if the
deepest path has more than 2 parts. -/
def foldersDepth (limit : Int) (tests : Finset String) : Nat :=
  let m := deepest tests - 1
  max (max (m - 9) (min 2 m))
    (Nat.findGreatest (fun m => ((tests.image (cutTo m)).card : Int) ≤ limit) m)

/-- The turns end at the greatest depth where few enough paths are left, unless they do not come as
far up, and at 2 at the latest. -/
theorem settleDepth_eq (limit : Int) (tests : Finset String) (turns m : Nat) :
    settleDepth limit tests turns m = max (max (m - turns) (min 2 m))
      (Nat.findGreatest (fun m => ((tests.image (cutTo m)).card : Int) ≤ limit) m) := by
  induction turns generalizing m with
  | zero =>
    have hle := Nat.findGreatest_le (P := fun m => ((tests.image (cutTo m)).card : Int) ≤ limit) m
    rw [settleDepth]
    omega
  | succ turns ih =>
    rw [settleDepth]
    split_ifs with h
    · obtain ⟨hcard, hthree⟩ := h
      obtain ⟨m, rfl⟩ := Nat.exists_eq_add_of_le' (by omega : 1 ≤ m)
      have hnot : ¬((tests.image (cutTo (m + 1))).card : Int) ≤ limit := not_le.mpr hcard
      have hgreatest := Nat.findGreatest_of_not (n := m)
        (P := fun m => ((tests.image (cutTo m)).card : Int) ≤ limit) hnot
      rw [Nat.add_sub_cancel, ih, hgreatest]
      omega
    · have hle := Nat.findGreatest_le (P := fun m => ((tests.image (cutTo m)).card : Int) ≤ limit) m
      by_cases hcard : limit < (tests.image (cutTo m)).card
      · have hthree : ¬3 ≤ m := fun hthree => h ⟨hcard, hthree⟩
        omega
      · have hself : Nat.findGreatest
            (fun m => ((tests.image (cutTo m)).card : Int) ≤ limit) m = m :=
          le_antisymm hle (Nat.le_findGreatest (le_refl m) (not_lt.mp hcard))
        omega

/-- The first turn, where `early` come before the deepest paths, and the others. -/
def pathsAfter (limit : Int) (tests early : Finset String) : Finset String :=
  if limit < (turnSet tests early).card ∧ 4 ≤ deepest tests then
    tests.image (cutTo (settleDepth limit tests 8 (deepest tests - 2)))
  else turnSet tests early

theorem turnSet_empty (tests : Finset String) :
    turnSet tests ∅ = tests.image (cutTo (deepest tests - 1)) := by
  rw [turnSet, Finset.image_empty, Finset.empty_union, Finset.sdiff_empty]

/-- When no folder comes before the deepest paths, all paths are cut to one depth. -/
theorem pathsAfter_empty (limit : Int) (tests : Finset String) :
    pathsAfter limit tests ∅ = tests.image (cutTo (foldersDepth limit tests)) := by
  have hdepth : foldersDepth limit tests = settleDepth limit tests 9 (deepest tests - 1) :=
    (settleDepth_eq limit tests 9 (deepest tests - 1)).symm
  have hturn : settleDepth limit tests 9 (deepest tests - 1) =
      if limit < (tests.image (cutTo (deepest tests - 1))).card ∧ 3 ≤ deepest tests - 1 then
        settleDepth limit tests 8 (deepest tests - 1 - 1)
      else deepest tests - 1 := rfl
  rw [hdepth, pathsAfter, turnSet_empty, hturn]
  by_cases h : limit < (tests.image (cutTo (deepest tests - 1))).card ∧ 4 ≤ deepest tests
  · rw [if_pos h, if_pos ⟨h.1, by omega⟩, Nat.sub_sub]
  · rw [if_neg h, if_neg fun h' => h ⟨h'.1, by omega⟩]

theorem notMem_earlyFolders {k : String} (hk : partDepth k = deepest tests) :
    k ∉ earlyFolders tests := fun hmem => by
  have hlt := (Finset.mem_filter.mp hmem).2.2
  omega

/-- So it is after the first turn, whichever folders came early. -/
theorem topped_turnSet (htests : ∀ k ∈ tests, hasPrefix k "/" = true)
    (hthree : 3 ≤ deepest tests) {early : Finset String} (hearly : early ⊆ earlyFolders tests) :
    Topped (turnSet tests early) (deepest tests - 1) := by
  have hsub : early ⊆ tests := hearly.trans (Finset.filter_subset _ _)
  constructor
  · intro p hp
    rcases Finset.mem_union.mp hp with hp | hp
    · obtain ⟨k, hk, rfl⟩ := Finset.mem_image.mp hp
      exact cutTo_rooted (htests k (hsub hk)) _
    · obtain ⟨k, hk, rfl⟩ := Finset.mem_image.mp hp
      exact cutTo_rooted (htests k (Finset.mem_sdiff.mp hk).1) _
  · intro p hp
    rcases Finset.mem_union.mp hp with hp | hp
    · obtain ⟨k, hk, rfl⟩ := Finset.mem_image.mp hp
      rw [partDepth_cutTo (htests k (hsub hk)) (by omega)]
      omega
    · obtain ⟨k, hk, rfl⟩ := Finset.mem_image.mp hp
      rw [partDepth_cutTo (htests k (Finset.mem_sdiff.mp hk).1) (by omega)]
      omega
  · obtain ⟨k, hk, hdeep⟩ := exists_deepest (s := tests) (by omega)
    have hmem : k ∈ tests \ early :=
      Finset.mem_sdiff.mpr ⟨hk, fun h => notMem_earlyFolders hdeep (hearly h)⟩
    exact ⟨_, Finset.mem_union_right _ (Finset.mem_image_of_mem _ hmem),
      splitDepth_cutTo_of_lt (by omega) (by omega)⟩

theorem image_turnSet (htests : ∀ k ∈ tests, hasPrefix k "/" = true) (hthree : 3 ≤ deepest tests)
    {early : Finset String} (hsub : early ⊆ tests) :
    (turnSet tests early).image (cutTo (deepest tests - 2)) =
      tests.image (cutTo (deepest tests - 2)) := by
  have hrest : ∀ k ∈ tests \ early, hasPrefix k "/" = true := fun k hk =>
    htests k (Finset.mem_sdiff.mp hk).1
  rw [turnSet, Finset.image_union,
    image_cutTo_image (fun k hk => htests k (hsub hk)) (by omega) (le_refl _),
    image_cutTo_image hrest (by omega) (by omega), ← Finset.image_union,
    Finset.union_sdiff_of_subset hsub]

/-- After a turn at depth two only the root is left. -/
theorem turnSet_of_two (htests : ∀ k ∈ tests, hasPrefix k "/" = true) (htwo : deepest tests = 2)
    {early : Finset String} (hearly : early ⊆ earlyFolders tests) :
    turnSet tests early = {"/"} := by
  have hsub : early ⊆ tests := hearly.trans (Finset.filter_subset _ _)
  obtain ⟨k, hk, hdeep⟩ := exists_deepest (s := tests) htwo.ge
  have hmem : k ∈ tests \ early :=
    Finset.mem_sdiff.mpr ⟨hk, fun h => notMem_earlyFolders hdeep (hearly h)⟩
  rw [turnSet, htwo]
  refine Finset.eq_singleton_iff_unique_mem.mpr ⟨?_, fun p hp => ?_⟩
  · exact Finset.mem_union_right _
      (Finset.mem_image.mpr ⟨k, hmem, cutTo_le_one (htests k hk) (le_refl 1)⟩)
  · rcases Finset.mem_union.mp hp with hp | hp
    · obtain ⟨k, hk, rfl⟩ := Finset.mem_image.mp hp
      exact cutTo_le_one (htests k (hsub hk)) (by omega)
    · obtain ⟨k, hk, rfl⟩ := Finset.mem_image.mp hp
      exact cutTo_le_one (htests k (Finset.mem_sdiff.mp hk).1) (by omega)

/-- **The paths of a run**, from the folders that come before the deepest paths in
its first turn: the turns after that do not depend on any order. -/
theorem collapsePaths_eq (htests : ∀ k ∈ tests, hasPrefix k "/" = true) (hlimit : 1 ≤ limit)
    (hcard : limit < tests.card) (orders : Orders) :
    collapsePaths orders tests limit = pathsAfter limit tests
      (leading (deepest tests) (orders.sorted 0 tests)).toFinset := by
  have hdeep := two_le_deepest htests hlimit hcard
  have hearly : (leading (deepest tests) (orders.sorted 0 tests)).toFinset ⊆ earlyFolders tests :=
    fun a ha => (leading_early (sortedKeys orders 0 tests) hdeep (List.mem_toFinset.mp ha)).1
  rw [collapsePaths, collapseFrom]
  dsimp only
  rw [if_pos hcard, if_neg (fun h => absurd h.1 (lt_irrefl 0)),
    collapseKeys_eq htests (sortedKeys orders 0 tests) hdeep]
  dsimp only
  generalize (leading (deepest tests) (orders.sorted 0 tests)).toFinset = early at hearly
  -- either there are more turns or the first one leaves the root
  rcases Nat.lt_or_eq_of_le hdeep with hthree | htwo
  · have htop := topped_turnSet htests hthree hearly
    rw [collapseFrom, pathsAfter]
    dsimp only
    by_cases hmany : limit < (turnSet tests early).card
    · rw [if_pos hmany, htop.collapseKeys_eq (by omega)]
      dsimp only
      by_cases hfour : 4 ≤ deepest tests
      · have hsub : early ⊆ tests := hearly.trans (Finset.filter_subset _ _)
        obtain ⟨k, hk, hkdeep⟩ := exists_deepest (s := tests) hdeep
        rw [if_neg (by omega), if_pos ⟨hmany, hfour⟩, Nat.sub_sub,
          image_turnSet htests hthree hsub]
        exact collapseFrom_image htests hlimit orders 8 (by omega) (by omega) ⟨k, hk, by omega⟩
      · rw [if_pos ⟨by omega, by omega⟩, if_neg fun h => hfour h.2]
    · rw [if_neg hmany, if_neg fun h => hmany h.1]
  · rw [pathsAfter, if_neg (by omega), turnSet_of_two htests htwo.symm hearly, collapseFrom]
    exact if_neg (by rw [Finset.card_singleton]; omega)

end Loop

end WptFyi.Checks
