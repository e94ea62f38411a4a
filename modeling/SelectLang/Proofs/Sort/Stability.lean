/-
# The sort is stable

Where the order is transitive on the elements, the sort does not give up, and what it returns is what insertion
would: the smaller elements first, and those that are level as they were given. It is shown of places, for what
each of the ways to sort does by itself: cut and join runs, and part a list by a pivot. With a floor no element
is below it, so if the pivot is no more than the floor, the elements that are not above the pivot are level.

Key definitions: `SortedTo`.
Key theorems: `keptByRuns_sortedTo`, `leads_sortParts?`, `isSome_stableSort?`, `stableSort?_eq`.
-/
import Mathlib
import SelectLang.Proofs.Sort.Merging

namespace SelectLang

/-! ### Places -/

section

variable {ι : Type} [LinearOrder ι]

/-- The places of the one list are those of the other, sorted if they were given in their order. -/
structure SortedTo (order : ι → ι → Ordering) (as bs : List ι) : Prop where
  perm : bs.Perm as
  leads : as.Pairwise (· < ·) → bs.Pairwise (Leads order)

variable {order : ι → ι → Ordering} [Std.TransCmp order]

/-! ### Runs -/

theorem leads_ascending {as : List ι} (hfalls : falls order as = false)
    (h : (as.take (naturalLength order as)).Pairwise (· < ·)) :
    (as.take (naturalLength order as)).Pairwise (Leads order) := by
  have : IsTrans ι fun a b => order a b ≠ .gt := ⟨fun _ _ _ => order_trans⟩
  have hchain : (as.take (naturalLength order as)).IsChain fun a b => order a b ≠ .gt :=
    (isChain_runLength _ as).imp fun a b hab hgt => by
      rw [hfalls, Std.OrientedCmp.gt_iff_lt.mp hgt] at hab
      cases hab
  exact ((List.isChain_iff_pairwise.mp hchain).and h).imp fun hab => comesBefore_of_ne_gt hab.1 hab.2

theorem leads_falling {as : List ι} (hfalls : falls order as = true) :
    (as.take (naturalLength order as)).reverse.Pairwise (Leads order) := by
  have : IsTrans ι fun a b => order b a = .lt := ⟨fun _ _ _ hab hbc => Std.TransCmp.lt_trans hbc hab⟩
  have hchain : (as.take (naturalLength order as)).IsChain fun a b => order b a = .lt :=
    (isChain_runLength _ as).imp fun a b hab => by
      rw [hfalls] at hab
      exact beq_iff_eq.mp (beq_iff_eq.mp hab)
  exact List.pairwise_reverse.mpr ((List.isChain_iff_pairwise.mp hchain).imp Or.inl)

theorem sortedTo_sortHalves? {as bs : List ι} (h : sortHalves? order as = some bs) : SortedTo order as bs where
  perm := sortHalves?_perm h
  leads hplaces := by
    obtain ⟨cs, hcs, hleads⟩ := exists_sortHalves? order hplaces
    rw [h] at hcs
    cases hcs
    exact hleads

/-- A sort by runs sorts, if what finishes it does. -/
theorem keptByRuns_sortedTo {finish : List ι → Option (List ι)} {eager : Bool}
    (hfinish : eager = false → ∀ as bs, finish as = some bs → SortedTo order as bs) :
    KeptByRuns (SortedTo order) eager order finish where
  nil := ⟨.nil, fun _ => .nil⟩
  ascending as hfalls := ⟨.refl _, leads_ascending hfalls⟩
  falling as hfalls := ⟨List.reverse_perm _, fun _ => leads_falling hfalls⟩
  halves as bs h := ⟨(sortHalves?_perm h).length_eq, sortedTo_sortHalves? h⟩
  finished := hfinish
  merged as bs more others h hmore :=
    { perm := (mergeRuns_perm order bs others).trans (h.perm.append hmore.perm)
      leads := fun hplaces => by
        obtain ⟨has, hbs, hacross⟩ := List.pairwise_append.mp hplaces
        exact leads_mergeRuns (h.leads has) (hmore.leads hbs) fun a ha b hb =>
          hacross a (h.perm.mem_iff.mp ha) b (hmore.perm.mem_iff.mp hb) }

/-! ### Parts -/

/-- The elements that are level with the pivot come, as they were given, before those that are above. -/
theorem leads_append_of_level {pivot : ι} {as high : List ι} (has : as.Pairwise (· < ·))
    (hpivot : ∀ a ∈ as, order a pivot ≠ .lt) (hhigh : SortedTo order (as.filter (order pivot · == .lt)) high) :
    (as.filter (order pivot · != .lt) ++ high).Pairwise (Leads order) := by
  have hlevel : ∀ a ∈ as.filter (order pivot · != .lt), order a pivot = .eq := fun a ha => by
    obtain ⟨hmem, hle⟩ := List.mem_filter.mp ha
    cases h : order a pivot with
    | lt => exact absurd h (hpivot a hmem)
    | eq => rfl
    | gt => exact absurd (Std.OrientedCmp.gt_iff_lt.mp h) (bne_iff_ne.mp hle)
  refine List.pairwise_append.mpr ⟨?_, hhigh.leads (has.filter _), fun a ha b hb => ?_⟩
  · refine (has.filter _).imp_of_mem fun {a b} ha hb hab => .inr ⟨?_, hab⟩
    exact Std.TransCmp.eq_trans (hlevel a ha) (Std.OrientedCmp.eq_symm (hlevel b hb))
  · have habove := (List.mem_filter.mp (hhigh.perm.mem_iff.mp hb)).2
    exact .inl (Std.TransCmp.lt_of_eq_of_lt (hlevel a ha) (beq_iff_eq.mp habove))

/-- The elements below the pivot come before the others. -/
theorem leads_append_of_below {pivot : ι} {as low high : List ι} (has : as.Pairwise (· < ·))
    (hlow : SortedTo order (as.filter (order · pivot == .lt)) low)
    (hhigh : SortedTo order (as.filter (order · pivot != .lt)) high) :
    (low ++ high).Pairwise (Leads order) := by
  refine List.pairwise_append.mpr ⟨hlow.leads (has.filter _), hhigh.leads (has.filter _), fun a ha b hb => ?_⟩
  have hbelow := (List.mem_filter.mp (hlow.perm.mem_iff.mp ha)).2
  have habove := (List.mem_filter.mp (hhigh.perm.mem_iff.mp hb)).2
  have hle : (order pivot b).isLE := Ordering.isLE_iff_ne_gt.mpr fun hgt =>
    bne_iff_ne.mp habove (Std.OrientedCmp.gt_iff_lt.mp hgt)
  exact .inl (Std.TransCmp.lt_of_lt_of_isLE (beq_iff_eq.mp hbelow) hle)

omit [LinearOrder ι] in
/-- No element is below the pivot, if none was found to be, or the pivot is no more than the floor. -/
theorem not_below_of_level {pivot : ι} {floor : Option ι} {as : List ι}
    (hfloor : ∀ bottom ∈ floor, ∀ a ∈ as, order a bottom ≠ .lt)
    (hlevel : (as.filter (order · pivot == .lt)).isEmpty || floor.any (order · pivot != .lt)) :
    ∀ a ∈ as, order a pivot ≠ .lt := by
  intro a ha hlt
  rcases Bool.or_eq_true_iff.mp hlevel with hnone | hany
  · have hmem : a ∈ as.filter (order · pivot == .lt) := List.mem_filter.mpr ⟨ha, beq_iff_eq.mpr hlt⟩
    rw [List.isEmpty_iff.mp hnone] at hmem
    cases hmem
  · cases floor with
    | none => cases hany
    | some bottom =>
      have hle : (order pivot bottom).isLE := Ordering.isLE_iff_ne_gt.mpr fun hgt =>
        bne_iff_ne.mp hany (Std.OrientedCmp.gt_iff_lt.mp hgt)
      exact hfloor bottom rfl a ha (Std.TransCmp.lt_of_lt_of_isLE hlt hle)

theorem leads_sortParts? {limit : Nat} {floor : Option ι} {as bs : List ι}
    (h : sortParts? order limit floor as = some bs) (hfloor : ∀ bottom ∈ floor, ∀ a ∈ as, order a bottom ≠ .lt)
    (has : as.Pairwise (· < ·)) : bs.Pairwise (Leads order) := by
  induction limit using Nat.strong_induction_on generalizing floor as bs with
  | _ limit ih =>
    rcases sortParts?_cases h with h | h |
      ⟨below, pivot, rfl, ⟨hlevel, high, hhigh, rfl⟩ | ⟨low, high, hlow, hhigh, rfl⟩⟩
    · exact (sortedTo_sortHalves? h).leads has
    · have hkept : KeptByRuns (SortedTo order) true order some := keptByRuns_sortedTo nofun
      exact (hkept.sortByRuns? h).leads has
    · exact leads_append_of_level has (not_below_of_level hfloor hlevel)
        ⟨sortParts?_perm hhigh, ih below below.lt_succ_self hhigh nofun⟩
    · refine leads_append_of_below has
        ⟨sortParts?_perm hlow, ih below below.lt_succ_self hlow fun bottom hbottom a ha =>
          hfloor bottom hbottom a (List.mem_filter.mp ha).1⟩
        ⟨sortParts?_perm hhigh, ih below below.lt_succ_self hhigh fun bottom hbottom a ha => ?_⟩
      cases hbottom
      exact bne_iff_ne.mp (List.mem_filter.mp ha).2

theorem leads_stableSort? {as bs : List ι} (h : stableSort? order as = some bs) (has : as.Pairwise (· < ·)) :
    bs.Pairwise (Leads order) := by
  rw [stableSort?] at h
  split at h
  · cases h
    exact leads_sortBy has
  · have hkept : KeptByRuns (SortedTo order) (decide (as.length ≤ 64)) order (sortStretch? order) :=
      keptByRuns_sortedTo fun _ _ _ hparts =>
        ⟨sortParts?_perm hparts, leads_sortParts? hparts fun _ hnone => absurd hnone (Option.not_mem_none _)⟩
    exact (hkept.sortByRuns? h).leads has

end

/-! ### Sorts that do not give up -/

section

variable {α : Type} {order : α → α → Ordering} [Std.TransCmp order]

theorem transCmp_made {β : Type} (f : β → α) : Std.TransCmp fun x y => order (f x) (f y) where
  eq_swap := Std.OrientedCmp.eq_swap
  isLE_trans := Std.TransCmp.isLE_trans

theorem isSome_sortHalves? (as : List α) : (sortHalves? order as).isSome := by
  let made : Fin as.length → Fin as.length → Ordering := fun i j => order (as.get i) (as.get j)
  have : Std.TransCmp made := transCmp_made as.get
  obtain ⟨places, hplaces, -⟩ := exists_sortHalves? made (List.pairwise_lt_finRange as.length)
  have hmap := sortHalves?_map as.get order (fun i j => Eq.refl (made i j)) (List.finRange as.length)
  rw [← List.ofFn_eq_map, List.ofFn_get, hplaces] at hmap
  rw [hmap]
  rfl

theorem isSome_sortParts? (limit : Nat) (floor : Option α) (as : List α) :
    (sortParts? order limit floor as).isSome := by
  have hruns : ∀ as : List α, (sortByRuns? order some 0 true as).isSome :=
    isSome_sortByRuns? order 0 (fun _ => rfl) isSome_sortHalves?
  induction limit generalizing floor as with
  | zero =>
    rw [sortParts?.eq_def]
    dsimp only
    split
    · exact isSome_sortHalves? as
    · exact hruns as
  | succ limit ih =>
    rw [sortParts?.eq_def]
    dsimp only
    split
    · exact isSome_sortHalves? as
    · cases pivot? order as with
      | none => exact hruns as
      | some pivot =>
        dsimp only
        split
        · rw [Option.isSome_map]
          exact ih none _
        · obtain ⟨low, hlow⟩ := Option.isSome_iff_exists.mp (ih floor (as.filter (order · pivot == .lt)))
          obtain ⟨high, hhigh⟩ :=
            Option.isSome_iff_exists.mp (ih (some pivot) (as.filter (order · pivot != .lt)))
          rw [hlow, hhigh]
          rfl

theorem isSome_stableSort? (as : List α) : (stableSort? order as).isSome := by
  rw [stableSort?]
  split
  · rfl
  · exact isSome_sortByRuns? order _ (fun more => isSome_sortParts? _ none more) isSome_sortHalves? as

end

/-- If the comparison turns round with its operands and is transitive on the elements, the sort does not give
up, and returns what insertion does. -/
theorem stableSort?_eq {α : Type} {order : α → α → Ordering} (hswap : ∀ a b, order a b = (order b a).swap)
    {as : List α} (htrans : ∀ a ∈ as, ∀ b ∈ as, ∀ c ∈ as,
      order a b ≠ .gt → order b c ≠ .gt → order a c ≠ .gt) :
    stableSort? order as = some (sortBy order as) := by
  let places := List.finRange as.length
  let made := fun i j => order (as.get i) (as.get j)
  have : Std.TransCmp made :=
    { eq_swap := hswap _ _
      isLE_trans := fun {i j k} hij hjk => Ordering.isLE_iff_ne_gt.mpr (htrans _ (as.get_mem i) _ (as.get_mem j)
        _ (as.get_mem k) (Ordering.isLE_iff_ne_gt.mp hij) (Ordering.isLE_iff_ne_gt.mp hjk)) }
  have hplaces : places.Pairwise (· < ·) := List.pairwise_lt_finRange as.length
  have hreturns : (stableSort? made places).isSome := isSome_stableSort? places
  obtain ⟨sorted, hsorted⟩ := Option.isSome_iff_exists.mp hreturns
  have hsame : sorted = sortBy made places := eq_of_leads (leads_stableSort? hsorted hplaces)
    (leads_sortBy hplaces) ((stableSort?_perm hsorted).trans (sortBy_perm made places).symm)
  have has : places.map as.get = as := by rw [← List.ofFn_eq_map, List.ofFn_get]
  have hmap := stableSort?_map as.get order (fun i j => Eq.refl (made i j)) places
  calc stableSort? order as
      = (stableSort? made places).map (List.map as.get) := by rw [← hmap, has]
    _ = some ((sortBy made places).map as.get) := by rw [hsorted, hsame, Option.map_some]
    _ = some (sortBy order as) := by rw [← sortBy_map, has]

end SelectLang
