/-
# Merges of a transitive order

Places that differ are sorted here: the one leads the other if its element is smaller, or level with the
other's and earlier. Where the order is transitive this is a strict order, and a list that is sorted by it is
determined by its places. So the merges from the front, from the back and from both ends come to the same,
and the last does not give up: what it takes from the front of a half and what it takes from its back are the
places of the half among the lower and among the upper half of all.

Key definitions: `Leads`.
Key theorems: `leads_trans`, `pairwise_merge_of`, `eq_of_leads`, `mergeEnds?_eq`, `exists_sortHalves?`.
-/
import Mathlib
import SelectLang.Proofs.Sort.Images
import SelectLang.Proofs.Sort.Moving

namespace SelectLang

/-! ### Merging by a strict order -/

section

variable {α : Type} {before : α → α → Bool}

/-- Merging keeps an order if it is what the elements of the two lists are compared by. -/
theorem pairwise_merge_of {R : α → α → Prop} [IsTrans α R] : ∀ {as bs : List α}, as.Pairwise R →
    bs.Pairwise R → (∀ a ∈ as, ∀ b ∈ bs, if before a b then R a b else R b a) →
      (as.merge bs before).Pairwise R
  | [], bs, _, hbs, _ => by rwa [List.nil_merge]
  | a :: as, [], has, _, _ => by simpa only [List.merge] using has
  | a :: as, b :: bs, has, hbs, hboth => by
    obtain ⟨ha, has'⟩ := List.pairwise_cons.mp has
    obtain ⟨hb, hbs'⟩ := List.pairwise_cons.mp hbs
    have hab := hboth a List.mem_cons_self b List.mem_cons_self
    rw [List.cons_merge_cons]
    split
    · rename_i hstays
      rw [if_pos hstays] at hab
      refine List.pairwise_cons.mpr ⟨fun c hc => ?_, pairwise_merge_of has' hbs fun c hc =>
        hboth c (List.mem_cons_of_mem a hc)⟩
      rcases List.mem_merge.mp hc with hc | hc
      · exact ha c hc
      · rcases List.mem_cons.mp hc with rfl | hc
        · exact hab
        · exact IsTrans.trans _ _ _ hab (hb c hc)
    · rename_i hgoes
      rw [if_neg hgoes] at hab
      refine List.pairwise_cons.mpr ⟨fun c hc => ?_, pairwise_merge_of has hbs' fun c hc d hd =>
        hboth c hc d (List.mem_cons_of_mem b hd)⟩
      rcases List.mem_merge.mp hc with hc | hc
      · rcases List.mem_cons.mp hc with rfl | hc
        · exact hab
        · exact IsTrans.trans _ _ _ hab (ha c hc)
      · exact hb c hc
termination_by as bs => as.length + bs.length

/-! ### Merging step by step -/

/-- The steps are the first of a merge. -/
theorem merge_eq_mergeSteps (before : α → α → Bool) (count : Nat) (as bs : List α) : as.merge bs before =
    (mergeSteps before count as bs).1 ++
      (mergeSteps before count as bs).2.1.merge (mergeSteps before count as bs).2.2 before := by
  fun_induction mergeSteps before count as bs with
  | case1 count a as b bs hstays taken restAs restBs hsteps ih =>
    rw [hsteps] at ih
    rw [List.cons_merge_cons, if_pos hstays, ih]
    rfl
  | case2 count a as b bs hgoes taken restAs restBs hsteps ih =>
    rw [hsteps] at ih
    rw [List.cons_merge_cons, if_neg hgoes, ih]
    rfl
  | case3 => rfl

/-- As many elements are taken as are to be, if there are so many in each of the lists. -/
theorem length_mergeSteps (before : α → α → Bool) {count : Nat} {as bs : List α} (has : count ≤ as.length)
    (hbs : count ≤ bs.length) : (mergeSteps before count as bs).1.length = count := by
  fun_induction mergeSteps before count as bs with
  | case1 count a as b bs hstays taken restAs restBs hsteps ih =>
    rw [hsteps] at ih
    exact congrArg (· + 1) (ih (Nat.le_of_succ_le_succ has) ((Nat.le_succ count).trans hbs))
  | case2 count a as b bs hgoes taken restAs restBs hsteps ih =>
    rw [hsteps] at ih
    exact congrArg (· + 1) (ih ((Nat.le_succ count).trans has) (Nat.le_of_succ_le_succ hbs))
  | case3 count as bs hnone =>
    cases count with
    | zero => rfl
    | succ count =>
      obtain ⟨a, more, rfl⟩ := List.exists_cons_of_length_pos (Nat.lt_of_succ_le has |>.pos)
      obtain ⟨b, others, rfl⟩ := List.exists_cons_of_length_pos (Nat.lt_of_succ_le hbs |>.pos)
      exact (hnone count a more b others rfl rfl rfl).elim

/-- The elements of two lists are told apart, and counted where they are moved to. -/
theorem countP_of_perm {p q : α → Bool} {as bs cs : List α} (has : ∀ a ∈ as, p a = true ∧ q a = false)
    (hbs : ∀ b ∈ bs, p b = false ∧ q b = true) (hperm : cs.Perm (as ++ bs)) :
    cs.countP p = as.length ∧ cs.countP q = bs.length := by
  rw [hperm.countP_eq, hperm.countP_eq, List.countP_append, List.countP_append,
    List.countP_eq_length.mpr fun a ha => (has a ha).1, List.countP_eq_length.mpr fun b hb => (hbs b hb).2,
    List.countP_eq_zero.mpr fun b hb => Bool.eq_false_iff.mp (hbs b hb).1,
    List.countP_eq_zero.mpr fun a ha => Bool.eq_false_iff.mp (has a ha).2]
  exact ⟨Nat.add_zero _, Nat.zero_add _⟩

/-- What is taken is of the one list or of the other, and with what is left makes up the lists. -/
theorem length_rests (before : α → α → Bool) (count : Nat) {p q : α → Bool} {as bs : List α}
    (has : ∀ a ∈ as, p a = true ∧ q a = false) (hbs : ∀ b ∈ bs, p b = false ∧ q b = true) :
    let steps := mergeSteps before count as bs
    steps.2.1.length + steps.1.countP p = as.length ∧ steps.2.2.length + steps.1.countP q = bs.length ∧
      steps.1.countP p + steps.1.countP q = steps.1.length := by
  obtain ⟨frontAs, frontBs, hrestAs, hrestBs, hperm⟩ := exists_fronts_of_mergeSteps before count as bs
  obtain ⟨hp, hq⟩ := countP_of_perm (fun a ha => has a (hrestAs ▸ List.mem_append_left _ ha))
    (fun b hb => hbs b (hrestBs ▸ List.mem_append_left _ hb)) hperm
  have hlengthAs := congrArg List.length hrestAs
  have hlengthBs := congrArg List.length hrestBs
  have hlength := hperm.length_eq
  rw [List.length_append] at hlengthAs hlengthBs hlength
  dsimp only
  omega

/-- What was taken is put together, if as many elements of each list are left at both ends as are at the other
end taken, and if the list is the one that the middle place is for, one more. -/
theorem exists_meetEnds? (as bs : List α) (front back : List α × List α × List α) {m n : Nat}
    (has : front.2.1.length + back.2.2.length = as.length + m)
    (hbs : front.2.2.length + back.2.1.length = bs.length + n)
    (hmiddle : m + n = (as.length + bs.length) % 2) (hfewAs : back.2.2.length ≤ as.length)
    (hfewBs : back.2.1.length ≤ bs.length) :
    ∃ middle, meetEnds? as bs front back = some (front.1 ++ middle ++ back.1.reverse) := by
  obtain ⟨front, restAs, restBs⟩ := front
  obtain ⟨back, othersBs, othersAs⟩ := back
  simp only at has hbs hfewAs hfewBs
  rw [meetEnds?]
  by_cases heven : (as.length + bs.length) % 2 = 0
  · refine ⟨[], ?_⟩
    have hmet : restAs.length + othersAs.length = as.length ∧ restBs.length + othersBs.length = bs.length := by
      omega
    simp only [if_pos heven, if_pos hmet]
  · by_cases hleft : as.length < restAs.length + othersAs.length
    · refine ⟨restAs.take 1, ?_⟩
      have hmet : (restAs.drop 1).length + othersAs.length = as.length ∧
          restBs.length + othersBs.length = bs.length := by
        rw [List.length_drop]
        omega
      simp only [if_neg heven, if_pos hleft, if_pos hmet]
    · refine ⟨restBs.take 1, ?_⟩
      have hmet : restAs.length + othersAs.length = as.length ∧
          (restBs.drop 1).length + othersBs.length = bs.length := by
        rw [List.length_drop]
        omega
      simp only [if_neg heven, if_neg hleft, if_pos hmet]

/-- A front and a back of a list that is long enough leave a middle. -/
theorem exists_middle {as front rest others back : List α} (hfront : as = front ++ rest)
    (hback : as = others ++ back) (hlength : front.length + back.length ≤ as.length) :
    ∃ middle, as = front ++ middle ++ back := by
  rw [hfront] at hback
  rcases List.append_eq_append_iff.mp hback with ⟨middle, -, rfl⟩ | ⟨more, -, hmore⟩
  · exact ⟨middle, by rw [hfront, List.append_assoc]⟩
  · have hnone : more = [] := by
      rw [hfront, hmore, List.length_append, List.length_append] at hlength
      exact List.eq_nil_of_length_eq_zero (by omega)
    exact ⟨[], by rw [hfront, hmore, hnone, List.append_nil, List.nil_append]⟩

/-- The only places between a front and a back are the middle, if it is at most one. -/
theorem eq_of_middle_perm {front middle others back : List α} (hfew : middle.length ≤ 1)
    (h : (front ++ others ++ back).Perm (front ++ middle ++ back)) : others = middle := by
  have hperm : others.Perm middle :=
    (List.perm_append_left_iff front).mp ((List.perm_append_right_iff back).mp h)
  match middle, hfew with
  | [], _ => exact hperm.eq_nil
  | [_], _ => exact List.perm_singleton.mp hperm

end

/-! ### Places -/

section

variable {α : Type} {order : α → α → Ordering} [Std.TransCmp order]

variable (order) in
theorem order_swap (a b : α) : order a b = (order b a).swap := Std.OrientedCmp.eq_swap

theorem order_trans {a b c : α} (hab : order a b ≠ .gt) (hbc : order b c ≠ .gt) : order a c ≠ .gt :=
  Ordering.isLE_iff_ne_gt.mp (Std.TransCmp.isLE_trans (Ordering.isLE_iff_ne_gt.mpr hab)
    (Ordering.isLE_iff_ne_gt.mpr hbc))

end

section

variable {ι : Type} [LinearOrder ι]

/-- The element of the one place is smaller, or level with that of the other and earlier. -/
abbrev Leads (order : ι → ι → Ordering) : ι → ι → Prop := ComesBefore order (· < ·)

variable {order : ι → ι → Ordering} [Std.TransCmp order]

theorem leads_trans {a b c : ι} (hab : Leads order a b) (hbc : Leads order b c) : Leads order a c := by
  rcases hab with hab | ⟨hab, hplaces⟩ <;> rcases hbc with hbc | ⟨hbc, hplaces'⟩
  · exact .inl (Std.TransCmp.lt_trans hab hbc)
  · exact .inl (Std.TransCmp.lt_of_lt_of_eq hab hbc)
  · exact .inl (Std.TransCmp.lt_of_eq_of_lt hab hbc)
  · exact .inr ⟨Std.TransCmp.eq_trans hab hbc, hplaces.trans hplaces'⟩

instance : IsTrans ι (Leads order) := ⟨fun _ _ _ => leads_trans⟩

theorem Leads.not_leads {a b : ι} (h : Leads order a b) : ¬ Leads order b a := by
  rintro (hba | ⟨hba, hplaces⟩) <;> rcases h with hab | ⟨hab, hplaces'⟩ <;>
    rw [order_swap order, hba] at hab <;> cases hab
  exact lt_asymm hplaces hplaces'

/-- A place that is earlier leads, if the other's element is not smaller. -/
theorem leads_of_lt {a b : ι} (hplaces : a < b) (h : order b a ≠ .lt) : Leads order a b :=
  comesBefore_of_ne_gt (fun hgt => h (Std.OrientedCmp.gt_iff_lt.mp hgt)) hplaces

/-- What a merge compares by is which of two places leads. -/
theorem leads_of_stays {a b : ι} (hplaces : a < b) :
    if staysBefore order a b then Leads order a b else Leads order b a := by
  split
  · rename_i hstays
    exact leads_of_lt hplaces (bne_iff_ne.mp hstays)
  · rename_i hgoes
    exact .inl (not_ne_iff.mp fun h => hgoes (bne_iff_ne.mpr h))

/-- A list that is sorted is determined by its places. -/
theorem eq_of_leads {as bs : List ι} (has : as.Pairwise (Leads order)) (hbs : bs.Pairwise (Leads order))
    (hperm : as.Perm bs) : as = bs :=
  hperm.eq_of_pairwise (fun _ _ _ _ hab hba => absurd hba hab.not_leads) has hbs

/-! ### Merges -/

section

variable {as bs : List ι} (has : as.Pairwise (Leads order)) (hbs : bs.Pairwise (Leads order))
  (hplaces : ∀ a ∈ as, ∀ b ∈ bs, a < b)
include has hbs hplaces

theorem leads_mergeUp : (mergeUp order as bs).Pairwise (Leads order) :=
  pairwise_merge_of has hbs fun a ha b hb => leads_of_stays (hplaces a ha b hb)

theorem leads_mergeDown : (mergeDown order as bs).Pairwise (Leads order) := by
  have : IsTrans ι fun b a => Leads order a b := ⟨fun _ _ _ hab hbc => leads_trans hbc hab⟩
  refine List.pairwise_reverse.mpr (pairwise_merge_of (List.pairwise_reverse.mpr hbs)
    (List.pairwise_reverse.mpr has) fun b hb a ha => ?_)
  exact leads_of_stays (hplaces a (List.mem_reverse.mp ha) b (List.mem_reverse.mp hb))

theorem mergeDown_eq : mergeDown order as bs = mergeUp order as bs :=
  eq_of_leads (leads_mergeDown has hbs hplaces) (leads_mergeUp has hbs hplaces)
    ((mergeDown_perm order as bs).trans (mergeUp_perm order as bs).symm)

theorem leads_mergeRuns : (mergeRuns order as bs).Pairwise (Leads order) := by
  rw [mergeRuns]
  split
  · exact leads_mergeUp has hbs hplaces
  · exact leads_mergeDown has hbs hplaces

/-- What is taken from the front and from the back, as many elements each as the left list has, are the two ends
of the merged list. -/
theorem exists_middle_of_ends (hle : as.length ≤ bs.length) :
    ∃ middle, mergeUp order as bs = (mergeSteps (staysBefore order) as.length as bs).1 ++ middle ++
      (mergeSteps (fun b a => staysBefore order a b) as.length bs.reverse as.reverse).1.reverse := by
  have hup : mergeUp order as bs = _ := merge_eq_mergeSteps (staysBefore order) as.length as bs
  have hdown : mergeDown order as bs = _ := congrArg List.reverse
    (merge_eq_mergeSteps (fun b a => staysBefore order a b) as.length bs.reverse as.reverse)
  rw [mergeDown_eq has hbs hplaces, List.reverse_append] at hdown
  have hfront := length_mergeSteps (staysBefore order) le_rfl hle
  have hback := length_mergeSteps (fun b a => staysBefore order a b) (hle.trans_eq List.length_reverse.symm)
    List.length_reverse.ge
  refine exists_middle hup hdown ?_
  rw [List.length_reverse, hfront, hback, (mergeUp_perm order as bs).length_eq, List.length_append]
  exact Nat.add_le_add_left hle _

/-- Merging from both ends does not give up, and comes to merging from the front. -/
theorem mergeEnds?_eq (hle : as.length ≤ bs.length) (hlt : bs.length ≤ as.length + 1) :
    mergeEnds? order as bs = some (mergeUp order as bs) := by
  have htoldAs : ∀ a ∈ as, decide (a ∈ as) = true ∧ decide (a ∈ bs) = false := fun a ha =>
    ⟨decide_eq_true ha, decide_eq_false fun hb => (hplaces a ha a hb).false⟩
  have htoldBs : ∀ b ∈ bs, decide (b ∈ as) = false ∧ decide (b ∈ bs) = true := fun b hb =>
    ⟨decide_eq_false fun ha => (hplaces b ha b hb).false, decide_eq_true hb⟩
  have hhalf : (as.length + bs.length) / 2 = as.length := by omega
  have hends : mergeEnds? order as bs = meetEnds? as bs (mergeSteps (staysBefore order) as.length as bs)
      (mergeSteps (fun b a => staysBefore order a b) as.length bs.reverse as.reverse) := by
    rw [mergeEnds?, hhalf]
  -- what is taken at either end, and what is left there
  obtain ⟨middle, hmiddle⟩ := exists_middle_of_ends has hbs hplaces hle
  have hfront := length_mergeSteps (staysBefore order) le_rfl hle
  have hback := length_mergeSteps (fun b a => staysBefore order a b) (hle.trans_eq List.length_reverse.symm)
    List.length_reverse.ge
  have hrests := length_rests (staysBefore order) as.length htoldAs htoldBs
  have hothers := length_rests (fun b a => staysBefore order a b) as.length
    (fun b hb => (htoldBs b (List.mem_reverse.mp hb)).symm)
    fun a ha => (htoldAs a (List.mem_reverse.mp ha)).symm
  generalize mergeSteps (staysBefore order) as.length as bs = front at hends hmiddle hfront hrests
  generalize mergeSteps _ as.length bs.reverse as.reverse = back at hends hmiddle hback hothers
  dsimp only at hrests hothers
  rw [List.length_reverse, List.length_reverse] at hothers
  -- how many elements of each list are in the middle
  have hperm := mergeUp_perm order as bs
  obtain ⟨hcountAs, hcountBs⟩ := countP_of_perm htoldAs htoldBs hperm
  have hlength := hperm.length_eq
  rw [hmiddle] at hcountAs hcountBs hlength
  simp only [List.countP_append, List.countP_reverse, List.length_append, List.length_reverse]
    at hcountAs hcountBs hlength
  obtain ⟨others, hmet⟩ := exists_meetEnds? as bs front back (m := middle.countP fun x => decide (x ∈ as))
    (n := middle.countP fun x => decide (x ∈ bs)) (by omega) (by omega) (by omega) (by omega) (by omega)
  have hall := mergeEnds?_perm (hends.trans hmet)
  rw [hends, hmet, hmiddle, eq_of_middle_perm (by omega) (hall.trans (hmiddle ▸ hperm.symm))]

end

/-! ### Short lists -/

theorem leads_sortBy {as : List ι} (h : as.Pairwise (· < ·)) : (sortBy order as).Pairwise (Leads order) :=
  pairwise_sortBy (order_swap order) (fun _ _ _ _ _ _ => order_trans) h

/-- Two places that come in their order, or of which the first leads, are put in order. -/
theorem leads_sortTwo {a b : ι} (h : a < b ∨ Leads order a b) :
    Leads order (sortTwo order a b).1 (sortTwo order a b).2 := by
  rcases sortTwo_cases order a b with ⟨hlt, htwo⟩ | ⟨hge, htwo⟩ <;> rw [htwo]
  · exact .inl hlt
  · rcases h with h | h
    · exact leads_of_lt h hge
    · exact h

/-- Two places between two others are put in order between them. -/
theorem pairwise_sortTwo {least a b greatest : ι} (h : a < b ∨ Leads order a b)
    (ha : Leads order least a) (hb : Leads order least b) (ha' : Leads order a greatest)
    (hb' : Leads order b greatest) :
    [least, (sortTwo order a b).1, (sortTwo order a b).2, greatest].Pairwise (Leads order) := by
  have hboth := leads_sortTwo h
  rw [← List.isChain_iff_pairwise]
  rcases sortTwo_cases order a b with ⟨-, htwo⟩ | ⟨-, htwo⟩ <;> rw [htwo] at hboth ⊢
  · exact .cons_cons hb (.cons_cons hboth (.cons_cons ha' (.singleton _)))
  · exact .cons_cons ha (.cons_cons hboth (.cons_cons hb' (.singleton _)))

theorem leads_sortFour {a b c d : ι} (h : [a, b, c, d].Pairwise (· < ·)) :
    (sortFour order a b c d).Pairwise (Leads order) := by
  simp only [List.pairwise_cons, List.mem_cons, List.not_mem_nil, or_false, forall_eq_or_imp,
    forall_eq] at h
  obtain ⟨⟨hab, hac, had⟩, ⟨hbc, hbd⟩, hcd, -⟩ := h
  have hfirst : Leads order (sortTwo order a b).1 (sortTwo order a b).2 := leads_sortTwo (.inl hab)
  have hsecond : Leads order (sortTwo order c d).1 (sortTwo order c d).2 := leads_sortTwo (.inl hcd)
  -- the places of the first pair are before those of the second, whichever leads in either
  have hplaces : ∀ x ∈ [(sortTwo order a b).1, (sortTwo order a b).2],
      ∀ y ∈ [(sortTwo order c d).1, (sortTwo order c d).2], x < y := by
    intro x hx y hy
    rw [(sortTwo_perm order a b []).mem_iff] at hx
    rw [(sortTwo_perm order c d []).mem_iff] at hy
    simp only [List.mem_cons, List.not_mem_nil, or_false] at hx hy
    rcases hx with rfl | rfl <;> rcases hy with rfl | rfl <;> assumption
  simp only [sortFour]
  generalize sortTwo order a b = first at *
  generalize sortTwo order c d = second at *
  obtain ⟨a, b⟩ := first
  obtain ⟨c, d⟩ := second
  simp only [List.forall_mem_cons, List.not_mem_nil, false_implies, implies_true, and_true] at hplaces
  obtain ⟨⟨hac, had⟩, hbc, hbd⟩ := hplaces
  by_cases hca : order c a = .lt <;> by_cases hdb : order d b = .lt
  · rw [if_pos hca, if_pos hdb]
    exact pairwise_sortTwo (.inl had) (.inl hca) hsecond hfirst (.inl hdb)
  · rw [if_pos hca, if_neg hdb]
    exact pairwise_sortTwo (.inr hfirst) (.inl hca) (leads_trans (.inl hca) hfirst)
      (leads_trans hfirst (leads_of_lt hbd hdb)) (leads_of_lt hbd hdb)
  · rw [if_neg hca, if_pos hdb]
    exact pairwise_sortTwo (.inr hsecond) (leads_of_lt hac hca) (leads_trans (leads_of_lt hac hca) hsecond)
      (leads_trans hsecond (.inl hdb)) (.inl hdb)
  · rw [if_neg hca, if_neg hdb]
    exact pairwise_sortTwo (.inl hbc) hfirst (leads_of_lt hac hca) (leads_of_lt hbd hdb) hsecond

theorem leads_sortHalf (long : Bool) {as : List ι} (h : as.Pairwise (· < ·)) :
    (sortHalf order long as).Pairwise (Leads order) := by
  match as, h with
  | [], h => exact leads_sortBy h
  | [_], h => exact leads_sortBy h
  | [_, _], h => exact leads_sortBy h
  | [_, _, _], h => exact leads_sortBy h
  | a :: b :: c :: d :: rest, h =>
    rw [sortHalf]
    split
    · have hparts : ([a, b, c, d] ++ rest).Pairwise (· < ·) := h
      obtain ⟨hfour, hrest, hplaces⟩ := List.pairwise_append.mp hparts
      refine List.pairwise_reverse.mpr (falls_foldl (order_swap order) (fun _ _ _ _ _ _ => order_trans) hrest
        (fun x hx y hy => hplaces x ?_ y hy) (List.pairwise_reverse.mpr ?_))
      · exact (sortFour_perm a b c d).mem_iff.mp (List.mem_reverse.mp hx)
      · exact leads_sortFour hfour
    · exact leads_sortBy h

theorem exists_mergeHalves (long : Bool) {as : List ι} (h : as.Pairwise (· < ·)) :
    ∃ bs, mergeEnds? order (sortHalf order long (as.take (as.length / 2)))
      (sortHalf order long (as.drop (as.length / 2))) = some bs ∧ bs.Pairwise (Leads order) := by
  have hparts : (as.take (as.length / 2) ++ as.drop (as.length / 2)).Pairwise (· < ·) := by
    rwa [List.take_append_drop]
  obtain ⟨htake, hdrop, hplaces⟩ := List.pairwise_append.mp hparts
  have hleft : (sortHalf order long _).Pairwise _ := leads_sortHalf long htake
  have hright : (sortHalf order long _).Pairwise _ := leads_sortHalf long hdrop
  have hpermLeft := sortHalf_perm order long (as.take (as.length / 2))
  have hpermRight := sortHalf_perm order long (as.drop (as.length / 2))
  have hacross : ∀ a ∈ sortHalf order long (as.take (as.length / 2)),
      ∀ b ∈ sortHalf order long (as.drop (as.length / 2)), a < b :=
    fun a ha b hb => hplaces a (hpermLeft.mem_iff.mp ha) b (hpermRight.mem_iff.mp hb)
  have hlengthLeft := hpermLeft.length_eq
  have hlengthRight := hpermRight.length_eq
  rw [List.length_take] at hlengthLeft
  rw [List.length_drop] at hlengthRight
  exact ⟨_, mergeEnds?_eq hleft hright hacross (by omega) (by omega), leads_mergeUp hleft hright hacross⟩

variable (order) in
/-- A short list is sorted by its halves. -/
theorem exists_sortHalves? {as : List ι} (h : as.Pairwise (· < ·)) :
    ∃ bs, sortHalves? order as = some bs ∧ bs.Pairwise (Leads order) :=
  exists_mergeHalves (decide (8 ≤ as.length)) h

end

end SelectLang
