/-
# Runs stand for stretches

While the runs of a list are joined, those on the stack, the one in hand and those to come stand, one after
the other, for the stretches that make up the list. To join two neighbours keeps that, if what the joined run
stands for is what the two stood for, one after the other. How deep the seams lie does not matter: it decides
which runs are joined first, and the last round leaves none on the stack.

What a list is sorted to is a relation here, so that one walk over the runs serves whatever is to be shown of
the sort. If the relation holds of what each step does by itself, it holds of the whole.

Key definitions: `Run.Stands`, `Spread`, `KeptByRuns`.
Key theorems: `KeptByRuns.runs?`, `KeptByRuns.joinBack?`, `KeptByRuns.joinAll?`, `KeptByRuns.sortByRuns?`,
`isSome_sortByRuns?`.
-/
import Mathlib
import SelectLang.Sort.Runs

namespace SelectLang

variable {α : Type} {order : α → α → Ordering}

/-! ### Runs that are cut -/

theorem runLength_le (goesOn : α → α → Bool) : ∀ as : List α, runLength goesOn as ≤ as.length
  | [] => le_rfl
  | [_] => le_rfl
  | a :: b :: rest => by
    have ih := runLength_le goesOn (b :: rest)
    rw [runLength]
    split
    · exact Nat.succ_le_succ ih
    · exact Nat.succ_le_succ (Nat.zero_le _)

theorem runLength_pos (goesOn : α → α → Bool) : ∀ as : List α, as ≠ [] → 0 < runLength goesOn as
  | [], h => absurd rfl h
  | [_], _ => Nat.one_pos
  | a :: b :: rest, _ => by
    rw [runLength]
    split <;> exact Nat.succ_pos _

/-- Every step goes on. -/
theorem isChain_runLength (goesOn : α → α → Bool) : ∀ as : List α,
    (as.take (runLength goesOn as)).IsChain fun a b => goesOn a b = true
  | [] => .nil
  | [a] => .singleton a
  | a :: b :: rest => by
    have ih := isChain_runLength goesOn (b :: rest)
    obtain ⟨n, hn⟩ := Nat.exists_eq_succ_of_ne_zero (runLength_pos goesOn (b :: rest) nofun).ne'
    rw [runLength]
    split
    · rename_i h
      rw [hn, List.take_succ_cons] at ih
      rw [hn, List.take_succ_cons, List.take_succ_cons]
      exact .cons_cons h ih
    · exact .singleton a

theorem naturalLength_pos (order : α → α → Ordering) {as : List α} (h : as ≠ []) :
    0 < naturalLength order as := runLength_pos _ as h

theorem length_take_naturalLength (order : α → α → Ordering) (as : List α) :
    (as.take (naturalLength order as)).length = naturalLength order as :=
  List.length_take_of_le (runLength_le _ as)

theorem length_take_pos {as : List α} {n : Nat} (hn : 0 < n) (hne : as ≠ []) : 0 < (as.take n).length := by
  rw [List.length_take]
  exact lt_min hn (List.length_pos_of_ne_nil hne)

theorem take_length_take (as : List α) (n : Nat) : as.take (as.take n).length = as.take n := by
  rw [List.length_take, ← List.take_eq_take_min]

/-- Where there is no first run, nothing is sorted. -/
theorem sortByRuns?_eq_none {finish : List α → Option (List α)} {room : Nat} {eager : Bool} {as : List α}
    (hne : as ≠ []) (h : nextRun? order eager (goodLength as.length) as = none) :
    sortByRuns? order finish room eager as = none := by
  obtain ⟨a, rest, rfl⟩ := List.exists_cons_of_ne_nil hne
  rw [sortByRuns?, runs?, h]

/-! ### What runs stand for -/

section

variable (Sorts : List α → List α → Prop) (eager : Bool)

/-- A run stands for a stretch that is sorted to it, or that waits to be sorted. No run waits where
stretches are sorted at once. -/
inductive Run.Stands : Run α → List α → Prop
  | sorted {as bs : List α} : Sorts as bs → Run.Stands ⟨bs, true⟩ as
  | waiting {as : List α} : eager = false → Run.Stands ⟨as, false⟩ as

/-- The runs stand, one after the other, for the stretches of a list. -/
def Spread : List (Run α) → List α → Prop
  | [], as => as = []
  | run :: runs, as =>
    ∃ front back, as = front ++ back ∧ run.Stands Sorts eager front ∧ Spread runs back

/-- What the steps of a sort by runs do by themselves is as the relation says. -/
structure KeptByRuns (order : α → α → Ordering) (finish : List α → Option (List α)) : Prop where
  nil : Sorts [] []
  ascending : ∀ as, falls order as = false →
    Sorts (as.take (naturalLength order as)) (as.take (naturalLength order as))
  falling : ∀ as, falls order as = true →
    Sorts (as.take (naturalLength order as)) (as.take (naturalLength order as)).reverse
  halves : ∀ as bs, sortHalves? order as = some bs → bs.length = as.length ∧ Sorts as bs
  finished : eager = false → ∀ as bs, finish as = some bs → Sorts as bs
  merged : ∀ as bs more others, Sorts as bs → Sorts more others →
    Sorts (as ++ more) (mergeRuns order bs others)

end

variable {Sorts : List α → List α → Prop} {eager : Bool} {finish : List α → Option (List α)} {room : Nat}

namespace KeptByRuns

variable (h : KeptByRuns Sorts eager order finish)
include h

/-! ### Cutting -/

/-- The first run is not empty, and stands for as many elements as it has. -/
theorem nextRun? {good : Nat} {as : List α} {run : Run α} (hne : as ≠ [])
    (hrun : SelectLang.nextRun? order eager good as = some run) :
    0 < run.items.length ∧ run.Stands Sorts eager (as.take run.items.length) := by
  have hpos := naturalLength_pos order hne
  have hlength := length_take_naturalLength order as
  simp only [SelectLang.nextRun?] at hrun
  split at hrun
  · cases hrun
    cases hfalls : falls order as with
    | false =>
      rw [if_neg Bool.false_ne_true, hlength]
      exact ⟨hpos, .sorted (h.ascending as hfalls)⟩
    | true =>
      rw [if_pos rfl, List.length_reverse, hlength]
      exact ⟨hpos, .sorted (h.falling as hfalls)⟩
  · rename_i hgood
    split at hrun
    · obtain ⟨bs, hbs, rfl⟩ := Option.map_eq_some_iff.mp hrun
      obtain ⟨hlength, hsorts⟩ := h.halves _ _ hbs
      rw [hlength, take_length_take]
      exact ⟨length_take_pos (by decide) hne, .sorted hsorts⟩
    · rename_i heager
      cases hrun
      rw [take_length_take]
      exact ⟨length_take_pos (hpos.trans (not_le.mp hgood)) hne, .waiting (Bool.not_eq_true _ ▸ heager)⟩

theorem runs? {good : Nat} (as : List α) : ∀ {runs : List (Run α)},
    SelectLang.runs? order eager good as = some runs → Spread Sorts eager runs as := by
  induction as using runs?.induct order eager good with
  | case1 =>
    intro runs hruns
    rw [SelectLang.runs?] at hruns
    cases hruns
    rfl
  | case2 a rest hnone =>
    intro runs hruns
    rw [SelectLang.runs?, hnone] at hruns
    cases hruns
  | case3 a rest run hrun ih =>
    intro runs hruns
    rw [SelectLang.runs?, hrun] at hruns
    obtain ⟨more, hmore, rfl⟩ := Option.map_eq_some_iff.mp hruns
    obtain ⟨hpos, hstands⟩ := h.nextRun? (List.cons_ne_nil a rest) hrun
    -- the recursion drops one less from behind the first element
    have hdrop : rest.drop (run.items.length - 1) = (a :: rest).drop run.items.length := by
      conv_rhs => rw [← Nat.succ_pred_eq_of_pos hpos, List.drop_succ_cons]
      rfl
    exact ⟨_, _, (List.take_append_drop _ _).symm, hstands, hdrop ▸ ih hmore⟩

/-! ### Joining -/

theorem settle? {run : Run α} {as bs : List α} (hrun : run.Stands Sorts eager as)
    (hbs : run.settle? finish = some bs) : Sorts as bs := by
  cases hrun with
  | sorted hsorts =>
    cases hbs
    exact hsorts
  | waiting heager => exact h.finished heager _ _ hbs

theorem joinRuns? {left right run : Run α} {as bs : List α} (hleft : left.Stands Sorts eager as)
    (hright : right.Stands Sorts eager bs)
    (hrun : SelectLang.joinRuns? order finish room left right = some run) :
    run.Stands Sorts eager (as ++ bs) := by
  rw [SelectLang.joinRuns?] at hrun
  split at hrun
  · rename_i hwait
    cases hrun
    cases hleft with
    | sorted => cases hwait.2.1
    | waiting heager =>
      cases hright with
      | sorted => cases hwait.2.2
      | waiting => exact .waiting heager
  · split at hrun
    · rename_i lefts rights hlefts hrights
      cases hrun
      exact .sorted (h.merged _ _ _ _ (h.settle? hleft hlefts) (h.settle? hright hrights))
    · cases hrun

end KeptByRuns

/-- Two neighbours may be replaced by one run that stands for both. -/
theorem Spread.join {left right run : Run α} (hjoin : ∀ as bs, left.Stands Sorts eager as →
      right.Stands Sorts eager bs → run.Stands Sorts eager (as ++ bs)) :
    ∀ {front back : List (Run α)} {as : List α}, Spread Sorts eager (front ++ left :: right :: back) as →
      Spread Sorts eager (front ++ run :: back) as
  | [], _, _, h => by
    obtain ⟨as, _, rfl, hleft, bs, rest, rfl, hright, hrest⟩ := h
    exact ⟨as ++ bs, rest, (List.append_assoc _ _ _).symm, hjoin as bs hleft hright, hrest⟩
  | _ :: _, _, _, h => by
    obtain ⟨as, rest, rfl, hfirst, hrest⟩ := h
    exact ⟨as, rest, rfl, hfirst, hrest.join hjoin⟩

/-- The runs on a stack, in the order of the list. -/
def stackedRuns (stack : List (Run α × Nat)) : List (Run α) := (stack.map Prod.fst).reverse

theorem stackedRuns_cons (run : Run α) (seam : Nat) (stack : List (Run α × Nat)) (runs : List (Run α)) :
    stackedRuns ((run, seam) :: stack) ++ runs = stackedRuns stack ++ run :: runs := by
  rw [stackedRuns, List.map_cons, List.reverse_cons, List.append_assoc]
  rfl

/-- No seam is less deep than the last round asks for. -/
theorem joinBack?_zero : ∀ {stack rest : List (Run α × Nat)} {run joined : Run α},
    joinBack? order finish room 0 stack run = some (rest, joined) → rest = []
  | [], _, _, _, h => by
    cases h
    rfl
  | (left, seam) :: stack, _, run, _, h => by
    rw [joinBack?, if_pos (Nat.zero_le seam)] at h
    split at h
    · cases h
    · exact joinBack?_zero h

namespace KeptByRuns

variable (h : KeptByRuns Sorts eager order finish)
include h

/-- A round of joining runs with those on the stack keeps what the runs stand for. -/
theorem joinBack? {depth : Nat} {runs : List (Run α)} {as : List α} :
    ∀ {stack rest : List (Run α × Nat)} {run joined : Run α},
      SelectLang.joinBack? order finish room depth stack run = some (rest, joined) →
        Spread Sorts eager (stackedRuns stack ++ run :: runs) as →
          Spread Sorts eager (stackedRuns rest ++ joined :: runs) as
  | [], _, _, _, hjoined, hspread => by
    cases hjoined
    exact hspread
  | (left, seam) :: stack, _, run, _, hjoined, hspread => by
    rw [SelectLang.joinBack?] at hjoined
    split at hjoined
    · split at hjoined
      · cases hjoined
      · rename_i both hboth
        rw [stackedRuns_cons] at hspread
        exact joinBack? hjoined (hspread.join fun _ _ hleft hrun => h.joinRuns? hleft hrun hboth)
    · cases hjoined
      exact hspread

/-- All runs are joined to one that stands for the list. -/
theorem joinAll? {n : Nat} {as : List α} : ∀ {runs : List (Run α)} {stack : List (Run α × Nat)}
    {run whole : Run α} {scanned : Nat},
      SelectLang.joinAll? order finish room n stack run scanned runs = some whole →
        Spread Sorts eager (stackedRuns stack ++ run :: runs) as → whole.Stands Sorts eager as
  | [], stack, run, _, _, hwhole, hspread => by
    obtain ⟨⟨rest, whole⟩, hjoined, rfl⟩ := Option.map_eq_some_iff.mp hwhole
    have hone := h.joinBack? hjoined hspread
    rw [joinBack?_zero hjoined] at hone
    obtain ⟨as, _, rfl, hstands, rfl⟩ := hone
    rwa [List.append_nil]
  | next :: runs, stack, run, scanned, _, hwhole, hspread => by
    simp only [SelectLang.joinAll?] at hwhole
    split at hwhole
    · cases hwhole
    · rename_i rest joined hjoined
      exact joinAll? hwhole ((stackedRuns_cons joined _ rest (next :: runs)) ▸
        h.joinBack? hjoined hspread)

/-- What a sort by runs returns is as the relation says. -/
theorem sortByRuns? {as bs : List α}
    (hbs : SelectLang.sortByRuns? order finish room eager as = some bs) : Sorts as bs := by
  rw [SelectLang.sortByRuns?] at hbs
  split at hbs
  · cases hbs
  · rename_i hruns
    cases hbs
    have hspread := h.runs? as hruns
    cases hspread
    exact h.nil
  · rename_i run runs hruns
    split at hbs
    · cases hbs
    · rename_i whole hwhole
      exact h.settle? (h.joinAll? hwhole (h.runs? as hruns)) hbs

end KeptByRuns

/-! ### Sorts that do not give up -/

section

variable (order) (room) (hfinish : ∀ as, (finish as).isSome)
include hfinish

theorem exists_settle? (run : Run α) : ∃ as, run.settle? finish = some as := by
  rw [Run.settle?]
  split
  · exact ⟨_, rfl⟩
  · exact Option.isSome_iff_exists.mp (hfinish run.items)

theorem exists_joinRuns? (left right : Run α) : ∃ run, joinRuns? order finish room left right = some run := by
  obtain ⟨as, has⟩ := exists_settle? hfinish left
  obtain ⟨bs, hbs⟩ := exists_settle? hfinish right
  rw [joinRuns?]
  split
  · exact ⟨_, rfl⟩
  · rw [has, hbs]
    exact ⟨_, rfl⟩

theorem exists_joinBack? (depth : Nat) : ∀ (stack : List (Run α × Nat)) (run : Run α),
    ∃ joined, joinBack? order finish room depth stack run = some joined
  | [], run => ⟨([], run), rfl⟩
  | (left, seam) :: stack, run => by
    obtain ⟨both, hboth⟩ := exists_joinRuns? order room hfinish left run
    rw [joinBack?]
    split
    · rw [hboth]
      exact exists_joinBack? depth stack both
    · exact ⟨_, rfl⟩

theorem exists_joinAll? (n : Nat) : ∀ (runs : List (Run α)) (stack : List (Run α × Nat)) (run : Run α)
    (scanned : Nat), ∃ whole, joinAll? order finish room n stack run scanned runs = some whole
  | [], stack, run, _ => by
    obtain ⟨joined, hjoined⟩ := exists_joinBack? order room hfinish 0 stack run
    rw [joinAll?, hjoined]
    exact ⟨_, rfl⟩
  | next :: runs, stack, run, scanned => by
    let seen := scanned + next.items.length
    let depth := seamDepth n (scanned - run.items.length) scanned seen
    obtain ⟨⟨rest, joined⟩, hjoined⟩ := exists_joinBack? order room hfinish depth stack run
    obtain ⟨whole, hwhole⟩ := exists_joinAll? n runs ((joined, depth) :: rest) next seen
    exact ⟨whole, by rw [joinAll?, hjoined, ← hwhole]⟩

/-- A sort by runs gives up only where the merge of two halves does, or what is to finish it. -/
theorem isSome_sortByRuns? (hhalves : ∀ as, (sortHalves? order as).isSome) (as : List α) :
    (sortByRuns? order finish room eager as).isSome := by
  have hruns : ∀ good, (runs? order eager good as).isSome := fun good => by
    induction as using runs?.induct order eager good with
    | case1 =>
      rw [runs?]
      rfl
    | case2 a rest hnone =>
      simp only [nextRun?] at hnone
      split at hnone
      · cases hnone
      · split at hnone
        · rw [Option.map_eq_none_iff] at hnone
          have hsome := hhalves ((a :: rest).take 32)
          rw [hnone] at hsome
          cases hsome
        · cases hnone
    | case3 a rest run hrun ih =>
      rw [runs?, hrun, Option.isSome_map]
      exact ih
  obtain ⟨runs, hruns⟩ := Option.isSome_iff_exists.mp (hruns (goodLength as.length))
  rw [sortByRuns?, hruns]
  cases runs with
  | nil => rfl
  | cons run runs =>
    obtain ⟨whole, hwhole⟩ := exists_joinAll? order room hfinish as.length runs [] run run.items.length
    simp only [hwhole]
    exact Option.isSome_iff_exists.mpr (exists_settle? hfinish whole)

end

end SelectLang
