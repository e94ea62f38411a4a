/-
# The segment of the rows that is kept

Which of the sorted rows a query keeps is a matter of their number alone: one segment of their places, worked
out with natural numbers that have no largest (`Query.segment`). Plans compute with words. The number of rows
before a page may be too large for a word, and then it is the largest word; no list is longer than that, so
nothing is left of the rows either way (`drop_skipped`), and the result is the rows of the segment
(`Query.run_segment`).

Key definitions: `Segment`, `Segment.cut`, `Query.segment`, `Query.unlimited`.
Key theorems: `Segment.cut_skip`, `Segment.cut_keep`, `drop_skipped`, `Query.run_segment`.
-/
import Mathlib
import SelectLang.Proofs.Plan.Rows

namespace SelectLang

/-! ### Segments -/

/-- Of `n` places those from `start` up to, but not including, `stop`. -/
structure Segment (n : ℕ) where
  start : ℕ
  stop : ℕ
  start_le : start ≤ stop
  stop_le : stop ≤ n

namespace Segment

variable {α : Type} {n : ℕ}

/-- How many places there are. -/
def size (s : Segment n) : ℕ := s.stop - s.start

/-- All places but the first `k`. -/
def skip (s : Segment n) (k : ℕ) : Segment n :=
  ⟨min (s.start + k) s.stop, s.stop, Nat.min_le_right _ _, s.stop_le⟩

/-- The first `k` places. -/
def keep (s : Segment n) (k : ℕ) : Segment n where
  start := s.start
  stop := min (s.start + k) s.stop
  start_le := Nat.le_min.mpr ⟨Nat.le_add_right _ _, s.start_le⟩
  stop_le := (Nat.min_le_right _ _).trans s.stop_le

/-- The elements at the places. -/
def cut (s : Segment n) (rows : List α) : List α := (rows.drop s.start).take s.size

theorem size_skip (s : Segment n) (k : ℕ) : (s.skip k).size = s.size - k := by
  unfold size skip
  dsimp only
  omega

theorem size_keep (s : Segment n) (k : ℕ) : (s.keep k).size = min k s.size := by
  unfold size keep
  dsimp only
  omega

theorem cut_skip (s : Segment n) (k : ℕ) (rows : List α) : (s.skip k).cut rows = (s.cut rows).drop k := by
  rw [cut, cut, size_skip, List.drop_take, List.drop_drop]
  by_cases hk : s.start + k ≤ s.stop
  · have hstart : (s.skip k).start = s.start + k := Nat.min_eq_left hk
    rw [hstart]
  · have hnone : s.size - k = 0 := by
      unfold size
      omega
    rw [hnone, List.take_zero, List.take_zero]

theorem cut_keep (s : Segment n) (k : ℕ) (rows : List α) : (s.keep k).cut rows = (s.cut rows).take k := by
  rw [cut, cut, size_keep, List.take_take]
  rfl

theorem length_cut_le {s : Segment n} {rows : List α} : (s.cut rows).length ≤ rows.length := by
  rw [cut, List.length_take, List.length_drop]
  omega

theorem length_cut (s : Segment n) {rows : List α} (h : rows.length = n) : (s.cut rows).length = s.size := by
  have hstop := s.stop_le
  rw [cut, List.length_take, List.length_drop, size]
  omega

end Segment

/-! ### What a query keeps -/

/-- The places that the top modifier keeps. -/
def Top.segment (n : ℕ) : Top → Segment n
  | quantity k => ⟨0, min k.toNat n, Nat.zero_le _, Nat.min_le_right _ _⟩
  | first => ⟨0, min 1 n, Nat.zero_le _, Nat.min_le_right _ _⟩
  | last => ⟨n - 1, n, Nat.sub_le _ _, Nat.le_refl _⟩
  | _ => ⟨0, n, Nat.zero_le _, Nat.le_refl _⟩

/-- The modifier asks for a single record. -/
def Top.isSingle : Top → Bool
  | first | last | one => true
  | _ => false

/-- The places that are left of a segment behind the offset, up to the limit, and on the page. -/
def Query.window {n : ℕ} (query : Query) (s : Segment n) : Segment n :=
  let s := match query.offset with
    | some k => s.skip k.toNat
    | none => s
  let s := match query.limit with
    | some k => s.keep k.toNat
    | none => s
  match query.pagination with
  | some p => (s.skip ((p.page.toNat - 1) * p.size.toNat)).keep p.size.toNat
  | none => s

/-- The places of `n` sorted rows that a query keeps. -/
def Query.segment (query : Query) (n : ℕ) : Segment n := query.window (query.top.segment n)

/-- The query for all of the sorted rows. -/
def Query.unlimited (query : Query) : Query :=
  { query with top := .all, offset := none, limit := none, pagination := none }

/-! ### What a plan keeps -/

theorem Top.isSingle_of_reduction {top : Top} {reduction : Reduction} (h : top.reduction = .ok reduction) :
    reduction.isSingle = top.isSingle := by
  cases top <;> cases h <;> rfl

theorem drop_length_sub_one {α : Type} (rows : List α) :
    rows.drop (rows.length - 1) = rows.getLast?.toList := by
  cases h : rows.getLast? with
  | none =>
    rw [List.getLast?_eq_none_iff.mp h]
    rfl
  | some row =>
    obtain ⟨front, rfl⟩ := List.getLast?_eq_some_iff.mp h
    rw [List.length_append, List.length_singleton, Nat.add_sub_cancel, List.drop_left]
    rfl

namespace Plan

variable {plan : Plan} {rows kept : List Record}

/-- What is kept for the top modifier, if there are not too many rows. -/
theorem eq_cut_of_reduce {top : Top} (htop : top.reduction = .ok plan.reduction)
    (h : plan.reduce rows = .ok kept) : kept = (top.segment rows.length).cut rows := by
  have hall : (rows.drop 0).take (rows.length - 0) = rows := List.take_length
  unfold reduce at h
  cases top with
  | position k => cases htop
  | percentage k => cases htop
  | all =>
    rw [← Except.ok.inj htop, Except.ok.injEq] at h
    rw [← h]
    exact hall.symm
  | one =>
    rw [← Except.ok.inj htop] at h
    dsimp only at h
    split at h
    · cases h
    · cases h
      exact hall.symm
  | first =>
    rw [← Except.ok.inj htop, Except.ok.injEq] at h
    rw [← h]
    exact List.take_eq_take_min
  | last =>
    rw [← Except.ok.inj htop, Except.ok.injEq] at h
    rw [← h, ← drop_length_sub_one]
    refine (List.take_of_length_le ?_).symm
    rw [List.length_drop]
    exact Nat.le_refl _
  | quantity k =>
    rw [← Except.ok.inj htop, Except.ok.injEq] at h
    rw [← h]
    exact List.take_eq_take_min

/-- No list is so long that the largest word would leave something of it. -/
theorem drop_skipped (p : Pagination) (h : rows.length < 2 ^ 64) :
    rows.drop p.skipped.toNat = rows.drop ((p.page.toNat - 1) * p.size.toNat) := by
  have hskipped : p.skipped.toNat = min ((p.page.toNat - 1) * p.size.toNat) (2 ^ 64 - 1) := by
    rw [Pagination.skipped, toNat_saturatingMul, toNat_saturatingSub]
    rfl
  generalize (p.page.toNat - 1) * p.size.toNat = before at hskipped ⊢
  by_cases hfits : before ≤ 2 ^ 64 - 1
  · rw [hskipped, Nat.min_eq_left hfits]
  · rw [hskipped, Nat.min_eq_right (by omega), List.drop_eq_nil_of_le (by omega),
      List.drop_eq_nil_of_le (by omega)]

/-- The window of a plan leaves of a segment what the query keeps of it. -/
theorem window_cut {query : Query} (hoffset : plan.offset = query.offset.map UInt64.toNat)
    (hlimit : plan.limit = query.limit.map UInt64.toNat) (hpage : plan.pagination = query.pagination)
    {n : ℕ} (s : Segment n) (h : rows.length < 2 ^ 64) :
    plan.window (s.cut rows) = (query.window s).cut rows := by
  have hcut : ∀ {s : Segment n}, (s.cut rows).length < 2 ^ 64 := fun {s} => s.length_cut_le.trans_lt h
  unfold window Query.window
  rw [hoffset, hlimit, hpage]
  cases query.offset <;> cases query.limit <;> cases query.pagination <;>
    simp only [Option.map_none, Option.map_some, ← Segment.cut_skip, ← Segment.cut_keep,
      drop_skipped _ hcut]

/-- A run that succeeds goes through all stages. -/
theorem exists_of_run {records : List Value} {result : QueryResult} (h : plan.run records = .ok result) :
    ∃ keyed sorted kept, plan.rowsOf records = .ok keyed ∧ plan.sortRows? keyed = some sorted ∧
      plan.reduce sorted = .ok kept ∧
        result = if plan.reduction.isSingle then .one (plan.window kept).head? else .many (plan.window kept) := by
  unfold run at h
  split at h
  · cases h
  · rename_i keyed hkeyed
    split at h
    · cases h
    · rename_i sorted hsorted
      split at h
      · cases h
      · rename_i kept hkept
        cases h
        exact ⟨keyed, sorted, kept, hkeyed, hsorted, hkept, rfl⟩

end Plan

theorem Query.compile_of_planOver {query : Query} {source : Source} {properties : Properties} {plan : Plan}
    (hproperties : source.type.recordProperties? = some properties)
    (hplan : query.planOver properties = .ok plan) : query.compile source = .ok plan := by
  rw [compile, hproperties]
  dsimp only
  rw [hplan]

/-- The window only takes places away. -/
theorem Query.size_window (query : Query) {n : ℕ} (s : Segment n) : (query.window s).size ≤ s.size := by
  unfold window
  cases query.offset <;> cases query.limit <;> cases query.pagination <;>
    simp only [Segment.size_skip, Segment.size_keep] <;> omega

/-- A modifier for a single record keeps at most one row, if the plan does not fail for there being more. -/
theorem Top.size_segment_le {top : Top} {plan : Plan} (htop : top.reduction = .ok plan.reduction)
    (hsingle : top.isSingle = true) {rows kept : List Record} (h : plan.reduce rows = .ok kept) :
    (top.segment rows.length).size ≤ 1 := by
  cases top with
  | first => exact Nat.min_le_left 1 _
  | last =>
    show rows.length - (rows.length - 1) ≤ 1
    omega
  | one =>
    rw [Plan.reduce, ← Except.ok.inj htop] at h
    by_contra hmany
    have hlength : 1 < rows.length := Nat.lt_of_not_le hmany
    simp [hlength] at h
  | _ => cases hsingle

/-- A query keeps of its sorted rows, which are those of the query for all rows, a segment that is worked out
from their number without regard to the size of words. A query for a single record keeps at most one row, and
cuts the segment out of that. -/
theorem Query.run_segment {query : Query} {source : Source} {plan : Plan} {records : List Value}
    {result : QueryResult} (hcompile : query.compile source = .ok plan)
    (hlength : records.length < 2 ^ 64) (hrun : plan.run records = .ok result) :
    ∃ whole rows sorted, query.unlimited.compile source = .ok whole ∧
      whole.run records = .ok (.many sorted) ∧
      records.mapM (project plan.columns) = .ok rows ∧ sorted.Perm rows ∧
      result.rows = (query.segment records.length).cut sorted ∧
      if query.top.isSingle then
        result = .one ((query.segment records.length).cut sorted).head? ∧
          (query.top.segment records.length).size ≤ 1
      else result = .many ((query.segment records.length).cut sorted) := by
  obtain ⟨properties, hproperties, hplan⟩ := planOver_of_compile hcompile
  obtain ⟨hcolumns, hkeys, hreduction, -, hoffset, hlimit, hpage⟩ := planOver_eq_ok.mp hplan
  have hsingle := Top.isSingle_of_reduction hreduction
  obtain ⟨keyed, sorted, kept, hkeyed, hsorted, hkept, hresult⟩ := Plan.exists_of_run hrun
  have hproject : records.mapM (project plan.columns) = .ok (keyed.map Prod.fst) := by
    rw [Plan.mapM_project, hkeyed]
    rfl
  have hperm := Plan.sortRows?_perm hsorted
  have hall : sorted.length = records.length :=
    hperm.length_eq.trans (mapM_eq_ok.mp hproject).length_eq.symm
  -- the plan for all rows makes the same rows and sorts them alike
  let whole : Plan := ⟨plan.columns, plan.sortKeys, .all, none, none, none⟩
  have hwhole : query.unlimited.planOver properties = .ok whole :=
    planOver_eq_ok.mpr ⟨hcolumns, hkeys, rfl, rfl, rfl, rfl, rfl⟩
  have hkeyed' : whole.rowsOf records = .ok keyed := by
    rw [← hkeyed, Plan.rowsOf_eq_mapM, Plan.rowsOf_eq_mapM]
    rfl
  refine ⟨whole, keyed.map Prod.fst, sorted, compile_of_planOver hproperties hwhole,
    KeepsAll.run ⟨rfl, rfl, rfl, rfl⟩ hwhole hkeyed' hsorted, hproject, hperm, ?_⟩
  have hcut : plan.window kept = (query.segment records.length).cut sorted := by
    rw [Plan.eq_cut_of_reduce hreduction hkept, hall]
    exact Plan.window_cut hoffset hlimit hpage _ (hall.trans_lt hlength)
  rw [hcut, Top.isSingle_of_reduction hreduction] at hresult
  by_cases hsingle : query.top.isSingle = true
  · have hsize := Top.size_segment_le hreduction hsingle hkept
    rw [hall] at hsize
    have hone : ((query.segment records.length).cut sorted).length ≤ 1 := by
      rw [Segment.length_cut _ hall]
      exact (query.size_window _).trans hsize
    rw [if_pos hsingle] at hresult ⊢
    refine ⟨?_, hresult, hsize⟩
    rw [hresult, QueryResult.rows, ← List.take_one, List.take_of_length_le hone]
  · rw [if_neg hsingle] at hresult ⊢
    exact ⟨congrArg QueryResult.rows hresult, hresult⟩

def partSource : Source :=
  ⟨⟨0, 0⟩, ["parts"], .object "Part" [⟨"code", "Code", .basic .number⟩], none⟩

def parts : List Value :=
  [.object [("Code", .integer 4)], .object [("Code", .integer 9)], .object [("Code", .integer 6)]]

/-- `select code from parts order by code descending limit 2 paginated on 9223372036854775809 by 2`. There are
`2 ^ 64` rows before the page, which as a word would be none. -/
def farPage : Query :=
  ⟨⟨["parts"]⟩, [.expression (.path ⟨["code"]⟩) none], .all, [⟨.path ⟨["code"]⟩, .descending⟩], none, some 2,
    some ⟨9223372036854775809, 2⟩⟩

theorem run_segment_far : ∃ plan sorted, farPage.compile partSource = .ok plan ∧
    plan.run parts = .ok (.many []) ∧ parts.length < 2 ^ 64 ∧
    sorted.map (Record.get? · "code") = [some (.integer 9), some (.integer 6), some (.integer 4)] ∧
    QueryResult.many [] = .many ((farPage.segment parts.length).cut sorted) := by
  have hcompile : farPage.compile partSource =
      .ok ⟨[⟨"code", .typed (.basic .number), .read ["Code"]⟩], [⟨.column "code", .descending⟩], .all, none,
        some 2, some ⟨9223372036854775809, 2⟩⟩ := rfl
  have hrun : Plan.run ⟨[⟨"code", .typed (.basic .number), .read ["Code"]⟩], [⟨.column "code", .descending⟩],
      .all, none, some 2, some ⟨9223372036854775809, 2⟩⟩ parts = .ok (.many []) := rfl
  obtain ⟨whole, rows, sorted, hwhole, hsorted, -, -, -, hresult⟩ :=
    Query.run_segment hcompile (by decide) hrun
  refine ⟨_, sorted, hcompile, hrun, by decide, ?_, hresult⟩
  cases hwhole
  cases hsorted
  rfl

end SelectLang
