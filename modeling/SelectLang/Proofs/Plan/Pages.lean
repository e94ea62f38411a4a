/-
# Pages

A query without pagination yields some rows; asked for page after page of one size, it yields them in portions.
The portions are cut off the front of the rows one after the other (`flatMap_pageOf`), so put together they are
the rows, all of them are full but perhaps the last, and behind it there is nothing, also where the number of
rows before the page is too large for a word (`Query.run_pages`).

Key definitions: `pageOf`, `Query.onPage`.
Key theorems: `flatMap_pageOf`, `Plan.run_onPage`, `Query.run_pages`.
-/
import Mathlib
import SelectLang.Proofs.Plan.Segments

namespace SelectLang

/-! ### Portions of a list -/

section

variable {α : Type} {rows : List α} {size : ℕ}

/-- What stands on a page, when the pages are counted from 1. -/
def pageOf (rows : List α) (size page : ℕ) : List α := (rows.drop ((page - 1) * size)).take size

/-- The first pages together are the front of the list. -/
theorem flatMap_pageOf (rows : List α) (size : ℕ) : ∀ count : ℕ,
    (List.range' 1 count).flatMap (pageOf rows size) = rows.take (count * size)
  | 0 => by rw [Nat.zero_mul]; rfl
  | count + 1 => by
    have hlast : pageOf rows size (1 + count) = (rows.drop (count * size)).take size := by
      rw [pageOf, Nat.add_sub_cancel_left]
    rw [List.range'_concat, List.flatMap_append, flatMap_pageOf rows size count, List.flatMap_singleton,
      Nat.one_mul, hlast, Nat.succ_mul, List.take_add]

theorem length_pageOf (rows : List α) (size page : ℕ) :
    (pageOf rows size page).length = min size (rows.length - (page - 1) * size) := by
  rw [pageOf, List.length_take, List.length_drop]

/-- How many pages the rows fill, in part or whole. -/
def pageCount (rows : List α) (size : ℕ) : ℕ := rows.length ⌈/⌉ size

theorem length_le_pages (hsize : 0 < size) : rows.length ≤ pageCount rows size * size := by
  have h := (ceilDiv_le_iff_le_mul hsize).mp (le_refl (pageCount rows size))
  rwa [Nat.mul_comm]

theorem pageCount_le (hsize : 0 < size) : pageCount rows size ≤ rows.length :=
  (ceilDiv_le_iff_le_mul hsize).mpr (Nat.le_mul_of_pos_left _ hsize)

/-- A page before the last is full. -/
theorem length_pageOf_of_lt (hsize : 0 < size) {page : ℕ} (hfirst : 1 ≤ page)
    (hpage : page < pageCount rows size) : (pageOf rows size page).length = size := by
  have hmore : page * size < rows.length := by
    have h := mt (ceilDiv_le_iff_le_mul hsize).mpr (Nat.not_le.mpr hpage)
    rwa [Nat.not_le, Nat.mul_comm] at h
  have hthis : (page - 1) * size + size = page * size := by
    rw [← Nat.succ_mul, Nat.succ_eq_add_one, Nat.sub_add_cancel hfirst]
  rw [length_pageOf]
  omega

/-- Behind the last page there is nothing. -/
theorem pageOf_eq_nil (hsize : 0 < size) {page : ℕ} (hpage : pageCount rows size < page) :
    pageOf rows size page = [] := by
  have hall : rows.length ≤ (page - 1) * size :=
    (length_le_pages hsize).trans (Nat.mul_le_mul_right size (Nat.le_sub_one_of_lt hpage))
  rw [pageOf, List.drop_eq_nil_of_le hall, List.take_nil]

end

/-! ### The pages of a query -/

/-- The query for one page of its rows. -/
def Query.onPage (query : Query) (page size : UInt64) : Query :=
  { query with pagination := some ⟨page, size⟩ }

/-- The plan for one page of its rows. -/
def Plan.onPage (plan : Plan) (page size : UInt64) : Plan :=
  { plan with pagination := some ⟨page, size⟩ }

variable {query : Query} {source : Source} {plan : Plan} {page size : UInt64}

theorem Query.compile_onPage (hcompile : query.compile source = .ok plan) (hpage : 1 ≤ page)
    (hsize : 1 ≤ size) : (query.onPage page size).compile source = .ok (plan.onPage page size) := by
  obtain ⟨properties, hproperties, hplan⟩ := planOver_of_compile hcompile
  obtain ⟨hcolumns, hkeys, hreduction, -, hoffset, hlimit, -⟩ := planOver_eq_ok.mp hplan
  have hvalid : checkPagination (some ⟨page, size⟩) = .ok () := by
    have hone : ∀ {n : UInt64}, 1 ≤ n → ¬ n < 1 := fun h => UInt64.not_lt.mpr h
    simp only [checkPagination, hone hpage, hone hsize, decide_false, Bool.or_self, Bool.false_eq_true, if_false]
  exact compile_of_planOver hproperties
    (planOver_eq_ok.mpr ⟨hcolumns, hkeys, hreduction, hvalid, hoffset, hlimit, rfl⟩)

/-- The plan for a page makes and keeps the same rows and shows the page of them. -/
theorem Plan.run_onPage {records : List Value} {rows : List Record} (hpage : plan.pagination = none)
    (hrun : plan.run records = .ok (.many rows)) (hlength : rows.length < 2 ^ 64) :
    (plan.onPage page size).run records = .ok (.many (pageOf rows size.toNat page.toNat)) := by
  obtain ⟨keyed, sorted, kept, hkeyed, hsorted, hkept, hresult⟩ := exists_of_run hrun
  have hkeyed' : (plan.onPage page size).rowsOf records = .ok keyed := by
    rw [← hkeyed, rowsOf_eq_mapM, rowsOf_eq_mapM]
    rfl
  have hsorted' : (plan.onPage page size).sortRows? keyed = some sorted := hsorted
  have hkept' : (plan.onPage page size).reduce sorted = .ok kept := hkept
  have hsingle : plan.reduction.isSingle = false := by
    by_contra h
    rw [if_pos (Bool.eq_true_of_not_eq_false h)] at hresult
    cases hresult
  rw [hsingle, if_neg Bool.false_ne_true, QueryResult.many.injEq] at hresult
  have hwindow : (plan.onPage page size).window kept = pageOf rows size.toNat page.toNat := by
    have hall : (plan.onPage page size).window kept =
        ((plan.window kept).drop (Pagination.skipped ⟨page, size⟩).toNat).take size.toNat := by
      simp only [window, onPage, hpage]
    rw [hall, ← hresult, drop_skipped _ hlength, pageOf]
  rw [run, hkeyed']
  dsimp only
  rw [hsorted']
  dsimp only
  rw [hkept']
  dsimp only
  rw [hwindow]
  simp only [onPage, hsingle, Bool.false_eq_true, if_false]

/-- The pages of a query, of any size, are a partition of its rows: one after the other they are the rows, all
but perhaps the last of them are full, and no page behind it has a row. -/
theorem Query.run_pages {records : List Value} {rows : List Record}
    (hcompile : query.compile source = .ok plan) (hpagination : query.pagination = none)
    (hrun : plan.run records = .ok (.many rows)) (hlength : rows.length < 2 ^ 64) (hsize : 1 ≤ size) :
    ∃ pages : ℕ → List Record,
      (∀ page : UInt64, 1 ≤ page → ∃ paged, (query.onPage page size).compile source = .ok paged ∧
        paged.run records = .ok (.many (pages page.toNat))) ∧
      pageCount rows size.toNat < 2 ^ 64 ∧
      (List.range' 1 (pageCount rows size.toNat)).flatMap pages = rows ∧
      (∀ page, 1 ≤ page → page < pageCount rows size.toNat → (pages page).length = size.toNat) ∧
      ∀ page : UInt64, pageCount rows size.toNat < page.toNat → pages page.toNat = [] := by
  obtain ⟨properties, -, hplan⟩ := planOver_of_compile hcompile
  obtain ⟨-, -, -, -, -, -, hpage⟩ := planOver_eq_ok.mp hplan
  rw [hpagination] at hpage
  have hpos : 0 < size.toNat := UInt64.le_iff_toNat_le.mp hsize
  refine ⟨pageOf rows size.toNat, fun page hfirst => ?_, (pageCount_le hpos).trans_lt hlength, ?_,
    fun page => length_pageOf_of_lt hpos, fun page => pageOf_eq_nil hpos⟩
  · exact ⟨_, compile_onPage hcompile hfirst hsize, Plan.run_onPage hpage hrun hlength⟩
  · rw [flatMap_pageOf, List.take_of_length_le (length_le_pages hpos)]

/-- `select top 9 code from parts order by code descending` -/
def topParts : Query :=
  ⟨⟨["parts"]⟩, [.expression (.path ⟨["code"]⟩) none], .quantity 9, [⟨.path ⟨["code"]⟩, .descending⟩], none, none,
    none⟩

theorem run_pages_parts : ∃ (plan : Plan) (pages : ℕ → List Record), topParts.compile partSource = .ok plan ∧
    plan.run parts = .ok (.many [[("code", .integer 9)], [("code", .integer 6)], [("code", .integer 4)]]) ∧
    (List.range' 1 2).flatMap pages =
      [[("code", .integer 9)], [("code", .integer 6)], [("code", .integer 4)]] ∧
    (pages 1).length = 2 ∧ pages (2 ^ 64 - 1) = [] := by
  have hcompile : topParts.compile partSource =
      .ok ⟨[⟨"code", .typed (.basic .number), .read ["Code"]⟩], [⟨.column "code", .descending⟩], .take 9, none,
        none, none⟩ := rfl
  have hrun : Plan.run ⟨[⟨"code", .typed (.basic .number), .read ["Code"]⟩], [⟨.column "code", .descending⟩],
      .take 9, none, none, none⟩ parts =
        .ok (.many [[("code", .integer 9)], [("code", .integer 6)], [("code", .integer 4)]]) := rfl
  obtain ⟨pages, -, -, hall, hfull, hnone⟩ :=
    Query.run_pages hcompile rfl hrun (by decide) (show (1 : UInt64) ≤ 2 by decide)
  exact ⟨_, pages, hcompile, hrun, hall, hfull 1 (by decide) (by decide),
    hnone 18446744073709551615 (by decide)⟩

end SelectLang
