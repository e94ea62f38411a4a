/-
# Selections with an item turned

An item that is turned leaves the text before it as it is, and what was read there is read again: the word
`select`, the top modifier and the items before it stop in front of what begins as before, or breaks them off
(`Begins`), and a comma stands behind each of these items. So from the item back to the front of the text what
holds of the items from a place on holds from the place before (`AtomAt`, `Rereads`).

Key definitions: `AtomAt`, `Begins`, `Rereads`.
Key theorems: `topModifier_elsewhere`, `Turned.rereads`, `AtomAt.parts_done`.
-/
import Mathlib
import SelectLang.Proofs.Grammar.Naming

namespace SelectLang
namespace Grammar

open SelectLang.Parser

/-! ### Fronts -/

/-- The second text begins like the first one or goes on with nothing that is before it. -/
def Begins (s s' : List Char) : Prop := ∀ c ∈ s'.head?, c ∈ s.head? ∨ isNameChar c = false ∧ c ≠ '%'

namespace Begins

variable {s s' : List Char}

theorem forall_head {P : Char → Prop} (h : Begins s s') (hother : ∀ c, isNameChar c = false → c ≠ '%' → P c)
    (hs : ∀ c ∈ s.head?, P c) : ∀ c ∈ s'.head?, P c := fun c hc => (h c hc).elim (hs c) fun h => hother c h.1 h.2

theorem endsWord (h : Begins s s') (hs : EndsWord s) : EndsWord s' := h.forall_head (fun _ hc _ => hc) hs

theorem not_digit (h : Begins s s') (hs : ∀ c ∈ s.head?, c.isDigit = false) : ∀ c ∈ s'.head?, c.isDigit = false :=
  h.forall_head (fun c hc _ => Bool.eq_false_iff.mpr fun hdigit => by
    rw [isNameChar_of_isDigit hdigit] at hc
    cases hc) hs

theorem append (h : Begins s s') (x : List Char) : Begins (x ++ s) (x ++ s') := by
  cases x with
  | nil => exact h
  | cons c x => exact fun d hd => .inl hd

end Begins

/-! ### The top modifier -/

/-- Before another rest the word is read there again. -/
theorem keyword_elsewhere {word : String} (hletters : word.toList.all isKeywordLetter = true) {x s s' w : List Char}
    (h : keyword word (x ++ s) = .done w s) (hs : EndsWord s') : keyword word (x ++ s') = .done w s' ∧
      (wordOf (x ++ s')).map Char.toLower = word.toList := by
  obtain ⟨heq, hlower, hname, -⟩ := keyword_eq_done hletters h
  obtain rfl := List.append_cancel_right heq
  obtain ⟨htake, hdrop⟩ := takeWhile_append hname hs
  have hword : (wordOf (x ++ s')).map Char.toLower = word.toList := by rw [wordOf, htake, hlower]
  refine ⟨?_, hword⟩
  rw [keyword_done hletters hword, wordOf, htake, hdrop]

theorem misses_behind_other {α : Type} {word other : String} {f : List Char → Parser α} {s : List Char}
    (hletters : other.toList.all isKeywordLetter = true) (hs : (wordOf s).map Char.toLower = word.toList)
    (hne : word ≠ other) : (keyword other >>= f).Misses s := by
  refine (misses_keyword hletters ?_).bind
  rw [hs, ne_eq, String.toList_inj]
  exact hne

/-- Behind a word, blanks and a number stands what is read before another rest, too. -/
theorem quantity_elsewhere {α : Type} {word : String} (hletters : word.toList.all isKeywordLetter = true)
    {f : UInt64 → Parser α} {s r : List Char} {a : α} (h : (do
      let _ ← keyword word
      let _ ← blanks1
      let n ← quantity
      f n) s = .done a r) :
    ∃ front n m, s = front ++ m ∧ f n m = .done a r ∧ (∀ c ∈ m.head?, c.isDigit = false) ∧
      ∀ m', (∀ c ∈ m'.head?, c.isDigit = false) → (wordOf (front ++ m')).map Char.toLower = word.toList ∧
        ∀ g : UInt64 → Parser α, (do
          let _ ← keyword word
          let _ ← blanks1
          let n ← quantity
          g n) (front ++ m') = g n m' := by
  obtain ⟨w, m₁, hword, hbehind⟩ := bind_eq_done h
  obtain ⟨run, m₂, hrun, hnumber⟩ := bind_eq_done hbehind
  obtain ⟨n, m, hn, hlast⟩ := bind_eq_done hnumber
  obtain ⟨ds, hds, hvalue⟩ := filterMap_eq_done hn
  obtain ⟨rfl, -⟩ := keyword_eq_done hletters hword
  obtain ⟨rfl, hne, hblanks, -⟩ := takeWhile1_eq_done hrun
  obtain ⟨rfl, hne', hdigits, hend⟩ := takeWhile1_eq_done hds
  refine ⟨w ++ (run ++ ds), n, m, by simp, hlast, hend, fun m' hm' => ?_⟩
  have hblank : EndsWord (run ++ (ds ++ m')) :=
    forall_head_append hne fun c hc => not_isNameChar_of_isBlank (hblanks c hc)
  have hdigit : ∀ c ∈ (ds ++ m').head?, isBlank c = false :=
    forall_head_append hne' fun c hc => isBlank_of_isNameChar (isNameChar_of_isDigit (hdigits c hc))
  have hdone := keyword_elsewhere hletters hword hblank
  rw [List.append_assoc, List.append_assoc]
  refine ⟨hdone.2, fun g => ?_⟩
  have hgap : blanks1 (run ++ (ds ++ m')) = .done run (ds ++ m') := takeWhile1_done hne hblanks hdigit
  have hnumber : quantity (ds ++ m') = .done n m' := filterMap_done (takeWhile1_done hne' hdigits hm') hvalue
  rw [bind_done hdone.1, bind_done hgap, bind_done hnumber]

/-- The top modifier is read again before what begins as its rest did, or breaks it off. -/
theorem topModifier_elsewhere {x s s' : List Char} {top : Top} (h : topModifier (x ++ s) = .done top s)
    (hs : Begins s s') : topModifier (x ++ s') = .done top s' := by
  have hword : ∀ {word : String} {t : Top}, word.toList.all isKeywordLetter = true →
      (keyword word >>= fun _ => pure t) (x ++ s) = .done top s →
      (wordOf (x ++ s')).map Char.toLower = word.toList ∧
        (keyword word >>= fun _ => pure t) (x ++ s') = .done top s' := by
    intro word t hletters hdone
    obtain ⟨w, m, hw, hlast⟩ := bind_eq_done hdone
    cases hlast
    obtain ⟨-, -, -, hend⟩ := keyword_eq_done hletters hw
    obtain ⟨hdone, hlower⟩ := keyword_elsewhere hletters hw (hs.endsWord hend)
    exact ⟨hlower, bind_done hdone⟩
  obtain ⟨p, hp, hdone⟩ := firstOf_eq_done h
  simp only [List.mem_cons, List.not_mem_nil, or_false] at hp
  rcases hp with rfl | rfl | rfl | rfl | rfl | rfl
  · exact firstOf_cons_done (hword (by decide) hdone).2
  · obtain ⟨hlast, hdone⟩ := hword (by decide) hdone
    exact firstOf_cons_of_misses (misses_behind_other (by decide) hlast (by decide)) (firstOf_cons_done hdone)
  · obtain ⟨hone, hdone⟩ := hword (by decide) hdone
    exact firstOf_cons_of_misses (misses_behind_other (by decide) hone (by decide))
      (firstOf_cons_of_misses (misses_behind_other (by decide) hone (by decide)) (firstOf_cons_done hdone))
  · obtain ⟨front, n, m, hx, hn, hend, helse⟩ := quantity_elsewhere (by decide) hdone
    obtain ⟨_, m', habsent, hlast⟩ := bind_eq_done hn
    cases hlast
    obtain ⟨rfl, hpercent⟩ := absent_eq_done habsent
    obtain rfl := List.append_cancel_right hx
    obtain ⟨htop, hread⟩ := helse s' (hs.not_digit hend)
    have hno : (char '%').Misses s' := by
      refine misses_char fun hc => ?_
      refine hs.forall_head (P := (· ≠ '%')) (fun _ _ hne => hne) (fun c hc => ?_) '%' hc rfl
      rintro rfl
      obtain ⟨t, rfl⟩ := List.head?_eq_some_iff.mp hc
      exact hpercent.not_done (char_done '%' t)
    refine firstOf_cons_of_misses (misses_behind_other (by decide) htop (by decide))
      (firstOf_cons_of_misses (misses_behind_other (by decide) htop (by decide))
      (firstOf_cons_of_misses (misses_behind_other (by decide) htop (by decide)) (firstOf_cons_done ?_)))
    rw [hread, bind_done (absent_of_misses hno), pure_apply]
  · obtain ⟨front, n, m, hx, hn, hend, helse⟩ := quantity_elsewhere (by decide) hdone
    obtain ⟨_, m', hpercent, hlast⟩ := bind_eq_done hn
    cases hlast
    obtain rfl := char_eq_done hpercent
    obtain rfl : x = front ++ ['%'] := List.append_cancel_right (hx.trans (by simp))
    rw [List.append_assoc, List.singleton_append]
    obtain ⟨htop, hread⟩ := helse ('%' :: s') fun c hc => by cases hc; rfl
    refine firstOf_cons_of_misses (misses_behind_other (by decide) htop (by decide))
      (firstOf_cons_of_misses (misses_behind_other (by decide) htop (by decide))
      (firstOf_cons_of_misses (misses_behind_other (by decide) htop (by decide))
      (firstOf_cons_of_misses ?_ (firstOf_cons_done ?_))))
    · rw [Misses, hread]
      exact (misses_absent (char_done '%' s')).bind
    · rw [hread, bind_done (char_done '%' s'), pure_apply]
  · obtain ⟨front, n, m, hx, hn, hend, helse⟩ := quantity_elsewhere (by decide) hdone
    cases hn
    obtain rfl := List.append_cancel_right hx
    obtain ⟨hat, hread⟩ := helse s' (hs.not_digit hend)
    refine firstOf_cons_of_misses (misses_behind_other (by decide) hat (by decide))
      (firstOf_cons_of_misses (misses_behind_other (by decide) hat (by decide))
      (firstOf_cons_of_misses (misses_behind_other (by decide) hat (by decide))
      (firstOf_cons_of_misses (misses_behind_other (by decide) hat (by decide))
      (firstOf_cons_of_misses (misses_behind_other (by decide) hat (by decide)) ?_))))
    rw [firstOf_single, hread, pure_apply]

/-! ### Items up to the source -/

/-- The items end here, before the source. -/
def EndsItems (s : List Char) : Prop := (wordOf (s.dropWhile isBlank)).map Char.toLower = "from".toList

theorem misses_comma {s : List Char} (h : EndsItems s) : (symbol ',').Misses s := by
  refine misses_symbol fun hc => ?_
  have hend : EndsWord (s.dropWhile isBlank) := fun c hc' => by
    rw [Option.mem_unique hc' hc]
    decide
  rw [EndsItems, hend.wordOf_eq_nil] at h
  cases h

theorem skipsBlanks_items : SkipsBlanks (separated1 (symbol ',') atom) := skipsBlanks_atom.bind _

/-- A comma with the blanks around it. -/
theorem comma_eq_done {s t : List Char} {c : Char} (h : symbol ',' s = .done c t) :
    ∃ gap run, s = gap ++ ',' :: (run ++ t) ∧ (∀ c ∈ gap, isBlank c = true) ∧ ∀ c ∈ run, isBlank c = true := by
  obtain ⟨_, m, hmark, h⟩ := bind_eq_done h
  obtain ⟨_, m', hblanks, hlast⟩ := bind_eq_done h
  cases hlast
  have hdrop : s.dropWhile isBlank = ',' :: m := char_eq_done hmark
  cases hblanks
  refine ⟨s.takeWhile isBlank, m.takeWhile isBlank, ?_, fun c hc => List.mem_takeWhile_imp hc,
    fun c hc => List.mem_takeWhile_imp hc⟩
  rw [List.takeWhile_append_dropWhile, ← hdrop, List.takeWhile_append_dropWhile]

theorem dropWhile_comma {gap : List Char} (h : ∀ c ∈ gap, isBlank c = true) (s : List Char) :
    (gap ++ ',' :: s).dropWhile isBlank = ',' :: s := by
  rw [List.dropWhile_append_of_pos h]
  rfl

theorem idleItem_comma (s : List Char) : IdleItem 0 (',' :: s) := by
  have hword : EndsWord (',' :: s) := fun c hc => by cases hc; decide
  refine ⟨idle_of_mark hword (fun c hc => ?_) (fun h => absurd h (lt_irrefl 0)), .inl hword, by simp⟩
  cases hc
  decide

/-- Behind an item comes a comma or the source. -/
theorem idle_behind_atom {r k : List Char} {as : List Atom} (h : separatedTail (symbol ',') atom r = .done as k)
    (hk : EndsItems k) : Idle 0 (r.dropWhile isBlank) := by
  rcases separatedTail_eq_done h with ⟨rfl, rfl⟩ | ⟨c, t, a, m, bs, hcomma, -⟩
  · exact idle_of_word (by decide) (by decide) hk 0
  · obtain ⟨gap, run, rfl, hgap, -⟩ := comma_eq_done hcomma
    rw [dropWhile_comma hgap]
    exact (idleItem_comma _).toIdle

/-- The further items do not depend on the blanks before them. -/
theorem items_of_blanks {r r' k : List Char} {as : List Atom} (hr : r'.dropWhile isBlank = r.dropWhile isBlank)
    (h : separatedTail (symbol ',') atom r = .done as k) (hk : EndsItems k) :
    ∃ k', separatedTail (symbol ',') atom r' = .done as k' ∧ k'.dropWhile isBlank = k.dropWhile isBlank := by
  rcases separatedTail_eq_done h with ⟨rfl, rfl⟩ | ⟨c, t, a, m, bs, hcomma, ha, hbs, rfl⟩
  · refine ⟨r', separatedTail_of_misses (misses_comma ?_), hr⟩
    rwa [EndsItems, hr]
  · have hcomma' : symbol ',' r' = .done c t := by rw [← skipsBlanks_symbol, hr, skipsBlanks_symbol, hcomma]
    have hlt : t.length < r'.length := (consumes_symbol ',').length_le hcomma'
    have hle := (consumes_atom.mono (Nat.zero_le 1)).length_le ha
    exact ⟨k, separatedTail_step hcomma' hlt ha (hle.trans_lt hlt) hbs, rfl⟩

/-- An item before a comma is read again if the text goes on otherwise behind the comma. -/
theorem atom_before_comma {u gap run t : List Char} {a : Atom} (hgap : ∀ c ∈ gap, isBlank c = true)
    (hrun : ∀ c ∈ run, isBlank c = true)
    (h : atom (u ++ (gap ++ ',' :: (run ++ t))) = .done a (gap ++ ',' :: (run ++ t))) (t' : List Char) :
    ∃ r, atom (u ++ (gap ++ ',' :: (run ++ t'))) = .done a r ∧ symbol ',' r = .done ',' (t'.dropWhile isBlank) := by
  have hends : EndsWord (gap ++ ',' :: (run ++ t)) → EndsWord (gap ++ ',' :: (run ++ t')) := by
    cases gap <;> exact id
  obtain ⟨r, hr, hrest⟩ := atom_elsewhere h (gap ++ ',' :: (run ++ t')) hends
    (by rw [dropWhile_comma hgap]; exact idleItem_comma _) (by rw [dropWhile_comma hgap]; exact idleItem_comma _)
  rw [dropWhile_comma hgap] at hrest
  exact ⟨r, hr, by rw [symbol_done hrest, List.dropWhile_append_of_pos hrun]⟩

section Cons

variable {s r t k : List Char} {a : Atom} {c : Char} (ha : atom s = .done a r) (hcomma : symbol ',' r = .done c t)
include ha hcomma

/-- Items are the first of them and those behind its comma. -/
theorem items_cons {as : List Atom} (h : separated1 (symbol ',') atom t = .done as k) :
    separated1 (symbol ',') atom s = .done (a :: as) k := by
  obtain ⟨b, m, bs, hb, hbs, rfl⟩ := separated1_eq_done h
  have hlt : t.length < r.length := (consumes_symbol ',').length_le hcomma
  have hle : m.length ≤ t.length := (consumes_atom.mono (Nat.zero_le 1)).length_le hb
  exact separated1_done ha (separatedTail_step hcomma hlt hb (hle.trans_lt hlt) hbs)

theorem items_behind {as : List Atom} (h : separated1 (symbol ',') atom s = .done as k) (hk : EndsItems k) :
    ∃ bs, as = a :: bs ∧ separated1 (symbol ',') atom t = .done bs k := by
  obtain ⟨b, m, bs, hb, hbs, rfl⟩ := separated1_eq_done h
  rw [ha] at hb
  cases hb
  rcases separatedTail_eq_done hbs with ⟨rfl, rfl⟩ | ⟨d, t', b, m, ds, hd, hb, hds, rfl⟩
  · exact absurd hcomma (misses_comma hk).not_done
  · rw [hcomma] at hd
    cases hd
    exact ⟨b :: ds, rfl, separated1_done hb hds⟩

end Cons

/-- The text goes on with items that mean the same, up to the same source. -/
structure Rereads (s s' : List Char) : Prop where
  begins : Begins s s'
  items : ∀ as k, separated1 (symbol ',') atom s = .done as k → EndsItems k → ∃ as' k',
    separated1 (symbol ',') atom s' = .done as' k' ∧ k'.dropWhile isBlank = k.dropWhile isBlank ∧
      as'.map Atom.normalized = as.map Atom.normalized

/-- Of items from a turned one on only the first is another. -/
theorem Turned.rereads {s s' : List Char} (h : Turned s s') : Rereads s s' where
  begins := by
    obtain ⟨t, rfl⟩ := h.begins
    exact fun c hc => .inr (by cases hc; decide)
  items as k has hk := by
    obtain ⟨a, r, bs, ha, hbs, rfl⟩ := separated1_eq_done has
    obtain ⟨a', r', ha', hr, hsame⟩ := h.atom_done ha (idle_behind_atom hbs hk)
    obtain ⟨k', hbs', hk'⟩ := items_of_blanks hr hbs hk
    exact ⟨a' :: bs, k', separated1_done ha' hbs', hk', by rw [List.map_cons, List.map_cons, hsame]⟩

/-- What holds of the items behind a comma holds of those from the item before it on. -/
theorem Rereads.cons {x t t' r : List Char} {a : Atom} {c : Char} (h : Rereads t t') (ha : atom (x ++ t) = .done a r)
    (hcomma : symbol ',' r = .done c t) : Rereads (x ++ t) (x ++ t') := by
  obtain ⟨u, hu, hlen⟩ := consumes_atom _ _ _ ha
  obtain ⟨gap, run, rfl, hgap, hrun⟩ := comma_eq_done hcomma
  obtain rfl : x = u ++ (gap ++ ',' :: run) := List.append_cancel_right (hu.trans (by simp))
  have htext : ∀ t, u ++ (gap ++ ',' :: run) ++ t = u ++ (gap ++ ',' :: (run ++ t)) := fun t => by simp
  rw [htext] at ha
  obtain ⟨r, hr, hcomma'⟩ := atom_before_comma hgap hrun ha t'
  rw [htext, htext]
  refine ⟨?_, fun as k has hk => ?_⟩
  · cases u with
    | nil => exact absurd hlen (by simp)
    | cons c u => exact fun d hd => .inl hd
  · obtain ⟨bs, rfl, hbs⟩ := items_behind ha hcomma has hk
    obtain ⟨bs', k', hbs', hk', hsame⟩ := h.items bs k hbs hk
    rw [← skipsBlanks_items] at hbs'
    exact ⟨a :: bs', k', items_cons hr hcomma' hbs', hk', by rw [List.map_cons, List.map_cons, hsame]⟩

/-! ### The text before the items -/

theorem misses_expression {s : List Char} (h : Idle 0 s) (hs : s.dropWhile isBlank = s) : expression.Misses s := by
  have hpath := misses_namePath h.name
  have hmark : ∀ {c : Char}, c ∈ ['.', '*', '/', '%', '+', '-', '|', '>', '('] → c ∉ s.head? := fun hc hs =>
    (h.front _ hs).2.2 hc
  have hliteral : Grammar.literal.Misses s := by
    refine misses_literal (fun c hc => ?_) ?_
    · obtain ⟨hdigit, hquote, -⟩ := h.front c hc
      refine ⟨?_, ?_, ?_, hdigit⟩
      · rintro rfl
        cases hquote
      · rintro rfl
        cases hquote
      · rintro rfl
        exact hmark (by decide) hc
    · simpa using ⟨h.truth "true" (by decide), h.truth "false" (by decide)⟩
  have hfactor : (factor expression).Misses s := by
    rw [Misses, factor_apply hs]
    refine misses_firstOf ?_
    simp only [List.mem_cons, List.not_mem_nil, or_false, forall_eq_or_imp, forall_eq]
    exact ⟨hpath.bind, hliteral.bind, hpath.bind, Misses.bind (misses_char (hmark (by decide))).bind,
      misses_parenthesized (by rw [hs]; exact hmark (by decide))⟩
  rw [Misses, expression_apply]
  exact Misses.bind (Misses.bind (Misses.bind hfactor))

/-- A selection begins with no word of the language but a truth value. -/
theorem wordOf_ne_of_atom {s r : List Char} {a : Atom} (h : atom s = .done a r) (hs : s.dropWhile isBlank = s)
    {word : String} (hmem : word ∈ reservedWords) (htruth : word ∉ ["true", "false"]) :
    (wordOf s).map Char.toLower ≠ word.toList := fun hword => by
  have hidle := idle_of_word hmem htruth hword 0
  have hname : (lexeme namePath).Misses s := by
    rw [Misses, lexeme_apply, hs]
    exact misses_namePath hidle.name
  have hatom : atom.Misses s := by
    refine misses_firstOf ?_
    simp only [List.mem_cons, List.not_mem_nil, or_false, forall_eq_or_imp, forall_eq]
    exact ⟨(misses_separatedPair (Misses.after _ hname)).bind, (misses_expression hidle hs).bind⟩
  exact hatom.not_done h

/-- What stands behind the blanks at the front stands there before another rest. -/
theorem dropWhile_elsewhere {x y s : List Char} (hy : (x ++ s).dropWhile isBlank = y ++ s) (hne : y ≠ [])
    (s' : List Char) : (x ++ s').dropWhile isBlank = y ++ s' := by
  have hx : x = (x ++ s).takeWhile isBlank ++ y := by
    refine (List.append_left_inj s).mp ?_
    rw [List.append_assoc, ← hy, List.takeWhile_append_dropWhile]
  have hhead : ∀ c ∈ (y ++ s').head?, isBlank c = false := by
    have hfront := head_dropWhile isBlank (x ++ s)
    rw [hy] at hfront
    cases y with
    | nil => exact absurd rfl hne
    | cons c y => exact hfront
  rw [hx, List.append_assoc, (takeWhile_append (fun c hc => List.mem_takeWhile_imp hc) hhead).2]

/-- Behind blanks what is read again before another rest is read again. -/
theorem lexeme_elsewhere {α : Type} {p : Parser α} (hc : Consumes 1 p) {x s s' : List Char} {a : α}
    (h : lexeme p (x ++ s) = .done a s) (hp : ∀ y, p (y ++ s) = .done a s → p (y ++ s') = .done a s') :
    lexeme p (x ++ s') = .done a s' := by
  have hdone : p ((x ++ s).dropWhile isBlank) = .done a s := h
  obtain ⟨y, hy, hlen⟩ := hc _ _ _ hdone
  rw [lexeme_apply, dropWhile_elsewhere hy (List.length_pos_iff.mp hlen)]
  exact hp y (by rw [← hy, hdone])

theorem consumes_select : Consumes 1 (keyword "select") := (consumes_keyword (by decide)).mono (by decide)

/-- An item of the selection begins at `s`. -/
inductive AtomAt (text : List Char) : List Char → Prop where
  | first {w m s : List Char} {lead : Option Top} (select : lexeme (keyword "select") text = .done w m)
      (lead : optional (lexeme topModifier) m = .done lead s) : AtomAt text (s.dropWhile isBlank)
  | next {s r t : List Char} {a : Atom} {c : Char} (before : AtomAt text s) (item : atom s = .done a r)
      (comma : symbol ',' r = .done c t) : AtomAt text t

theorem AtomAt.exists_front {text s : List Char} (h : AtomAt text s) : ∃ front, text = front ++ s := by
  induction h with
  | @first w m s lead select top =>
    obtain ⟨x, rfl, -⟩ := consumes_select.lexeme _ _ _ select
    obtain ⟨y, rfl, -⟩ := (consumes_topModifier.lexeme.mono (Nat.zero_le 1)).optional _ _ _ top
    exact ⟨x ++ (y ++ s.takeWhile isBlank), by simp⟩
  | next _ item comma ih =>
    obtain ⟨x, rfl⟩ := ih
    obtain ⟨y, rfl, -⟩ := consumes_atom _ _ _ item
    obtain ⟨z, rfl, -⟩ := consumes_symbol ',' _ _ _ comma
    exact ⟨x ++ (y ++ z), by simp⟩

/-- No top modifier stands where an item does. -/
theorem misses_topModifier_of_atom {s r : List Char} {a : Atom} (h : atom s = .done a r) :
    (lexeme topModifier).Misses s := by
  rw [← skipsBlanks_atom] at h
  refine misses_topModifier fun word hword => ?_
  have hmem : word ∈ reservedWords ∧ word ∉ ["true", "false"] := by
    revert word
    decide
  exact wordOf_ne_of_atom h (List.dropWhile_idempotent _ _) hmem.1 hmem.2

/-- The top modifier, or none, is read again before an item that begins as before or breaks it off. -/
theorem lead_elsewhere {y s s' r : List Char} {lead : Option Top} {a : Atom}
    (h : optional (lexeme topModifier) (y ++ s) = .done lead s) (hs : Begins s s') (ha : atom s' = .done a r) :
    optional (lexeme topModifier) (y ++ s') = .done lead s' := by
  rcases optional_eq_done h with ⟨t, rfl, htop⟩ | ⟨rfl, hy, -⟩
  · exact optional_done (lexeme_elsewhere consumes_topModifier htop fun z hz => topModifier_elsewhere hz hs)
  · obtain rfl : y = [] := (List.append_left_inj s).mp hy.symm
    exact optional_of_misses (misses_topModifier_of_atom ha)

/-- A text whose items go on otherwise is read with items that mean the same, and its clauses end where they did. -/
theorem AtomAt.parts_done {text s : List Char} (h : AtomAt text s) {front s' c : List Char} {p : Parts}
    (htext : text = front ++ s) (hs : Rereads s s') (hparts : parts text = .done p c) : ∃ atoms,
      parts (front ++ s') = .done { p with atoms := atoms } c ∧
        atoms.map Atom.normalized = p.atoms.map Atom.normalized := by
  induction h generalizing front s' with
  | @first w m s lead select top =>
    obtain ⟨w', m', hselect, hbody⟩ := bind_eq_done hparts
    rw [select] at hselect
    cases hselect
    obtain ⟨lead', r, hlead, hbody⟩ := bind_eq_done hbody
    rw [top] at hlead
    cases hlead
    obtain ⟨atoms, k, hatoms, hbody⟩ := bind_eq_done hbody
    obtain ⟨w', k₁, hfrom, hbody⟩ := bind_eq_done hbody
    obtain ⟨source, k₂, hsource, hbody⟩ := bind_eq_done hbody
    obtain ⟨clauses, k₃, hclauses, hlast⟩ := bind_eq_done hbody
    cases hlast
    obtain ⟨atoms', k', hatoms', hk, hsame⟩ :=
      hs.items atoms k (by rwa [skipsBlanks_items]) (word_of_keyword (by decide) (s := k.dropWhile isBlank) hfrom)
    obtain ⟨x, rfl, -⟩ := consumes_select.lexeme _ _ _ select
    obtain ⟨y, rfl, -⟩ := (consumes_topModifier.lexeme.mono (Nat.zero_le 1)).optional _ _ _ top
    obtain ⟨run, hrun, hsplit⟩ : ∃ run, (∀ c ∈ run, isBlank c = true) ∧ s = run ++ s.dropWhile isBlank :=
      ⟨s.takeWhile isBlank, fun c hc => List.mem_takeWhile_imp hc, List.takeWhile_append_dropWhile.symm⟩
    obtain rfl : front = x ++ (y ++ run) :=
      List.append_cancel_right (htext.symm.trans (by rw [List.append_assoc, List.append_assoc, ← hsplit]))
    have hbegins : Begins s (run ++ s') := by
      conv => arg 1; rw [hsplit]
      exact hs.begins.append run
    have hselect' : lexeme (keyword "select") (x ++ (y ++ (run ++ s'))) = .done w (y ++ (run ++ s')) :=
      lexeme_elsewhere consumes_select select fun z hz =>
        (keyword_elsewhere (by decide) hz ((hbegins.append y).endsWord (keyword_eq_done (by decide) hz).2.2.2)).1
    have hitems : separated1 (symbol ',') atom (run ++ s') = .done atoms' k' := by
      rw [← skipsBlanks_items, List.dropWhile_append_of_pos hrun, skipsBlanks_items, hatoms']
    obtain ⟨a, r, bs, ha, -⟩ := separated1_eq_done hitems
    have hlead' := lead_elsewhere top hbegins ha
    refine ⟨atoms', ?_, hsame⟩
    have hfrom' : lexeme (keyword "from") k' = .done w' k₁ := by rw [← lexeme_dropWhile, hk, lexeme_dropWhile, hfrom]
    rw [List.append_assoc, List.append_assoc, parts, after_done hselect', bind_done hlead', bind_done hitems,
      bind_done hfrom', bind_done hsource,
      bind_done hclauses, pure_apply]
  | @next s r t a c before item comma ih =>
    obtain ⟨x, rfl⟩ := before.exists_front
    obtain ⟨y, rfl, -⟩ := consumes_atom _ _ _ item
    obtain ⟨z, rfl, -⟩ := consumes_symbol ',' _ _ _ comma
    obtain rfl : front = x ++ (y ++ z) := List.append_cancel_right (htext.symm.trans (by simp))
    have hcons := Rereads.cons (x := y ++ z) hs (by rw [List.append_assoc]; exact item) comma
    rw [List.append_assoc] at hcons
    obtain ⟨atoms, hdone, hsame⟩ := ih rfl hcons
    exact ⟨atoms, by rw [← hdone]; simp, hsame⟩

end Grammar
end SelectLang
