/-
# Parsers

A parser reads a value off the front of a text. Its reply is the value with the text that is left,
or a trouble, which says where reading failed and, if a rule has named it, what was expected there.
A trouble comes in two degrees: after a *miss* another way of reading may be tried, after a *stop*
none may. Nothing is consumed by a failure: whoever tries another way starts from the text it holds.

This file has the type and the parsers that do not repeat. `firstOf` reports, when every way misses,
the trouble that lies furthest into the text, and of level ones the last. `expecting` names what was
expected unless a rule further in has done so.

Key definitions: `Trouble`, `Reply`, `Parser`, `Parser.firstOf`, `Parser.commit`,
`Parser.expecting`, `Parser.fix`.
-/

namespace SelectLang

/-- Where a parser gave up, by the text that was left there, with what it expected and the text that
it found instead. -/
structure Trouble where
  rest : List Char
  expected : Option String
  found : List Char
deriving DecidableEq, Repr

namespace Trouble

/-- A trouble that finds the text that is left and expects nothing in particular. -/
def before (rest : List Char) : Trouble := ⟨rest, none, rest⟩

/-- The trouble further into the text; the second if they are level. -/
def furthest (a b : Trouble) : Trouble :=
  if b.rest.length ≤ a.rest.length then b else a

/-- Names what was expected, unless that is named already. -/
def label (t : Trouble) (what : String) : Trouble :=
  { t with expected := t.expected.or (some what) }

end Trouble

/-- What comes of reading: a value with the text that is left, or a trouble. -/
inductive Reply (α : Type) where
  | done (value : α) (rest : List Char)
  /-- Nothing was read; another way may be tried. -/
  | miss (trouble : Trouble)
  /-- Nothing was read, and no other way may be tried. -/
  | stop (trouble : Trouble)
deriving DecidableEq, Repr

/-- Reads a value off the front of a text. -/
def Parser (α : Type) : Type := List Char → Reply α

namespace Parser

variable {α β γ : Type}

/-- A miss that says nothing about what was expected. -/
def missAt (s : List Char) : Reply α := .miss (.before s)

/-! ### Sequence -/

/-- Reads nothing. -/
protected def pure (a : α) : Parser α := fun s => .done a s

/-- Reads by `p`, and what is left by the parser that `f` makes of the value. -/
protected def bind (p : Parser α) (f : α → Parser β) : Parser β := fun s =>
  match p s with
  | .done a rest => f a rest
  | .miss t => .miss t
  | .stop t => .stop t

instance : Monad Parser where
  pure := Parser.pure
  bind := Parser.bind

/-- Reads `before`, then what counts. -/
def after (before : Parser α) (p : Parser β) : Parser β := do
  let _ ← before
  p

/-- Reads what counts, then `behind`. -/
def followedBy (p : Parser α) (behind : Parser β) : Parser α := do
  let a ← p
  let _ ← behind
  pure a

/-- Two values, one after the other. -/
def both (p : Parser α) (q : Parser β) : Parser (α × β) := do
  let a ← p
  let b ← q
  pure (a, b)

/-- Two values with something between them that does not count. -/
def separatedPair (p : Parser α) (between : Parser β) (q : Parser γ) : Parser (α × γ) := do
  let a ← p
  let _ ← between
  let c ← q
  pure (a, c)

/-! ### Characters -/

/-- One accepted character. -/
def satisfy (accepts : Char → Bool) : Parser Char
  | [] => missAt []
  | c :: s => if accepts c then .done c s else missAt (c :: s)

/-- The given character, in its own case. -/
def char (c : Char) : Parser Char := satisfy (· == c)

/-- The longest run, possibly empty, of accepted characters. -/
def takeWhile (accepts : Char → Bool) : Parser (List Char) := fun s =>
  .done (s.takeWhile accepts) (s.dropWhile accepts)

/-- The longest run of accepted characters, at least one. -/
def takeWhile1 (accepts : Char → Bool) : Parser (List Char) := fun s =>
  match s.takeWhile accepts with
  | [] => missAt s
  | c :: cs => .done (c :: cs) (s.dropWhile accepts)

/-- The given text, letter for letter. -/
def literal (t : List Char) : Parser (List Char) := fun s =>
  if t.isPrefixOf s then .done t (s.drop t.length) else missAt s

/-- Nothing may be left. -/
def atEnd : Parser (List Char)
  | [] => .done [] []
  | c :: s => missAt (c :: s)

/-! ### Choice -/

/-- Tries `p`, and after a miss `q`. -/
def orElse (p q : Parser α) : Parser α := fun s =>
  match p s with
  | .miss t =>
    match q s with
    | .miss u => .miss (t.furthest u)
    | reply => reply
  | reply => reply

/-- The first parser that does not miss. -/
def firstOf : List (Parser α) → Parser α
  | [] => missAt
  | [p] => p
  | p :: ps => p.orElse (firstOf ps)

/-- What `p` reads, or nothing if it misses. -/
def optional (p : Parser α) : Parser (Option α) := fun s =>
  match p s with
  | .done a rest => .done (some a) rest
  | .miss _ => .done none s
  | .stop t => .stop t

/-! ### Looking without reading -/

/-- Succeeds, reading nothing, where `p` misses. -/
def absent (p : Parser α) : Parser Unit := fun s =>
  match p s with
  | .done _ _ => missAt s
  | .miss _ => .done () s
  | .stop t => .stop t

/-- The value that `p` would read. -/
def lookahead (p : Parser α) : Parser α := fun s =>
  match p s with
  | .done a _ => .done a s
  | reply => reply

/-- The text that is left, as it stands. -/
def here : Parser (List Char) := fun s => .done s s

/-! ### Results and troubles -/

/-- The stretch of text that `p` reads. -/
def consumed (p : Parser α) : Parser (List Char) := fun s =>
  match p s with
  | .done _ rest => .done (s.take (s.length - rest.length)) rest
  | .miss t => .miss t
  | .stop t => .stop t

/-- Reads by `p` what `f` accepts; a refusal counts as a miss where `p` began. -/
def filterMap (p : Parser α) (f : α → Option β) : Parser β := fun s =>
  match p s with
  | .done a rest =>
    match f a with
    | some b => .done b rest
    | none => missAt s
  | .miss t => .miss t
  | .stop t => .stop t

/-- From here on there is no other way of reading: a miss of `p` is a stop. -/
def commit (p : Parser α) : Parser α := fun s =>
  match p s with
  | .miss t => .stop t
  | reply => reply

/-- Names what is expected where `p` fails. -/
def expecting (what : String) (p : Parser α) : Parser α := fun s =>
  match p s with
  | .miss t => .miss (t.label what)
  | .stop t => .stop (t.label what)
  | reply => reply

/-! ### Recursion -/

/-- A rule that refers to itself. Inside, the rule is at hand for text shorter than the text that
the rule as a whole was given. -/
def fix (rule : Parser α → Parser α) (s : List Char) : Reply α :=
  rule (fun r => if _h : r.length < s.length then fix rule r else missAt r) s
termination_by s.length

end Parser
end SelectLang
