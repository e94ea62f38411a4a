/-
# Positions in a text

A position counts lines from 1 by newlines, columns from 1 by characters, and offsets from 0 by the
bytes of the UTF-8 form. `Position.after` gives the position that stands right after a stretch of
text.

Key definitions: `Position`, `Position.advance`, `Position.after`.
-/

namespace SelectLang

/-- A place between two characters. -/
structure Position where
  line : Nat
  column : Nat
  offset : Nat
deriving DecidableEq, Repr

namespace Position

/-- The place before the first character. -/
def start : Position := ⟨1, 1, 0⟩

/-- The position one character further on. -/
def advance (p : Position) (c : Char) : Position :=
  if c = '\n' then ⟨p.line + 1, 1, p.offset + c.utf8Size⟩
  else ⟨p.line, p.column + 1, p.offset + c.utf8Size⟩

/-- The place behind a stretch of text that begins at the start. -/
def after (passed : List Char) : Position :=
  passed.foldl advance start

end Position
end SelectLang
