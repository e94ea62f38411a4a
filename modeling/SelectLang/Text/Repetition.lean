/-
# Repetition

Parsers that read something as often as it is there. A repetition ends at the first miss and gives
what was read until then; a stop ends it as a failure. A round that succeeds without reading
anything would go on for ever, so it is refused as a miss.

In a separated list the separator must read something. If what follows a separator misses, the list
ends before that separator.

Key definitions: `Parser.many`, `Parser.many1`, `Parser.separated`, `Parser.separated1`,
`Parser.foldMany`.
-/
import SelectLang.Text.Parser

namespace SelectLang
namespace Parser

variable {α β σ : Type}

/-- As many elements as there are. -/
def many (p : Parser α) (s : List Char) : Reply (List α) :=
  match p s with
  | .done a rest =>
    if _h : rest.length < s.length then
      match many p rest with
      | .done as last => .done (a :: as) last
      | .miss t => .miss t
      | .stop t => .stop t
    else missAt s
  | .miss _ => .done [] s
  | .stop t => .stop t
termination_by s.length

/-- One or more elements. -/
def many1 (p : Parser α) : Parser (List α) := do
  let a ← p
  let as ← many p
  pure (a :: as)

/-- The elements that follow a first one, each after a separator. -/
def separatedTail (separator : Parser σ) (p : Parser α) (s : List Char) : Reply (List α) :=
  match separator s with
  | .done _ between =>
    if between.length < s.length then
      match p between with
      | .done a rest =>
        if _h : rest.length < s.length then
          match separatedTail separator p rest with
          | .done as last => .done (a :: as) last
          | .miss t => .miss t
          | .stop t => .stop t
        else missAt s
      | .miss _ => .done [] s
      | .stop t => .stop t
    else missAt between
  | .miss _ => .done [] s
  | .stop t => .stop t
termination_by s.length

/-- One or more elements with separators between them. -/
def separated1 (separator : Parser σ) (p : Parser α) : Parser (List α) := do
  let a ← p
  let as ← separatedTail separator p
  pure (a :: as)

/-- Any number of elements with separators between them. -/
def separated (separator : Parser σ) (p : Parser α) : Parser (List α) := fun s =>
  match p s with
  | .done a rest =>
    match separatedTail separator p rest with
    | .done as last => .done (a :: as) last
    | .miss t => .miss t
    | .stop t => .stop t
  | .miss _ => .done [] s
  | .stop t => .stop t

/-- Reads by `p` as often as it can and gathers the values from the left. -/
def foldMany (p : Parser α) (start : β) (step : β → α → β) : Parser β := do
  let as ← many p
  pure (as.foldl step start)

end Parser
end SelectLang
