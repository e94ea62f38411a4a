/-
# Diagnostics

What is told about a text that could not be read: where reading failed, what was expected there and
what was found instead. What was found is the rest of the line, at most 24 characters of it, without
the white space at its end.

Key definitions: `Diagnostic`, `Parser.run`.
-/
import SelectLang.Text.Parser
import SelectLang.Text.Position
import SelectLang.Unicode.WhiteSpace

namespace SelectLang

/-- What is told of a text that could not be read. -/
structure Diagnostic where
  position : Position
  /-- What was expected and what was found, without the position. -/
  finding : String
deriving DecidableEq, Repr

namespace Diagnostic

/-- How the text that was found is shown. -/
def shown : List Char → String
  | [] => "end of input"
  | rest =>
    let snippet := (rest.takeWhile (· != '\n')).take 24
    "`" ++ String.ofList (Unicode.trimEnd snippet) ++ "`"

/-- A trouble, told of the text in which it came up. -/
def ofTrouble (text : List Char) (t : Trouble) : Diagnostic where
  position := Position.after (text.take (text.length - t.rest.length))
  finding :=
    match t.expected with
    | some what => "expected " ++ what ++ ", found " ++ shown t.found
    | none => "unexpected " ++ shown t.found

/-- The finding and the place; the offset is left out. -/
def message (d : Diagnostic) : String :=
  d.finding ++ " at line " ++ toString d.position.line ++ ", column " ++ toString d.position.column

end Diagnostic

namespace Parser

variable {α : Type}

/-- The whole text, or a miss at what is left of it. -/
def whole (p : Parser α) : Parser α := fun s =>
  match p s with
  | .done a [] => .done a []
  | .done _ (c :: rest) => missAt (c :: rest)
  | reply => reply

/-- Reads the whole of `text` by `p`. -/
def run (p : Parser α) (text : String) : Except Diagnostic α :=
  match whole p text.toList with
  | .done a _ => .ok a
  | .miss t => .error (.ofTrouble text.toList t)
  | .stop t => .error (.ofTrouble text.toList t)

end Parser
end SelectLang
