/-
# Writing JSON

The text of a document, either without any blanks or spread over lines with two blanks to a level;
an array or object without members stays on one line. Strings are escaped only where they must be. A
number that is no integer has the fewest digits that read back to it, with an exponent from `1e+16`
up and below `0.00001`; one that is not finite is written `null`.

Key definitions: `Json.compact`, `Json.pretty`.
-/
import SelectLang.Json.Basic
import SelectLang.Number.Notation

namespace SelectLang
namespace Json

/-- Plain decimals from `0.00001` up to sixteen digits before the point, and exponents beyond. Where
two shortest texts are equally near, the one with the even digit is taken. -/
def numberFormat : NumberFormat := ⟨some (-5, 16), .even⟩

/-- A float that is not finite has no text of its own. -/
def writeFloat (x : Binary64) : String :=
  if x.isFinite then numberFormat.write x else "null"

/-- The digits of an integer, with its sign if it is negative. -/
def writeInt (n : Int) : String :=
  if n < 0 then "-" ++ Nat.repr n.natAbs else Nat.repr n.natAbs

/-- A character as it stands in a quoted string. -/
def escape (c : Char) : List Char :=
  match c with
  | '"' => ['\\', '"']
  | '\\' => ['\\', '\\']
  | '\x08' => ['\\', 'b']
  | '\x0c' => ['\\', 'f']
  | '\n' => ['\\', 'n']
  | '\r' => ['\\', 'r']
  | '\t' => ['\\', 't']
  | c =>
    if c.toNat < 0x20 then
      ['\\', 'u', '0', '0', Nat.digitChar (c.toNat / 16), Nat.digitChar (c.toNat % 16)]
    else [c]

/-- The text between quotes, with what must be escaped escaped. -/
def quote (text : String) : String :=
  String.ofList ('"' :: text.toList.flatMap escape ++ ['"'])

/-! ### Without blanks -/

mutual

/-- The text of a document without any blanks. -/
def compact : Json → String
  | null => "null"
  | bool true => "true"
  | bool false => "false"
  | integer n => writeInt n
  | float x => writeFloat x
  | string text => quote text
  | array items => "[" ++ compactItems items ++ "]"
  | object fields => "\x7b" ++ compactFields fields ++ "\x7d"

/-- The items of an array with commas between them. -/
def compactItems : List Json → String
  | [] => ""
  | [item] => item.compact
  | item :: next :: items => item.compact ++ "," ++ compactItems (next :: items)

/-- The fields of an object with commas between them. -/
def compactFields : List (String × Json) → String
  | [] => ""
  | [(key, value)] => quote key ++ ":" ++ value.compact
  | (key, value) :: next :: fields =>
    quote key ++ ":" ++ value.compact ++ "," ++ compactFields (next :: fields)

end

/-! ### Over lines -/

/-- A line break, and the blanks of the given level. -/
def lineBreak (level : Nat) : String := String.ofList ('\n' :: List.replicate (2 * level) ' ')

mutual

/-- The text of a document whose first line stands at the given level. -/
def prettyAt (level : Nat) : Json → String
  | null => "null"
  | bool true => "true"
  | bool false => "false"
  | integer n => writeInt n
  | float x => writeFloat x
  | string text => quote text
  | array [] => "[]"
  | array (item :: items) =>
    "[" ++ prettyItems (level + 1) (item :: items) ++ lineBreak level ++ "]"
  | object [] => "\x7b\x7d"
  | object (field :: fields) =>
    "\x7b" ++ prettyFields (level + 1) (field :: fields) ++ lineBreak level ++ "\x7d"

/-- The items of an array, each on lines of its own at the given level. -/
def prettyItems (level : Nat) : List Json → String
  | [] => ""
  | [item] => lineBreak level ++ prettyAt level item
  | item :: next :: items =>
    lineBreak level ++ prettyAt level item ++ "," ++ prettyItems level (next :: items)

/-- The fields of an object, each on lines of its own at the given level. -/
def prettyFields (level : Nat) : List (String × Json) → String
  | [] => ""
  | [(key, value)] => lineBreak level ++ quote key ++ ": " ++ prettyAt level value
  | (key, value) :: next :: fields =>
    lineBreak level ++ quote key ++ ": " ++ prettyAt level value ++ "," ++
      prettyFields level (next :: fields)

end

/-- The text of a document over lines. -/
def pretty (document : Json) : String := prettyAt 0 document

end Json
end SelectLang
