/-
# Reading JSON

A text is first read by its form alone (`Json.Raw`), which asks of a number that it is well written,
of a string that its escapes are, and nothing of how deep the document goes. What a document means
is a second step, so that a reader who skips a part of a document need not care what it means: a
number may be too large, an escaped surrogate may lack its partner, a document may go too deep.

In an object with a repeated key the last value counts; the keys of a read object are ascending.

Key definitions: `Json.Raw`, `Json.Raw.parse?`, `Json.Raw.toJson?`, `Json.parse?`.
-/
import SelectLang.Json.Numeral
import SelectLang.Text.Ascending
import SelectLang.Text.Diagnostic
import SelectLang.Text.Lexeme

namespace SelectLang
namespace Json

/-- A document by its form. A string is `none` if its escapes do not make a text. -/
inductive Raw where
  | null
  | bool (value : Bool)
  | number (numeral : Numeral)
  | string (text : Option String)
  | array (items : List Raw)
  | object (fields : List (Option String × Raw))
deriving Repr, Inhabited

/-! ### Strings -/

/-- What a string is written with: a character as it stands, or sixteen bits of one. -/
inductive Piece where
  | char (c : Char)
  | unit (code : Nat)

/-- The text that the pieces make. A surrogate must be followed by its partner. -/
def Piece.assemble : List Piece → Option (List Char)
  | [] => some []
  | .char c :: rest => (assemble rest).map (c :: ·)
  | .unit high :: rest =>
    if 0xDC00 ≤ high ∧ high < 0xE000 then none
    else if 0xD800 ≤ high ∧ high < 0xDC00 then
      match rest with
      | .unit low :: rest =>
        if 0xDC00 ≤ low ∧ low < 0xE000 then
          (assemble rest).map
            (Char.ofNat (0x10000 + (high - 0xD800) * 0x400 + (low - 0xDC00)) :: ·)
        else none
      | _ => none
    else (assemble rest).map (Char.ofNat high :: ·)

/-- The number that a digit of base 16 denotes, in either letter case. -/
def hexDigit? (c : Char) : Option Nat :=
  if c.isDigit then some (c.toNat - '0'.toNat)
  else if 'a' ≤ c ∧ c ≤ 'f' then some (c.toNat - 'a'.toNat + 10)
  else if 'A' ≤ c ∧ c ≤ 'F' then some (c.toNat - 'A'.toNat + 10)
  else none

/-- The number that the digits of base 16 denote. -/
def hexValue? (ds : List Char) : Option Nat :=
  ds.foldlM (fun n d => (hexDigit? d).map (16 * n + ·)) 0

/-- The character that a letter behind a backslash stands for; `u` is read apart. -/
def escaped? : Char → Option Char
  | '"' => some '"'
  | '\\' => some '\\'
  | '/' => some '/'
  | 'b' => some '\x08'
  | 'f' => some '\x0c'
  | 'n' => some '\n'
  | 'r' => some '\r'
  | 't' => some '\t'
  | _ => none

/-- The pieces up to the closing quote, and the text behind it. -/
def pieces? : List Char → Option (List Piece × List Char)
  | [] => none
  | '"' :: rest => some ([], rest)
  | '\\' :: 'u' :: a :: b :: c :: d :: rest =>
    match hexValue? [a, b, c, d], pieces? rest with
    | some code, some (ps, behind) => some (.unit code :: ps, behind)
    | _, _ => none
  | '\\' :: e :: rest =>
    match escaped? e, pieces? rest with
    | some c, some (ps, behind) => some (.char c :: ps, behind)
    | _, _ => none
  | c :: rest =>
    if c.toNat < 0x20 || c == '\\' then none
    else (pieces? rest).map fun (ps, behind) => (.char c :: ps, behind)

namespace Read
open SelectLang.Parser

/-- A quoted string, and `none` in place of its text if there is a surrogate without its partner. -/
def string : Parser (Option String) := do
  let _ ← char '"'
  fun s =>
    match pieces? s with
    | some (ps, rest) => .done ((Piece.assemble ps).map String.ofList) rest
    | none => missAt s

/-! ### Numbers -/

/-- The digits before the point, which do not begin with a zero unless that is the only one. -/
def whole : Parser (List Char) :=
  firstOf [
    do let zero ← char '0'; pure [zero],
    digits]

/-- The exponent: is it negative, and its digits. -/
def exponent : Parser (Bool × List Char) := do
  let _ ← firstOf [char 'e', char 'E']
  let sign ← optional (firstOf [char '+', char '-'])
  let ds ← digits
  pure (sign == some '-', ds)

/-- A number as it is written. -/
def numeral : Parser Numeral := do
  let sign ← optional (char '-')
  let ds ← whole
  let places ← optional ((char '.').after digits)
  let e ← optional exponent
  pure ⟨sign.isSome, ds, places.getD [], e⟩

/-! ### Documents -/

/-- A word that means one document. -/
def word (text : String) (meaning : Raw) : Parser Raw := do
  let _ ← literal text.toList
  pure meaning

/-- A key, a colon and a document. -/
def field (inner : Parser Raw) : Parser (Option String × Raw) :=
  separatedPair (lexeme string) (symbol ':') inner

/-- One document over the inner ones. -/
def documentOver (inner : Parser Raw) : Parser Raw :=
  lexeme (firstOf [
    word "null" .null,
    word "true" (.bool true),
    word "false" (.bool false),
    do let n ← numeral; pure (.number n),
    do let s ← string; pure (.string s),
    do
      let _ ← char '['
      let items ← separated (lexeme (char ',')) inner
      let _ ← lexeme (char ']')
      pure (.array items),
    do
      let _ ← char '\x7b'
      let fields ← separated (lexeme (char ',')) (field inner)
      let _ ← lexeme (char '\x7d')
      pure (.object fields)])

/-- A document of any depth. -/
def document : Parser Raw := fix documentOver

end Read

/-- The form of a text that is one document. -/
def Raw.parse? (text : String) : Option Raw :=
  (Read.document.followedBy Parser.blanks).run text |>.toOption

/-! ### Meaning -/

mutual

/-- What a document means, if it goes at most `depth` arrays and objects deep. -/
def Raw.toJson? (depth : Nat) : Raw → Option Json
  | .null => some .null
  | .bool value => some (.bool value)
  | .number numeral => numeral.toJson?
  | .string text => text.map .string
  | .array items =>
    if depth = 0 then none else (Raw.itemsToJson? (depth - 1) items).map .array
  | .object fields =>
    if depth = 0 then none else (Raw.fieldsToJson? (depth - 1) [] fields).map .object

/-- The meaning of the items, if all of them have one. -/
def Raw.itemsToJson? (depth : Nat) : List Raw → Option (List Json)
  | [] => some []
  | item :: items =>
    match item.toJson? depth, Raw.itemsToJson? depth items with
    | some item, some items => some (item :: items)
    | _, _ => none

/-- The meaning of the fields, put into those that were read before. -/
def Raw.fieldsToJson? (depth : Nat) (read : List (String × Json)) :
    List (Option String × Raw) → Option (List (String × Json))
  | [] => some read
  | (key, value) :: fields =>
    match key, value.toJson? depth with
    | some key, some value => Raw.fieldsToJson? depth (insertSorted key value read) fields
    | _, _ => none

end

/-- How many arrays and objects may stand in one another. -/
def greatestDepth : Nat := 127

/-- The document that a text means, if the text is well formed and its numbers, strings and depth
are in range. -/
def parse? (text : String) : Option Json :=
  (Raw.parse? text).bind (Raw.toJson? greatestDepth)

end Json
end SelectLang
