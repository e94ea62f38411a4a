/-
# Words, marks and blanks

The small parsers that the grammar is put together from. Blanks are the space, the tab, the carriage
return and the newline. A keyword is compared in lower case and must not run on into a further
character of a word, so that `select` is not read off `selection`.

Key definitions: `isNameStart`, `isNameChar`, `Parser.keyword`, `Parser.lexeme`, `Parser.symbol`,
`Parser.parenthesized`, `Parser.quantity`, `Parser.termination`.
-/
import SelectLang.Text.Repetition
import SelectLang.Unicode.Alphabetic
import SelectLang.Unicode.Numeric
import SelectLang.Unicode.Case

namespace SelectLang

/-- Characters that may begin a name. -/
def isNameStart (c : Char) : Bool := Unicode.isAlphabetic c || c == '_'

/-- Characters that may stand in a name. -/
def isNameChar (c : Char) : Bool := Unicode.isAlphabetic c || Unicode.isNumeric c || c == '_'

/-- The four blanks of the language. -/
def isBlank (c : Char) : Bool := c == ' ' || c == '\t' || c == '\r' || c == '\n'

namespace Parser

variable {α : Type}

/-! ### Runs -/

/-- Any number of blanks. -/
def blanks : Parser (List Char) := takeWhile isBlank

/-- At least one blank. -/
def blanks1 : Parser (List Char) := takeWhile1 isBlank

/-- At least one of the digits `0` to `9`. -/
def digits : Parser (List Char) := takeWhile1 Char.isDigit

/-- Any number of ASCII letters and digits. -/
def alphanumerics : Parser (List Char) := takeWhile Char.isAlphanum

/-! ### Letters of either case -/

/-- The characters from the front of a text that fill `size` bytes, and the rest. -/
def splitBytes : Nat → List Char → List Char × List Char
  | _, [] => ([], [])
  | size, c :: s =>
    if c.utf8Size ≤ size then
      let (front, rest) := splitBytes (size - c.utf8Size) s
      (c :: front, rest)
    else ([], c :: s)

/-- The number of bytes of a text. -/
def utf8Length : List Char → Nat
  | [] => 0
  | c :: s => c.utf8Size + utf8Length s

/-- The characters are equal in lower case. -/
def sameLetter (a b : Char) : Bool := Unicode.lowercase a == Unicode.lowercase b

/-- The given text in any mix of cases. What is read is as many bytes as `t` has. -/
def literalAnyCase (t : List Char) : Parser (List Char) := fun s =>
  if (s.zip t).all (fun (a, b) => sameLetter a b) && utf8Length t ≤ utf8Length s then
    let (front, rest) := splitBytes (utf8Length t) s
    .done front rest
  else missAt s

/-- A word of the language, in any case, that does not run on. -/
def keyword (word : String) : Parser (List Char) :=
  (literalAnyCase word.toList).followedBy (absent (satisfy isNameChar))

/-- Keywords with blanks between them. -/
def keywords : List String → Parser Unit
  | [] => Parser.pure ()
  | [word] => do
    let _ ← keyword word
    pure ()
  | word :: words => do
    let _ ← keyword word
    let _ ← blanks1
    keywords words

/-! ### Blanks around -/

/-- Skips the blanks before `p`. -/
def lexeme (p : Parser α) : Parser α := blanks.after p

/-- A mark with any blanks around it. -/
def symbol (c : Char) : Parser Char := (blanks.after (char c)).followedBy blanks

/-- A mark of several characters with any blanks around it. -/
def symbols (s : String) : Parser (List Char) :=
  (blanks.after (literal s.toList)).followedBy blanks

/-- What stands in parentheses, with any blanks inside. -/
def parenthesized (p : Parser α) : Parser α :=
  ((symbol '(').after p).followedBy (lexeme (char ')'))

/-! ### Small tokens -/

/-- A quote of either kind. -/
def quote : Parser Char := firstOf [char '\'', char '"']

/-- Digits as a quantity of 64 bits. -/
def quantity : Parser UInt64 :=
  digits.filterMap fun ds =>
    let n := Nat.ofDigitChars 10 ds 0
    if n < UInt64.size then some (UInt64.ofNat n) else none

/-- The end of a statement: blanks and at most one semicolon. -/
def termination : Parser (Option Char) := lexeme (optional (char ';'))

end Parser
end SelectLang
