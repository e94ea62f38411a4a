/-
# Names

A name begins with a letter or an underscore and goes on with letters, numbers and underscores. The
words of the language are reserved, in any mix of ASCII cases. A path is names with dots between
them and no blanks.

Key definitions: `isReserved`, `Grammar.identifier`, `Grammar.namePath`.
-/
import SelectLang.Syntax.Expr
import SelectLang.Text.Lexeme

namespace SelectLang

/-- The words of the language. -/
def reservedWords : List String :=
  ["select", "from", "as", "order", "by", "limit", "offset", "paginated", "top", "first", "last",
    "one", "at", "true", "false", "asc", "ascending", "desc", "descending"]

/-- Reserved words are no names, whatever the case of their ASCII letters. -/
def isReserved (word : String) : Bool :=
  reservedWords.any fun reserved => reserved.toList == word.toList.map Char.toLower

namespace Grammar
open SelectLang.Parser

/-- The longest run of name characters, unless it is a reserved word. -/
def identifier : Parser String :=
  expecting "identifier"
    ((consumed (both (satisfy isNameStart) (Parser.takeWhile isNameChar))).filterMap fun word =>
      let name := String.ofList word
      if isReserved name then none else some name)

/-- One or more names with dots between them. -/
def namePath : Parser NamePath := do
  let segments ← separated1 (char '.') identifier
  pure ⟨segments⟩

end Grammar
end SelectLang
