/-
# Literals

A string stands between two quotes of one kind, holds no such quote and no newline, and knows no
escapes. A number is a float if it has a point, with digits on at least one side of it, and an
integer of 64 bits otherwise; a run of digits that is too long for that is no literal.

Key definitions: `Grammar.literal`.
-/
import SelectLang.Number.Word
import SelectLang.Syntax.Expr
import SelectLang.Text.Lexeme

namespace SelectLang
namespace Grammar
open SelectLang.Parser

/-- A string between quotes of the kind `q`. Once it is opened it must be closed. -/
def quoted (q : Char) : Parser String := do
  let _ ← char q
  let text ← commit ((Parser.takeWhile fun c => c != q && c != '\n').followedBy
    (expecting "closing quote" (char q)))
  pure (String.ofList text)

/-- A string between quotes of either kind. -/
def string : Parser String := firstOf [quoted '\'', quoted '"']

/-- `true` or `false`, in any letter case. -/
def boolean : Parser Bool :=
  firstOf [do let _ ← keyword "true"; pure true, do let _ ← keyword "false"; pure false]

/-- The digits before and after a point. -/
def pointed : Parser (List Char × List Char) :=
  firstOf [
    do
      let whole ← digits
      let _ ← char '.'
      let places ← optional digits
      pure (whole, places.getD []),
    do
      let _ ← char '.'
      let places ← digits
      pure ([], places)]

/-- The float nearest to the number that the digits on both sides of the point denote. -/
def float : Parser Binary64 := do
  let (whole, places) ← pointed
  pure (.ofDecimal false (Nat.ofDigitChars 10 (whole ++ places) 0) (-(places.length : Int)))

/-- Digits that denote a number of 64 bits; it has no sign. -/
def integer : Parser Int64 :=
  digits.filterMap fun ds => int64? (Nat.ofDigitChars 10 ds 0 : Nat)

/-- A float is tried before the integer that it may begin with. -/
def literal : Parser Literal :=
  firstOf [
    do let text ← string; pure (.string text),
    do let value ← boolean; pure (.boolean value),
    do let x ← float; pure (.float x),
    do let n ← integer; pure (.integer n)]

end Grammar
end SelectLang
