/-
# Naming

Names in scripts are written in camel case: underscores join words, of which all but the first get a
capital, and a run of capitals at the head is lowered (`ISBN` to `isbn`, `book_id` to `bookId`), but
not the capital that begins a further word (`URLValue` to `urlValue`).

A resolver member serves a source by its name: `get`, an optional underscore, the name of what it
serves, and perhaps `async` with an underscore before it, all in any case. The name is as short as
it can be, but not empty.

Key definitions: `camelCase`, `candidateName?`.
-/
import SelectLang.Unicode.Case

namespace SelectLang

/-! ### Camel case -/

/-- The pieces between the underscores that are not empty. -/
def words (name : List Char) : List (List Char) :=
  (name.splitOn '_').filter (!·.isEmpty)

/-- Lowers capitals up to the one that begins a further word. -/
def lowerRun : List Char → List Char
  | [] => []
  | [c] => if Unicode.isUppercase c then Unicode.lowercase c else [c]
  | c :: d :: rest =>
    if Unicode.isUppercase c && Unicode.isUppercase d then
      Unicode.lowercase c ++ lowerRun (d :: rest)
    else c :: d :: rest

/-- Lowers a first capital and the run of capitals behind it. -/
def lowerHead : List Char → List Char
  | [] => []
  | c :: rest =>
    if Unicode.isUppercase c then Unicode.lowercase c ++ lowerRun rest else c :: rest

/-- A word with its first letter in upper case. -/
def capitalize : List Char → List Char
  | [] => []
  | c :: rest => Unicode.uppercase c ++ rest

/-- The camel case of a name; a name of underscores only stays as it is. -/
def camelCase (name : String) : String :=
  match words name.toList with
  | [] => name
  | head :: rest => String.ofList (lowerHead head ++ rest.flatMap capitalize)

/-! ### Members -/

/-- Is `c` the lower-case letter `letter` in some case? The long `ſ` is an `s`. -/
def isLetter (letter c : Char) : Bool :=
  c.toLower == letter || (letter == 's' && c == 'ſ')

/-- Is the text the given word in some mix of cases? -/
def isWord (word : String) (s : List Char) : Bool :=
  s.length == word.toList.length && (word.toList.zip s).all fun (l, c) => isLetter l c

/-- What may follow the name: an optional underscore, and an optional `async`. -/
def isMemberEnding : List Char → Bool
  | [] => true
  | '_' :: rest => rest.isEmpty || isWord "async" rest
  | s => isWord "async" s

/-- The shortest front of the text, of at least one character, that leaves an ending. -/
def stem : List Char → List Char
  | [] => []
  | c :: rest => if isMemberEnding rest then [c] else c :: stem rest

/-- The name of the source that a member serves, if its name follows the convention. -/
def candidateName? (member : String) : Option String :=
  let s := member.toList
  let rest := s.drop 3
  if isWord "get" (s.take 3) && !rest.isEmpty && !rest.contains '\n' then
    let named := match rest with
      | '_' :: c :: more => c :: more
      | rest => rest
    some (camelCase (String.ofList (stem named)))
  else none

end SelectLang
