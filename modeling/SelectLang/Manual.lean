/-
# The manual

The manual has an overview, which lists its topics, and a page for each topic. A topic goes by one or
more names, in any case.

Key definitions: `Manual.Topic`, `Manual.Topic.ofName?`, `Manual.overview`, `Manual.Topic.page`.
-/
import SelectLang.Unicode.Case

namespace SelectLang
namespace Manual

/-- What there is a page about. -/
inductive Topic where
  | language
  | selection
  | expressions
  | modifiers
  | sources
  | errors
deriving DecidableEq, Repr

/-- The topic by one of its names, in any letter case. -/
def Topic.ofName? (name : String) : Option Topic :=
  match Unicode.lowered name with
  | "syntax" => some .language
  | "selection" | "select" | "columns" => some .selection
  | "expressions" | "expression" | "operators" | "ops" => some .expressions
  | "modifiers" | "modifier" | "clauses" => some .modifiers
  | "sources" | "source" | "schema" => some .sources
  | "errors" | "error" => some .errors
  | _ => none

/-! ### Pages -/

/-- The overview, which lists the pages. -/
def overviewLines : List String := [
  "SQLFACE DOCUMENTATION",
  "",
  "SqlFace is a small select language over named in-memory sources. A script is a",
  "sequence of select statements; each one reads every record of a source, projects",
  "columns, then orders, reduces and windows the rows.",
  "",
  "DOCUMENTATION CATEGORIES",
  "",
  "  syntax            Statements, names, literals, comments on whitespace and case",
  "  selection         Column lists, aliases, assignments and wildcards",
  "  expressions       Arithmetic, precedence, invocations and pipelines",
  "  modifiers         top/first/last/one, order by, offset, limit, paginated",
  "  sources           Declaring sources in a sources file for `sqlface run`",
  "  errors            Parse, schema, compile and execution failures",
  "",
  "QUICK REFERENCE",
  "",
  "  select * from books;                       Every column of every book",
  "  select title, price * 2 as double from books;",
  "  select top 3 title from books order by price desc;",
  "  select first title from books;",
  "  select * from books paginated on 2 by 10;",
  "",
  "Run 'sqlface doc <category>' for detailed documentation."]

/-- The page about scripts and their words. -/
def languageLines : List String := [
  "SYNTAX - Statements and Tokens",
  "",
  "STATEMENTS",
  "  A script holds zero or more select statements. Each statement ends with `;`",
  "  or with the end of the script.",
  "",
  "    select <selection> from <source> [clauses...];",
  "",
  "  Keywords are case-insensitive: SELECT, Select and select are the same.",
  "  Whitespace (spaces, tabs, newlines) separates tokens and is otherwise ignored.",
  "",
  "NAMES",
  "  Identifiers start with a letter or `_` and continue with letters, digits or `_`.",
  "  Dotted paths reach nested properties:   author.name",
  "  Reserved words cannot be identifiers:",
  "    select from as order by asc ascending desc descending",
  "    top first last one at offset limit paginated true false",
  "",
  "LITERALS",
  "  Strings     'single quoted' or \"double quoted\"; the opening quote closes it",
  "  Integers    42",
  "  Floats      3.14   2.   .5",
  "  Booleans    true  false",
  "",
  "RESULTS",
  "  Each statement produces one result keyed by the source name it selected from.",
  "  Selecting the same source twice in one script is an error."]

/-- The page about columns. -/
def selectionLines : List String := [
  "SELECTION - Columns",
  "",
  "A selection is a comma-separated list of atoms. Each atom yields one column,",
  "except a wildcard which yields one column per source property.",
  "",
  "WILDCARD",
  "  select * from books;",
  "  Expands to every property of the source, in declaration order.",
  "  A wildcard cannot be aliased.",
  "",
  "PROPERTY",
  "  select title from books;          column `title`",
  "  select author.name from books;    column `name`",
  "",
  "ALIAS",
  "  select price as cost from books;",
  "  cost = price                       assignment form, same meaning",
  "",
  "COMPUTED COLUMNS",
  "  select price * 2 from books;",
  "  Unnamed computed columns are called column1, column2, ... skipping any",
  "  name already used by another column.",
  "",
  "Column names must be unique within one statement."]

/-- The page about expressions. -/
def expressionLines : List String := [
  "EXPRESSIONS - Arithmetic and Calls",
  "",
  "OPERATORS",
  "  *  /  %          multiplicative, bind tighter",
  "  +  -             additive",
  "  Operators of the same precedence associate to the left.",
  "  Parentheses group:   (price + 1) * 2",
  "",
  "  Integer arithmetic is checked; overflow is an error. Division that does not",
  "  divide evenly yields a float. Dividing by zero is an error.",
  "  `+` on two strings concatenates them.",
  "",
  "INVOCATIONS AND PIPELINES",
  "  round(price, digits: 2)           positional and named parameters",
  "  price |> round                    pipes a value into a call target",
  "",
  "  Invocations and pipelines are parsed and rendered but cannot be compiled yet."]

/-- The page about the top modifiers and the clauses. -/
def modifierLines : List String := [
  "MODIFIERS - Ordering, Reduction and Windows",
  "",
  "Clauses follow the source name in any order; each may appear at most once.",
  "",
  "TOP",
  "  select top 5 * from books;        at most five rows",
  "  select first * from books;        the first row, or nothing",
  "  select last * from books;         the last row, or nothing",
  "  select one * from books;          the only row; more than one is an error",
  "  The top modifier may also trail the source:  select * from books top 5;",
  "",
  "ORDER BY",
  "  select * from books order by price desc, title;",
  "  Keys are property paths of the source or names of output columns.",
  "  Sorting is stable; ascending is the default.",
  "",
  "OFFSET, LIMIT, PAGINATED",
  "  select * from books offset 10 limit 5;",
  "  select * from books paginated on 2 by 10;   rows 11 to 20",
  "  Page and size start at 1.",
  "",
  "EVALUATION ORDER",
  "  project, order, top, offset, limit, paginated"]

/-- The page about sources files. -/
def sourceLines : List String := [
  "SOURCES - The Sources File",
  "",
  "`sqlface run --sources <file>` reads a JSON document describing sources:",
  "",
  "  \x7b",
  "    \"sources\": [",
  "      \x7b",
  "        \"name\": \"Book\",",
  "        \"fields\": [",
  "          \x7b \"accessor\": \"bookId\", \"type\": \"integer\" \x7d,",
  "          \x7b \"accessor\": \"title\",  \"type\": \"string\" \x7d,",
  "          \x7b \"accessor\": \"tags\",   \"type\": [\"string\"] \x7d,",
  "          \x7b \"accessor\": \"author\", \"type\": \x7b \"name\": \"Author\", \"fields\": [",
  "              \x7b \"accessor\": \"name\", \"type\": \"string\" \x7d ] \x7d \x7d",
  "        ],",
  "        \"records\": [ \x7b \"bookId\": 1, \"title\": \"Dune\", \"tags\": [], \"author\": \x7b \"name\": \"Herbert\" \x7d \x7d ]",
  "      \x7d",
  "    ]",
  "  \x7d",
  "",
  "NAMING",
  "  A source answers to its camel-cased name and plural: Book -> book, books.",
  "  Queries name properties camel-cased: an accessor `BookId` is selected as",
  "  `bookId`. Records are read by the accessor exactly as declared.",
  "",
  "FIELD TYPES",
  "  string  boolean  number  integer  decimal",
  "  [\"<type>\"]                        a list of that type",
  "  \x7b \"name\": ..., \"fields\": [...] \x7d  a nested shape",
  "",
  "A source without records is known to the schema but cannot be queried."]

/-- The page about what may fail. -/
def errorLines : List String := [
  "ERRORS - What Can Go Wrong",
  "",
  "A script stops at its first failure; no partial results are returned.",
  "",
  "PARSE",
  "  Reported with line, column and what was expected.",
  "    Parse error: expected `from`, found `books` at line 1, column 16",
  "",
  "SCHEMA",
  "  Unknown source        no source answers to the name",
  "  Unsupported shape     the source is not a list of records",
  "  Missing resolver      nothing can produce the source's records",
  "",
  "COMPILE",
  "  Unknown reference     a column or ordering names a missing property",
  "  Duplicate output      two columns share a name",
  "  Invalid pagination    page or size below 1",
  "  Not supported         invocations, pipelines, `at`, percentages",
  "  Multiple results      `one` found more than one row",
  "",
  "EXECUTION",
  "  Resolver failures, non-list resolver results, arithmetic errors and",
  "  selecting the same source twice."]

/-- The page of a topic. -/
def Topic.lines : Topic → List String
  | language => languageLines
  | selection => selectionLines
  | expressions => expressionLines
  | modifiers => modifierLines
  | sources => sourceLines
  | errors => errorLines

/-- The text with each of the lines ended. -/
def ended (lines : List String) : String := String.join (lines.map (· ++ "\n"))

/-- The text of the overview. -/
def overview : String := ended overviewLines

/-- The text of a page. -/
def Topic.page (topic : Topic) : String := ended topic.lines

end Manual
end SelectLang
