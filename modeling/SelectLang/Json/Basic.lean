/-
# JSON documents

A document as a tree. The fields of an object keep their order. A number is an integer or a binary
number, and the two are told apart even where they are equal.

Key definitions: `Json`.
-/
import SelectLang.Number.Binary64

namespace SelectLang

/-- A document. Nothing is asked of the keys of an object, which may be repeated. -/
inductive Json where
  | null
  | bool (value : Bool)
  | integer (value : Int)
  | float (value : Binary64)
  | string (text : String)
  | array (items : List Json)
  | object (fields : List (String × Json))
deriving BEq, Repr, Inhabited

end SelectLang
