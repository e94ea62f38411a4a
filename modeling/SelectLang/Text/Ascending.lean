/-
# Entries in the order of their names

Key definitions: `insertSorted`.
-/

namespace SelectLang

/-- Puts an entry into entries whose names are ascending; it replaces the one of its name. -/
def insertSorted {α : Type} (name : String) (value : α) : List (String × α) → List (String × α)
  | [] => [(name, value)]
  | (key, old) :: entries =>
    match compare name key with
    | .lt => (name, value) :: (key, old) :: entries
    | .eq => (name, value) :: entries
    | .gt => (key, old) :: insertSorted name value entries

end SelectLang
