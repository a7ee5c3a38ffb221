import EntityQuery.Sql.Operator

namespace EntityQuery

structure Column where
  table : Option String
  name : String
  deriving DecidableEq

namespace Column

def bare (name : String) : Column := ⟨none, name⟩

def qualified (table name : String) : Column := ⟨some table, name⟩

def text (c : Column) : String :=
  match c.table with
  | some table => table ++ "." ++ c.name
  | none => c.name

/-- Reads `column` or `table.column`, cut at the first point. -/
def parse (text : String) : Except ParseError Column :=
  let word := Text.trim text.toList
  match Text.splitAtChar? '.' word with
  | some (table, name) =>
    if table.isEmpty || name.isEmpty then .error (.invalidColumn (String.ofList word))
    else .ok (qualified (String.ofList table) (String.ofList name))
  | none =>
    if word.isEmpty then .error (.invalidColumn (String.ofList word))
    else .ok (bare (String.ofList word))

end Column

/-- An entry of a select list. The attribute marker asks for every attribute of an entity, and has
to be resolved before the query is rendered. -/
inductive SelectItem where
  | all
  | allOf (table : String)
  | column (column : Column) (label : Option String)
  | attributes
  deriving DecidableEq

namespace SelectItem

/-- Reads `*`, `table.*`, a column, or `column as label`. -/
def parse (text : String) : Except ParseError SelectItem :=
  let word := Text.trim text.toList
  if word = ['*'] then .ok .all
  else match Text.dropEnd? ['.', '*'] word with
  | some table =>
    if table.isEmpty then .error (.invalidColumn (String.ofList word))
    else .ok (.allOf (String.ofList table))
  | none =>
    match Text.splitAtWord? [' ', 'a', 's', ' '] word with
    | some (before, after) => do
      let column ← Column.parse (String.ofList before)
      let label := Text.trim after
      if label.isEmpty then .error (.invalidColumn (String.ofList word))
      else .ok (.column column (some (String.ofList label)))
    | none => do
      let column ← Column.parse (String.ofList word)
      .ok (.column column none)

example : (parse " price AS cost ").toOption = some (column (.bare "price") (some "cost")) := by
  decide

example : (parse "a.b.c").toOption = some (column (.qualified "a" "b.c") none) := by decide

end SelectItem

end EntityQuery
