import EntityQuery.Data.SortedBy
import EntityQuery.Sql.Literal

namespace EntityQuery

structure Statement where
  sql : String
  bindings : List Value
  deriving DecidableEq

inductive RenderFault where
  | unresolvedAttributes
  | listParameter
  | listLiteral
  | emptyRow
  | raggedRow (index : Nat)
  deriving DecidableEq

def RenderFault.message : RenderFault → String
  | unresolvedAttributes => "attribute wildcard must be resolved before compilation"
  | listParameter => "list value bound as a scalar parameter"
  | listLiteral => "list values cannot be inlined into an insert"
  | emptyRow => "insert row has no columns"
  | raggedRow index =>
    "insert row " ++ String.ofList (Text.nat index) ++
      " does not match the columns of the first row"

def Value.literal (d : Dialect) : Value → Except RenderFault String
  | .scalar s => .ok (String.ofList (d.literal s))
  | .list _ => .error .listLiteral

/-- A part of a statement before a dialect writes it: names are not yet quoted, and values are not yet
placeholders or literals. What cannot be written stands among them as a fault. -/
inductive Fragment where
  | text (s : String)
  | name (s : String)
  | value (v : Value)
  | fault (e : RenderFault)

/-- How values get into a statement: beside it, or written into its text. Text with values in it is
for trusted input only. -/
inductive Style where
  | placeholders
  | inline
  deriving DecidableEq

/-- The text of a value before which `n` others were written. Lists are refused in either style. -/
def Style.param (style : Style) (d : Dialect) (n : Nat) (v : Value) :
    Except RenderFault (List Char) :=
  if v.isScalar then
    match style with
    | placeholders => .ok (d.placeholder (n + 1))
    | inline => String.toList <$> v.literal d
  else .error .listParameter

/-- The text of fragments before which `n` values were written, or what is wrong with the first of
them that cannot be written. -/
def write (d : Dialect) (style : Style) : Nat → List Fragment → Except RenderFault (List Char)
  | _, [] => .ok []
  | n, .text s :: rest => (s.toList ++ ·) <$> write d style n rest
  | n, .name s :: rest => (d.quote s.toList ++ ·) <$> write d style n rest
  | n, .value v :: rest => do
    let text ← style.param d n v
    (text ++ ·) <$> write d style (n + 1) rest
  | _, .fault e :: _ => .error e

def Fragment.value? : Fragment → Option Value
  | value v => some v
  | _ => none

def Statement.ofFragments (d : Dialect) (style : Style) (fs : List Fragment) :
    Except RenderFault Statement := do
  let text ← write d style 0 fs
  .ok {
    sql := String.ofList text
    bindings := match style with
      | .placeholders => fs.filterMap Fragment.value?
      | .inline => [] }

abbrev Row := SortedBy (Prod.fst : String × Value → String)

/-- The values of a row in parentheses, in the order of the row itself. The row has to have as many
columns as are given, and each of these. -/
def Row.fragments (columns : List String) (index : Nat) (row : Row) : List Fragment :=
  if row.keys.length = columns.length ∧ ∀ column ∈ columns, column ∈ row.keys then
    .text "(" :: [.text ", "].intercalate (row.toList.map fun cell => [.value cell.2]) ++
      [.text ")"]
  else [.fault (.raggedRow index)]

def insertFragments (table : String) (first : Row) (rows : List Row) : List Fragment :=
  if first.isEmpty then [.fault .emptyRow]
  else
    [.text "insert into ", .name table, .text " ("] ++
      [.text ", "].intercalate (first.keys.map fun column => [.name column]) ++
      [.text ") values "] ++
      [.text ", "].intercalate ((first :: rows).mapIdx fun i row => row.fragments first.keys i)

def insertStatement (d : Dialect) (style : Style) (table : String) :
    List Row → Except RenderFault (Option Statement)
  | [] => .ok none
  | first :: rows => some <$> Statement.ofFragments d style (insertFragments table first rows)

end EntityQuery
