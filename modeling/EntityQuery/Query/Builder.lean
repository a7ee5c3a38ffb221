import EntityQuery.Query.AttributeJoins
import EntityQuery.Query.Filter
import EntityQuery.Sql.Render

namespace EntityQuery

structure SortRequest where
  code : String
  direction : Direction
  scope : SortScope
  deriving DecidableEq

inductive Phase where
  | unprocessed
  | processed
  | failed
  deriving DecidableEq

mutual

/-- A predicate on an attribute, or a query that was added as a group, with the codes which it referred
to at that time. -/
inductive Request where
  | test (connective : Connective) (code : String) (test : Test)
  | group (connective : Connective) (codes : CodeSet) (query : Builder)

/-- What has been asked of attributes, in the order of the calls. Attributes are named by code; where
they are stored is not known yet. -/
structure Buffer where
  hasConditions : Bool := false
  referenced : CodeSet := ∅
  requests : List Request := []
  sorts : List SortRequest := []

/-- A query under construction. What concerns columns goes into the base query at once. What concerns
attributes is buffered until the query is processed. -/
structure Builder where
  base : Select
  entity : Option EntityContext := none
  buffer : Buffer
  index : JoinIndex := ∅
  phase : Phase := .unprocessed
  naming : Naming := {}

end

def Request.connective : Request → Connective
  | test connective .. => connective
  | group connective .. => connective

def Request.code? : Request → Option String
  | test _ code _ => some code
  | group .. => none

/-- Whether a predicate never holds where a value is missing. A group counts as one that needs
values. -/
def Request.needsValue : Request → Bool
  | test _ _ t => t.needsValue
  | group .. => true

namespace Buffer

def addTest (b : Buffer) (connective : Connective) (code : String) (test : Test) : Buffer :=
  { b with
    hasConditions := true
    referenced := b.referenced.insert code
    requests := b.requests ++ [.test connective code test] }

def addGroup (b : Buffer) (connective : Connective) (query : Builder) : Buffer :=
  { b with
    hasConditions := true
    referenced := b.referenced.union query.buffer.referenced
    requests := b.requests ++ [.group connective query.buffer.referenced query] }

def addSort (b : Buffer) (sort : SortRequest) : Buffer :=
  { b with
    hasConditions := true
    referenced := b.referenced.insert sort.code
    sorts := b.sorts ++ [sort] }

end Buffer

namespace Builder

def ofSelect (base : Select) : Builder := { base, buffer := {} }

def ofEntity (d : Dialect) (e : EntityContext) : Builder :=
  { base := { dialect := d, table := e.table }, entity := some e, buffer := {} }

/-- An empty query with the same table, entity and names. A group is built on one of these. -/
def fresh (b : Builder) : Builder :=
  { base := b.base.fresh b.base.table, entity := b.entity, buffer := {}, naming := b.naming }

def filter (b : Builder) (connective : Connective) (code : String) (f : Filter) :
    Except QueryError Builder := do
  let test ← f.test
  .ok { b with buffer := b.buffer.addTest connective code test }

/-- Adds a query as a group. If it asks nothing of attributes, the group is one of columns; if it has
no clauses either, there is no group. -/
def addGroup (b : Builder) (connective : Connective) (child : Builder) : Builder :=
  if child.buffer.hasConditions then { b with buffer := b.buffer.addGroup connective child }
  else if child.base.conditions.isEmpty then b
  else { b with base := b.base.addCondition (.group connective child.base.conditions) }

def sortByAttribute (b : Builder) (code : String) (direction : Direction) : Builder :=
  { b with buffer := b.buffer.addSort { code, direction, scope := b.base.sortScope } }

/-- Sets the select list. The name of the wildcard stands for every attribute. -/
def select (b : Builder) (columns : List String) : Except QueryError Builder := do
  let items ← columns.mapM fun text =>
    if Text.trim text.toList = b.naming.wildcard.toList then .ok .attributes
    else (SelectItem.parse text).mapError QueryError.parse
  .ok { b with base := { b.base with items } }

def selectAttributes (b : Builder) (codes : List String) : Builder :=
  { b with base := { b.base with items := codes.map fun code => .column (.bare code) none } }

def filterColumn (b : Builder) (connective : Connective) (column : String) (f : ColumnFilter) :
    Except QueryError Builder := do
  let test ← f.test.mapError QueryError.parse
  let column ← (Column.parse column).mapError QueryError.parse
  .ok { b with base := b.base.addCondition (.test connective column test) }

def sortBy (b : Builder) (column : String) (direction : Direction) : Except QueryError Builder := do
  let column ← (Column.parse column).mapError QueryError.parse
  .ok { b with base := b.base.addSortKey b.base.sortScope { column, direction } }

/-- Orders by the timestamp column. Where the ordering is the query's own, the column is qualified,
so that it stays unambiguous beside joined tables. -/
def sortByTimestamp (b : Builder) (direction : Direction) : Except QueryError Builder := do
  let column ← (Column.parse b.naming.timestampColumn).mapError QueryError.parse
  let scope := b.base.sortScope
  let column :=
    if scope = .own ∧ column.table = none then .qualified b.base.table column.name else column
  .ok { b with base := b.base.addSortKey scope { column, direction } }

def limit (b : Builder) (n : Nat) : Builder := { b with base := { b.base with limit := some n } }

def offset (b : Builder) (n : Nat) : Builder := { b with base := { b.base with offset := some n } }

def insert (b : Builder) (style : Style) (rows : List Row) :
    Except QueryError (Option Statement) :=
  (insertStatement b.base.dialect style b.base.table rows).mapError QueryError.render

def insertText (b : Builder) (rows : List Row) : Except QueryError (Option String) :=
  (·.map Statement.sql) <$> b.insert .inline rows

end Builder

end EntityQuery
