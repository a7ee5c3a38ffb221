import EntityQuery.Sql.Dialect
import EntityQuery.Sql.Join

namespace EntityQuery

inductive Direction where
  | asc
  | desc
  deriving DecidableEq

namespace Direction

def keyword : Direction → String
  | asc => "asc"
  | desc => "desc"

/-- Ascending for `asc` in any case and with blanks around it, descending for every other text. -/
def ofText (text : String) : Direction :=
  if Text.lower (Text.trim text.toList) = ['a', 's', 'c'] then asc else desc

end Direction

structure SortKey where
  column : Column
  direction : Direction
  deriving DecidableEq

/-- What an ordering applies to: the rows of the query itself, or those of its union. -/
inductive SortScope where
  | own
  | union
  deriving DecidableEq

inductive UnionType where
  | distinct
  | all
  deriving DecidableEq

structure Select where
  dialect : Dialect
  table : String
  items : List SelectItem := []
  joins : List Join := []
  conditions : List Condition := []
  sortKeys : List SortKey := []
  unionSortKeys : List SortKey := []
  unions : List (UnionType × Select) := []
  limit : Option Nat := none
  offset : Option Nat := none

namespace Select

def fresh (q : Select) (table : String) : Select := { dialect := q.dialect, table }

def addJoin (q : Select) (j : Join) : Select := { q with joins := q.joins ++ [j] }

def addCondition (q : Select) (c : Condition) : Select :=
  { q with conditions := q.conditions ++ [c] }

def addSortKey (q : Select) (scope : SortScope) (key : SortKey) : Select :=
  match scope with
  | .own => { q with sortKeys := q.sortKeys ++ [key] }
  | .union => { q with unionSortKeys := q.unionSortKeys ++ [key] }

def addUnion (q : Select) (type : UnionType) (member : Select) : Select :=
  { q with unions := q.unions ++ [(type, member)] }

def sortScope (q : Select) : SortScope := if q.unions.isEmpty then .own else .union

end Select

end EntityQuery
