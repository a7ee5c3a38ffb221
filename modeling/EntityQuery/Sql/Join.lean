import EntityQuery.Sql.Column
import EntityQuery.Value

namespace EntityQuery

inductive JoinType where
  | inner
  | left
  deriving DecidableEq

namespace JoinType

def keyword : JoinType → String
  | inner => "inner"
  | left => "left"

/-- What two requests make together: one for an inner join decides. -/
def merge : JoinType → JoinType → JoinType
  | left, left => left
  | _, _ => inner

end JoinType

inductive JoinTest where
  | columns (left right : Column)
  | value (column : Column) (value : Value)
  deriving DecidableEq

structure Join where
  type : JoinType
  table : String
  label : Option String := none
  tests : List JoinTest := []
  deriving DecidableEq

def Join.reference (j : Join) : String := j.label.getD j.table

end EntityQuery
