import EntityQuery.Catalog.Registry
import EntityQuery.Sql.Join

namespace EntityQuery

structure JoinTypes where
  requested : Keyed (Prod.fst : String × JoinType → String) := ∅
  pinned : Keyed (Prod.fst : String × JoinType → String) := ∅
  deriving DecidableEq

namespace JoinTypes

def request (t : JoinTypes) (code : String) (type : JoinType) : JoinTypes :=
  { t with requested := t.requested.put (code, match t.requested.find? code with
    | some (_, known) => known.merge type
    | none => type) }

def pin (t : JoinTypes) (code : String) (type : JoinType) : JoinTypes :=
  { t with pinned := t.pinned.put (code, type) }

/-- The type for an attribute: the pinned one, else the requested one, else a left join. -/
def type (t : JoinTypes) (code : String) : JoinType :=
  match t.pinned.find? code, t.requested.find? code with
  | some (_, type), _ => type
  | none, some (_, type) => type
  | none, none => .left

end JoinTypes

/-- The join of an attribute that a query has: its name, the column with the value, and its type. -/
structure AttributeJoin where
  label : String
  column : Column
  type : JoinType
  deriving DecidableEq

abbrev JoinIndex := Keyed (Prod.fst : (String × String) × AttributeJoin → String × String)

namespace JoinIndex

def join? (index : JoinIndex) (code entity : String) : Option AttributeJoin :=
  (index.find? (code, entity)).map Prod.snd

end JoinIndex

/-- What joining goes by: the entity, the names in use, and the type of each join. -/
structure JoinRules where
  entity : Entity
  naming : Naming := {}
  types : JoinTypes := {}

def JoinRules.join (rules : JoinRules) (id : Int64) (code table : String) (type : JoinType) : Join :=
  let label := rules.naming.label code
  { type, table, label
    tests := [
      .columns (.qualified label rules.naming.entityColumn)
        (.qualified rules.entity.table rules.entity.key),
      .value (.qualified label rules.naming.attributeColumn) (.int id)] }

/-- Joins on their way into a query, beside the index that counts them in. -/
structure JoinStage where
  index : JoinIndex := ∅
  joins : List Join := []

namespace JoinStage

def retype (label : String) (type : JoinType) : List Join → List Join
  | [] => []
  | j :: rest => if j.reference = label then { j with type } :: rest else j :: retype label type rest

/-- The column of an attribute, with a join if it needs one. A join that is there already is used
again; a request for an inner join makes it one. -/
def add (rules : JoinRules) (a : Attribute) (type : JoinType) (s : JoinStage) :
    Column × JoinStage :=
  match a with
  | .static _ column _ => (.qualified rules.entity.table column, s)
  | .dynamic id code table _ =>
    match s.index.join? code rules.entity.code with
    | some known =>
      let merged := known.type.merge type
      if merged = known.type then (known.column, s)
      else
        (known.column,
          { index := s.index.put ((code, rules.entity.code), { known with type := merged })
            joins := retype known.label merged s.joins })
    | none =>
      let label := rules.naming.label code
      let column := .qualified label rules.naming.valueColumn
      (column,
        { index := s.index.put ((code, rules.entity.code), { label, column, type })
          joins := s.joins ++ [rules.join id code table type] })

def column (rules : JoinRules) (a : Attribute) (s : JoinStage) : Column × JoinStage :=
  s.add rules a (rules.types.type a.code)

/-- What is left when a query has taken the joins over. -/
def flush (s : JoinStage) : JoinStage := { index := s.index }

end JoinStage

end EntityQuery
