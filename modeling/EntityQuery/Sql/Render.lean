import EntityQuery.Sql.Select
import EntityQuery.Sql.Statement

namespace EntityQuery

def Column.fragments (c : Column) : List Fragment :=
  match c.table with
  | some table => [.name table, .text ".", .name c.name]
  | none => [.name c.name]

def SelectItem.fragments : SelectItem → List Fragment
  | all => [.text "*"]
  | allOf table => [.name table, .text ".*"]
  | column c none => c.fragments
  | column c (some label) => c.fragments ++ [.text " as ", .name label]
  | attributes => [.fault .unresolvedAttributes]

def SelectItem.listFragments : List SelectItem → List Fragment
  | [] => [.text "*"]
  | items => [.text ", "].intercalate (items.map fragments)

def JoinTest.fragments : JoinTest → List Fragment
  | columns l r => l.fragments ++ [.text " = "] ++ r.fragments
  | value c v => c.fragments ++ [.text " = ", .value v]

def Join.fragments (j : Join) : List Fragment :=
  [.text (" " ++ j.type.keyword ++ " join "), .name j.table] ++
    (match j.label with
    | some label => [.text " as ", .name label]
    | none => []) ++
    (match j.tests with
    | [] => []
    | tests => .text " on " :: [.text " and "].intercalate (tests.map JoinTest.fragments))

/-- A test of a column. Equality with null becomes a test for null, and membership in nothing a
constant. -/
def Test.fragments (d : Dialect) (c : Column) : Test → List Fragment
  | compare .eq .null => c.fragments ++ [.text " is null"]
  | compare .ne .null | compare .bangNe .null => c.fragments ++ [.text " is not null"]
  | compare op v => c.fragments ++ [.text (" " ++ d.comparison op ++ " "), .value v]
  | between low high negated =>
    c.fragments ++ [.text (if negated then " not between " else " between "), .value low,
      .text " and ", .value high]
  | oneOf [] negated => [.text (if negated then "1 = 1" else "0 = 1")]
  | oneOf vs negated =>
    c.fragments ++ [.text (if negated then " not in (" else " in (")] ++
      [.text ", "].intercalate (vs.map fun v => [.value v]) ++ [.text ")"]
  | isNull negated => c.fragments ++ [.text (if negated then " is not null" else " is null")]
  | datePart part op v =>
    [.text (d.datePart part).1] ++ c.fragments ++
      [.text ((d.datePart part).2 ++ " " ++ op.spelling ++ " " ++ d.dateOperand.1), .value v,
        .text d.dateOperand.2]

namespace Condition

mutual

def fragments (d : Dialect) : Condition → List Fragment
  | test _ column t => t.fragments d column
  | group _ members => .text "(" :: levelFragments d true members ++ [.text ")"]

/-- The conditions of one level, hollow groups left out. The first one written goes without its
connective. -/
def levelFragments (d : Dialect) (first : Bool) : List Condition → List Fragment
  | [] => []
  | c :: rest =>
    if c.isHollow then levelFragments d first rest
    else
      (if first then [] else [.text (" " ++ c.connective.keyword ++ " ")]) ++ fragments d c ++
        levelFragments d false rest

end

def whereFragments (d : Dialect) (conditions : List Condition) : List Fragment :=
  if allHollow conditions then [] else .text " where " :: levelFragments d true conditions

end Condition

def SortKey.fragments (k : SortKey) : List Fragment :=
  k.column.fragments ++ [.text (" " ++ k.direction.keyword)]

def SortKey.listFragments : List SortKey → List Fragment
  | [] => []
  | keys => .text " order by " :: [.text ", "].intercalate (keys.map fragments)

def countFragments (keyword : String) : Option Nat → List Fragment
  | none => []
  | some n => [.text (keyword ++ String.ofList (Text.nat n))]

namespace Select

def bodyFragments (d : Dialect) (q : Select) : List Fragment :=
  .text "select " :: SelectItem.listFragments q.items ++ [.text " from ", .name q.table] ++
    q.joins.flatMap Join.fragments ++ Condition.whereFragments d q.conditions ++
    SortKey.listFragments q.sortKeys ++ countFragments " limit " q.limit ++
    countFragments " offset " q.offset

mutual

/-- The query with its union: each member in parentheses, then the orderings of the union. -/
def fragments (d : Dialect) : Select → List Fragment
  | q@{ unions, .. } =>
    if unions.isEmpty then q.bodyFragments d
    else
      .text "(" :: q.bodyFragments d ++ [.text ")"] ++ memberFragments d unions ++
        SortKey.listFragments q.unionSortKeys

def memberFragments (d : Dialect) : List (UnionType × Select) → List Fragment
  | [] => []
  | (type, member) :: rest =>
    .text (match type with
      | .distinct => " union ("
      | .all => " union all (") :: fragments d member ++ [.text ")"] ++ memberFragments d rest

end

def statement (q : Select) : Except RenderFault Statement :=
  Statement.ofFragments q.dialect .placeholders (q.fragments q.dialect)

end Select

end EntityQuery
