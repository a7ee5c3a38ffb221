import EntityQuery.Error

namespace EntityQuery

inductive Filter where
  | compare (operator : String) (value : Value)
  | between (low high : Value) (negated : Bool)
  | oneOf (values : List Value) (negated : Bool)
  | isNull (negated : Bool)
  | datePart (part : DatePart) (operator : String) (value : Value)

/-- A comparison, if the operator goes with the value: null is for the family of equality only, and a
list for the other operators only. -/
def Test.comparison (op : Operator) (value : Value) : Except PredicateFault Test :=
  if value.isNull && !op.isEquality then .error (.nullOperand op)
  else if !value.isScalar && op.isEquality then .error (.listOperand op)
  else .ok (.compare op value)

namespace Filter

/-- The test that a predicate stands for. A text that is no operator is taken for the value of an
equality; dates are compared with single values other than null. -/
def resolve : Filter → Except PredicateFault Test
  | compare text value =>
    match Operator.parse? text with
    | some op => Test.comparison op value
    | none => Test.comparison .eq (.string text)
  | between low high negated => .ok (.between low high negated)
  | oneOf values negated => .ok (.oneOf values negated)
  | isNull negated => .ok (.isNull negated)
  | datePart part text value =>
    match Operator.parse? text with
    | none => .error (.unknownDateOperator text)
    | some op =>
      if value.isNull || !value.isScalar then .error .dateOperand
      else .ok (.datePart part op value)

def test (f : Filter) : Except QueryError Test := f.resolve.mapError QueryError.predicate

end Filter

inductive ColumnFilter where
  | compare (operator : String) (value : Value)
  | oneOf (values : List Value)
  | isNull

def ColumnFilter.test : ColumnFilter → Except ParseError Test
  | compare text value => do
    let op ← Operator.parse text
    .ok (.compare op value)
  | oneOf values => .ok (.oneOf values false)
  | isNull => .ok (.isNull false)

end EntityQuery
