import EntityQuery.Sql.Column
import EntityQuery.Sql.Operator
import EntityQuery.Value

namespace EntityQuery

inductive Connective where
  | and
  | or
  deriving DecidableEq

def Connective.keyword : Connective → String
  | .and => "and"
  | .or => "or"

/-- The part of a date that a test looks at; `date` is the date without the time of day. -/
inductive DatePart where
  | date
  | day
  | month
  | year
  deriving DecidableEq

inductive Test where
  | compare (operator : Operator) (value : Value)
  | between (low high : Value) (negated : Bool)
  | oneOf (values : List Value) (negated : Bool)
  | isNull (negated : Bool)
  | datePart (part : DatePart) (operator : Operator) (value : Value)
  deriving DecidableEq

/-- Whether a test is taken to pass only rows with a value in its column. -/
def Test.needsValue : Test → Bool
  | .compare .eq .null | .compare .nullSafeEq .null => false
  | .isNull negated => negated
  | _ => true

inductive Condition where
  | test (connective : Connective) (column : Column) (test : Test)
  | group (connective : Connective) (members : List Condition)

namespace Condition

def connective : Condition → Connective
  | test connective .. => connective
  | group connective _ => connective

mutual

/-- A group that holds no test, at any depth. -/
def isHollow : Condition → Bool
  | test .. => false
  | group _ members => allHollow members

def allHollow : List Condition → Bool
  | [] => true
  | c :: rest => c.isHollow && allHollow rest

end

end Condition

end EntityQuery
