import EntityQuery.Sql.Operator
import EntityQuery.Sql.Statement

namespace EntityQuery

inductive PredicateFault where
  | nullOperand (operator : Operator)
  | listOperand (operator : Operator)
  | unknownDateOperator (text : String)
  | dateOperand
  deriving DecidableEq

def PredicateFault.message : PredicateFault → String
  | nullOperand op => "operator '" ++ op.spelling ++ "' cannot compare against null"
  | listOperand op => "operator '" ++ op.spelling ++ "' requires a scalar value"
  | unknownDateOperator text => "unknown date comparison operator '" ++ text ++ "'"
  | dateOperand => "date predicates compare against a scalar value"

inductive QueryError where
  | predicate (fault : PredicateFault)
  | unknownAttribute (entity code : String)
  | missingEntity
  | unknownEntity (code : String)
  | render (fault : RenderFault)
  | parse (fault : ParseError)
  deriving DecidableEq

def QueryError.message : QueryError → String
  | predicate fault => "invalid predicate: " ++ fault.message
  | unknownAttribute entity code =>
    "unknown attribute '" ++ code ++ "' on entity '" ++ entity ++ "'"
  | missingEntity => "attribute conditions require an entity context"
  | unknownEntity code => "metadata error: unknown entity type '" ++ code ++ "'"
  | render fault => "grammar error: " ++ fault.message
  | parse fault => "protocol error: " ++ fault.message

end EntityQuery
