import EntityQuery.Text

namespace EntityQuery

inductive ParseError where
  | unknownOperator (text : String)
  | invalidColumn (text : String)
  deriving DecidableEq

def ParseError.message : ParseError → String
  | .unknownOperator text => "unknown operator: " ++ text
  | .invalidColumn text => "invalid column reference: " ++ text

inductive Operator where
  | eq | lt | gt | le | ge | ne | bangNe | nullSafeEq
  | like | notLike | ilike | notILike | rlike | regexp | notRegexp | similarTo | notSimilarTo
  | bitAnd | bitOr | bitXor | shiftLeft | shiftRight
  deriving DecidableEq

namespace Operator

def all : List Operator :=
  [eq, lt, gt, le, ge, ne, bangNe, nullSafeEq,
    like, notLike, ilike, notILike, rlike, regexp, notRegexp, similarTo, notSimilarTo,
    bitAnd, bitOr, bitXor, shiftLeft, shiftRight]

def spelling : Operator → String
  | eq => "="
  | lt => "<"
  | gt => ">"
  | le => "<="
  | ge => ">="
  | ne => "<>"
  | bangNe => "!="
  | nullSafeEq => "<=>"
  | like => "like"
  | notLike => "not like"
  | ilike => "ilike"
  | notILike => "not ilike"
  | rlike => "rlike"
  | regexp => "regexp"
  | notRegexp => "not regexp"
  | similarTo => "similar to"
  | notSimilarTo => "not similar to"
  | bitAnd => "&"
  | bitOr => "|"
  | bitXor => "^"
  | shiftLeft => "<<"
  | shiftRight => ">>"

/-- The operator that a text spells, in any case and with blanks around it. -/
def parse? (text : String) : Option Operator :=
  let word := Text.lower (Text.trim text.toList)
  all.find? fun op => op.spelling.toList = word

def parse (text : String) : Except ParseError Operator :=
  match parse? text with
  | some op => .ok op
  | none => .error (.unknownOperator text)

def isEquality : Operator → Bool
  | eq | ne | bangNe | nullSafeEq => true
  | _ => false

example : parse? " Not LIKE " = some notLike ∧ parse? "not  like" = none := by decide

end Operator

end EntityQuery
