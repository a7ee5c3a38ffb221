import EntityQuery.Sql.Condition
import EntityQuery.Text

namespace EntityQuery

inductive Dialect where
  | mysql
  | postgres
  | sqlite
  deriving DecidableEq

namespace Dialect

def quoteMark : Dialect → Char
  | mysql => '\x60'
  | postgres | sqlite => '\x22'

/-- A name between quote marks, each quote mark inside it written twice. -/
def quote (d : Dialect) (name : List Char) : List Char :=
  d.quoteMark :: name.flatMap (fun c => if c = d.quoteMark then [c, c] else [c]) ++ [d.quoteMark]

def placeholder (d : Dialect) (n : Nat) : List Char :=
  match d with
  | postgres => '$' :: Text.nat n
  | mysql | sqlite => ['?']

def comparison : Dialect → Operator → String
  | postgres, .nullSafeEq => "is not distinct from"
  | sqlite, .nullSafeEq => "is"
  | _, op => op.spelling

/-- The texts before and after a column that take a part of its date. -/
def datePart : Dialect → DatePart → String × String
  | mysql, .date => ("date(", ")")
  | mysql, .day => ("day(", ")")
  | mysql, .month => ("month(", ")")
  | mysql, .year => ("year(", ")")
  | postgres, .date => ("", "::date")
  | postgres, .day => ("extract(day from ", ")")
  | postgres, .month => ("extract(month from ", ")")
  | postgres, .year => ("extract(year from ", ")")
  | sqlite, .date => ("strftime('%Y-%m-%d', ", ")")
  | sqlite, .day => ("strftime('%d', ", ")")
  | sqlite, .month => ("strftime('%m', ", ")")
  | sqlite, .year => ("strftime('%Y', ", ")")

def dateOperand : Dialect → String × String
  | sqlite => ("cast(", " as text)")
  | mysql | postgres => ("", "")

end Dialect

end EntityQuery
