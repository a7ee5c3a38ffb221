namespace EntityQuery

inductive StorageType where
  | varchar
  | int
  | decimal
  | datetime
  | text
  deriving DecidableEq

def StorageType.name : StorageType → String
  | varchar => "varchar"
  | int => "int"
  | decimal => "decimal"
  | datetime => "datetime"
  | text => "text"

structure Entity where
  code : String
  table : String
  key : String := "id"
  deriving DecidableEq

def Entity.valueTable (e : Entity) (type : StorageType) : String := e.code ++ "_" ++ type.name

inductive Attribute where
  | static (code column : String) (type : StorageType)
  | dynamic (id : Int64) (code table : String) (type : StorageType)
  deriving DecidableEq

namespace Attribute

def code : Attribute → String
  | static code .. => code
  | dynamic _ code .. => code

def isDynamic : Attribute → Bool
  | static .. => false
  | dynamic .. => true

/-- A static attribute whose column has its code for a name. -/
def ofColumn (code : String) (type : StorageType) : Attribute := .static code code type

def ofEntity (e : Entity) (id : Int64) (code : String) (type : StorageType) : Attribute :=
  .dynamic id code (e.valueTable type) type

end Attribute

/-- The names in use: the entry of a select list that asks for every attribute, what follows a code in
the name of a join, and columns of value tables and base tables. -/
structure Naming where
  wildcard : String := "attr.*"
  labelSuffix : String := "_attr"
  valueColumn : String := "value"
  entityColumn : String := "entity_id"
  attributeColumn : String := "attribute_id"
  timestampColumn : String := "created_at"
  deriving DecidableEq

def Naming.label (n : Naming) (code : String) : String := code ++ n.labelSuffix

end EntityQuery
