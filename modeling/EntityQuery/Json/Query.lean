import EntityQuery.Catalog.Attribute
import EntityQuery.Json.Value
import EntityQuery.Sql.Select
import EntityQuery.Sql.Statement

namespace EntityQuery.Json

instance : Codec Operator := .ofNames Operator.all fun
  | .eq => "Eq"
  | .lt => "Lt"
  | .gt => "Gt"
  | .le => "Le"
  | .ge => "Ge"
  | .ne => "Ne"
  | .bangNe => "BangNe"
  | .nullSafeEq => "NullSafeEq"
  | .like => "Like"
  | .notLike => "NotLike"
  | .ilike => "ILike"
  | .notILike => "NotILike"
  | .rlike => "RLike"
  | .regexp => "Regexp"
  | .notRegexp => "NotRegexp"
  | .similarTo => "SimilarTo"
  | .notSimilarTo => "NotSimilarTo"
  | .bitAnd => "BitAnd"
  | .bitOr => "BitOr"
  | .bitXor => "BitXor"
  | .shiftLeft => "ShiftLeft"
  | .shiftRight => "ShiftRight"

instance : Codec Connective := .ofNames [.and, .or] fun
  | .and => "And"
  | .or => "Or"

instance : Codec DatePart := .ofNames [.date, .day, .month, .year] fun
  | .date => "Date"
  | .day => "Day"
  | .month => "Month"
  | .year => "Year"

instance : Codec Direction := .ofNames [.asc, .desc] fun
  | .asc => "Asc"
  | .desc => "Desc"

instance : Codec SortScope := .ofNames [.own, .union] fun
  | .own => "Primary"
  | .union => "Union"

instance : Codec JoinType := .ofNames [.inner, .left] fun
  | .inner => "Inner"
  | .left => "Left"

instance : Codec StorageType := .ofNames [.varchar, .int, .decimal, .datetime, .text] fun
  | .varchar => "Varchar"
  | .int => "Int"
  | .decimal => "Decimal"
  | .datetime => "Datetime"
  | .text => "Text"

instance : Codec Dialect := .ofNames [.mysql, .postgres, .sqlite] fun
  | .mysql => "MySql"
  | .postgres => "Postgres"
  | .sqlite => "Sqlite"

instance : Codec Column where
  encode c := object [("table", encode c.table), ("name", encode c.name)]
  decode? j := do
    let [table, name] ← fields? ["table", "name"] j | none
    some { table := ← optional? table, name := ← required? name }

instance : Codec SelectItem where
  encode
    | .all => string "All"
    | .allOf table => variant "TableAll" (encode table)
    | .column column label =>
      variant "Column" (object [("column", encode column), ("alias", encode label)])
    | .attributes => string "AttributeWildcard"
  decode? j :=
    match variant? j with
    | some ("All", none) | some ("All", some null) => some .all
    | some ("AttributeWildcard", none) | some ("AttributeWildcard", some null) => some .attributes
    | some ("TableAll", some table) => .allOf <$> decode? table
    | some ("Column", some j) => do
      let [column, label] ← fields? ["column", "alias"] j | none
      some (.column (← required? column) (← optional? label))
    | _ => none

instance : Codec SortKey where
  encode k := object [("column", encode k.column), ("direction", encode k.direction)]
  decode? j := do
    let [column, direction] ← fields? ["column", "direction"] j | none
    some { column := ← required? column, direction := ← required? direction }

def encodeTest (connective : Connective) (column : Column) : Test → Json
  | .compare op v =>
    variant "Basic" (object [("column", encode column), ("operator", encode op),
      ("value", encode v), ("boolean", encode connective)])
  | .between low high negated =>
    variant "Between" (object [("column", encode column), ("low", encode low),
      ("high", encode high), ("boolean", encode connective), ("not", encode negated)])
  | .oneOf values negated =>
    variant "In" (object [("column", encode column), ("values", encode values),
      ("boolean", encode connective), ("not", encode negated)])
  | .isNull negated =>
    variant "Null" (object [("column", encode column), ("boolean", encode connective),
      ("not", encode negated)])
  | .datePart part op v =>
    variant "Date" (object [("part", encode part), ("column", encode column),
      ("operator", encode op), ("value", encode v), ("boolean", encode connective)])

def decodeTest? (j : Json) : Option Condition :=
  match variant? j with
  | some ("Basic", some j) => do
    let [column, op, v, connective] ← fields? ["column", "operator", "value", "boolean"] j | none
    some (.test (← required? connective) (← required? column)
      (.compare (← required? op) (← required? v)))
  | some ("Between", some j) => do
    let [column, low, high, connective, negated] ←
      fields? ["column", "low", "high", "boolean", "not"] j | none
    some (.test (← required? connective) (← required? column)
      (.between (← required? low) (← required? high) (← required? negated)))
  | some ("In", some j) => do
    let [column, values, connective, negated] ← fields? ["column", "values", "boolean", "not"] j
      | none
    some (.test (← required? connective) (← required? column)
      (.oneOf (← required? values) (← required? negated)))
  | some ("Null", some j) => do
    let [column, connective, negated] ← fields? ["column", "boolean", "not"] j | none
    some (.test (← required? connective) (← required? column) (.isNull (← required? negated)))
  | some ("Date", some j) => do
    let [part, column, op, v, connective] ←
      fields? ["part", "column", "operator", "value", "boolean"] j | none
    some (.test (← required? connective) (← required? column)
      (.datePart (← required? part) (← required? op) (← required? v)))
  | _ => none

mutual

def encodeCondition : Condition → Json
  | .test connective column t => encodeTest connective column t
  | .group connective members =>
    variant "Nested" (object [("clauses", array (encodeConditions members)),
      ("boolean", encode connective)])

def encodeConditions : List Condition → List Json
  | [] => []
  | c :: rest => encodeCondition c :: encodeConditions rest

end

mutual

def decodeCondition? : Json → Option Condition
  | object [(name, payload)] =>
    if name = "Nested" then decodeGroup? payload else decodeTest? (object [(name, payload)])
  | _ => none

def decodeGroup? : Json → Option Condition
  | array [array items, connective] => do
    let members ← decodeConditions? items
    some (.group (← decode? connective) members)
  | object given => do
    let [_, connective] ← objectFields? ["clauses", "boolean"] given | none
    let members ← decodeClauses? given
    some (.group (← required? connective) members)
  | _ => none

def decodeClauses? : List (String × Json) → Option (List Condition)
  | [] => none
  | (name, array items) :: rest =>
    if name = "clauses" then decodeConditions? items else decodeClauses? rest
  | (name, _) :: rest => if name = "clauses" then none else decodeClauses? rest

def decodeConditions? : List Json → Option (List Condition)
  | [] => some []
  | j :: rest => do
    let c ← decodeCondition? j
    let members ← decodeConditions? rest
    some (c :: members)

end

instance : Codec Condition := ⟨encodeCondition, decodeCondition?⟩

instance : Codec JoinTest where
  encode
    | .columns left right =>
      variant "Columns" (object [("left", encode left), ("right", encode right)])
    | .value column v => variant "Value" (object [("column", encode column), ("value", encode v)])
  decode? j :=
    match variant? j with
    | some ("Columns", some j) => do
      let [left, right] ← fields? ["left", "right"] j | none
      some (.columns (← required? left) (← required? right))
    | some ("Value", some j) => do
      let [column, v] ← fields? ["column", "value"] j | none
      some (.value (← required? column) (← required? v))
    | _ => none

instance : Codec Join where
  encode j := object [("kind", encode j.type), ("table", encode j.table), ("alias", encode j.label),
    ("conditions", encode j.tests)]
  decode? j := do
    let [type, table, label, tests] ← fields? ["kind", "table", "alias", "conditions"] j | none
    some {
      type := ← required? type, table := ← required? table, label := ← optional? label
      tests := ← required? tests }

instance : Codec Statement where
  encode s := object [("sql", encode s.sql), ("bindings", encode s.bindings)]
  decode? j := do
    let [sql, bindings] ← fields? ["sql", "bindings"] j | none
    some { sql := ← required? sql, bindings := ← required? bindings }

instance : Codec Entity where
  encode e := object [("code", encode e.code), ("table", encode e.table),
    ("key_column", encode e.key)]
  decode? j := do
    let [code, table, key] ← fields? ["code", "table", "key_column"] j | none
    some { code := ← required? code, table := ← required? table, key := ← required? key }

instance : Codec Attribute where
  encode
    | .static code column type =>
      variant "Static" (object [("code", encode code), ("column", encode column),
        ("sql_type", encode type)])
    | .dynamic id code table type =>
      variant "Dynamic" (object [("id", encode id), ("code", encode code), ("table", encode table),
        ("sql_type", encode type)])
  decode? j :=
    match variant? j with
    | some ("Static", some j) => do
      let [code, column, type] ← fields? ["code", "column", "sql_type"] j | none
      some (.static (← required? code) (← required? column) (← required? type))
    | some ("Dynamic", some j) => do
      let [id, code, table, type] ← fields? ["id", "code", "table", "sql_type"] j | none
      some (.dynamic (← required? id) (← required? code) (← required? table) (← required? type))
    | _ => none

/-- Every name may be left out, and then is the usual one. -/
instance : Codec Naming where
  encode n := object [("attribute_wildcard", encode n.wildcard),
    ("join_alias_suffix", encode n.labelSuffix), ("value_column", encode n.valueColumn),
    ("entity_key_column", encode n.entityColumn),
    ("attribute_key_column", encode n.attributeColumn),
    ("default_timestamp_column", encode n.timestampColumn)]
  decode? j := do
    let [wildcard, suffix, value, entity, attr, timestamp] ←
      looseFields? ["attribute_wildcard", "join_alias_suffix", "value_column", "entity_key_column",
        "attribute_key_column", "default_timestamp_column"] j | none
    let usual : Naming := {}
    some {
      wildcard := ← orElse? usual.wildcard wildcard
      labelSuffix := ← orElse? usual.labelSuffix suffix
      valueColumn := ← orElse? usual.valueColumn value
      entityColumn := ← orElse? usual.entityColumn entity
      attributeColumn := ← orElse? usual.attributeColumn attr
      timestampColumn := ← orElse? usual.timestampColumn timestamp }

end EntityQuery.Json
