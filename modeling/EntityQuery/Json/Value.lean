import EntityQuery.Json.Codec
import EntityQuery.Value

namespace EntityQuery.Json

def encodeScalar : Scalar → Json
  | .null => string "Null"
  | .bool b => variant "Bool" (encode b)
  | .int n => variant "Int" (encode n)
  | .float x => variant "Float" (encode x)
  | .string s => variant "String" (encode s)
  | .bytes b => variant "Bytes" (encode b)
  | .timestamp n => variant "Timestamp" (encode n)

def decodeScalar? (j : Json) : Option Scalar :=
  match variant? j with
  | some ("Null", none) | some ("Null", some null) => some .null
  | some ("Bool", some b) => .bool <$> decode? b
  | some ("Int", some n) => .int <$> decode? n
  | some ("Float", some x) => .float <$> decode? x
  | some ("String", some s) => .string <$> decode? s
  | some ("Bytes", some b) => .bytes <$> decode? b
  | some ("Timestamp", some n) => .timestamp <$> decode? n
  | _ => none

mutual

def encodeValue : Value → Json
  | .scalar s => encodeScalar s
  | .list values => variant "List" (array (encodeValues values))

def encodeValues : List Value → List Json
  | [] => []
  | v :: rest => encodeValue v :: encodeValues rest

end

mutual

def decodeValue? : Json → Option Value
  | object [(name, array items)] =>
    if name = "List" then .list <$> decodeValues? items
    else .scalar <$> decodeScalar? (object [(name, array items)])
  | j => .scalar <$> decodeScalar? j

def decodeValues? : List Json → Option (List Value)
  | [] => some []
  | j :: rest => do
    let v ← decodeValue? j
    let values ← decodeValues? rest
    some (v :: values)

end

instance : Codec Value := ⟨encodeValue, decodeValue?⟩

end EntityQuery.Json
