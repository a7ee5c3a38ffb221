import EntityQuery.Decimal.Double

namespace EntityQuery

/-- A single value. Timestamps count microseconds from the beginning of 1970. -/
inductive Scalar where
  | null
  | bool (b : Bool)
  | int (n : Int64)
  | float (x : Double)
  | string (s : String)
  | bytes (b : List UInt8)
  | timestamp (n : Int64)
  deriving DecidableEq

/-- A scalar, or a list of values. Only scalars are ever bound: the elements of a membership test
and the bounds of a range are values of their own. -/
inductive Value where
  | scalar (s : Scalar)
  | list (values : List Value)

namespace Value

mutual

def decEq : (a b : Value) → Decidable (a = b)
  | .scalar a, .scalar b => decidable_of_iff (a = b) (by simp)
  | .list a, .list b =>
    match decEqList a b with
    | .isTrue h => .isTrue (by rw [h])
    | .isFalse h => .isFalse (by simpa using h)
  | .scalar _, .list _ => .isFalse (by simp)
  | .list _, .scalar _ => .isFalse (by simp)

def decEqList : (a b : List Value) → Decidable (a = b)
  | [], [] => .isTrue rfl
  | [], _ :: _ => .isFalse (by simp)
  | _ :: _, [] => .isFalse (by simp)
  | a :: as, b :: bs =>
    match decEq a b, decEqList as bs with
    | .isTrue h, .isTrue k => .isTrue (by rw [h, k])
    | .isFalse h, _ => .isFalse (by simp [h])
    | _, .isFalse h => .isFalse (by simp [h])

end

instance : DecidableEq Value := decEq

@[match_pattern] abbrev null : Value := .scalar .null

@[match_pattern] abbrev string (s : String) : Value := .scalar (.string s)

@[match_pattern] abbrev int (n : Int64) : Value := .scalar (.int n)

def isNull : Value → Bool
  | null => true
  | _ => false

def isScalar : Value → Bool
  | .scalar _ => true
  | .list _ => false

end Value

/-- Types whose elements stand for values. -/
class ToValue (α : Type) where
  toValue : α → Value

export ToValue (toValue)

instance : ToValue Bool := ⟨fun b => .scalar (.bool b)⟩

instance : ToValue Int64 := ⟨Value.int⟩

instance : ToValue Int32 := ⟨fun n => .int n.toInt64⟩

instance : ToValue UInt32 := ⟨fun n => .int (Int64.ofNat n.toNat)⟩

instance : ToValue Double := ⟨fun x => .scalar (.float x)⟩

instance : ToValue String := ⟨Value.string⟩

instance : ToValue (List UInt8) := ⟨fun b => .scalar (.bytes b)⟩

instance : ToValue (List Value) := ⟨Value.list⟩

instance {α : Type} [ToValue α] : ToValue (Option α) := ⟨fun
  | some a => toValue a
  | none => .null⟩

end EntityQuery
