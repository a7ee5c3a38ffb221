import EntityQuery.Json.Reader

namespace EntityQuery.Json

class Codec (α : Type) where
  encode : α → Json
  decode? : Json → Option α

export Codec (encode decode?)

/-- How many arrays and objects may stand around a value. -/
def maxDepth : Nat := 127

def write {α : Type} [Codec α] (a : α) : String := String.ofList (encode a).text

def ofText? {α : Type} [Codec α] (s : String) : Option α :=
  (parse? s.toList).bind fun j => decode? (j.clip maxDepth)

def member? (name : String) (members : List (String × Json)) : Option Json :=
  (members.find? (·.1 = name)).map Prod.snd

/-- The values given for the fields of an object, which may not repeat any of them. -/
def objectFields? (names : List String) (members : List (String × Json)) :
    Option (List (Option Json)) :=
  if names.all fun name => (members.filter (·.1 = name)).length ≤ 1 then
    some (names.map (member? · members))
  else none

/-- The values given for the fields of a structure; an array gives all of them. -/
def fields? (names : List String) : Json → Option (List (Option Json))
  | object members => objectFields? names members
  | array items => if items.length = names.length then some (items.map some) else none
  | _ => none

/-- The values given for the fields of a structure whose fields have defaults; an array gives the
first ones. -/
def looseFields? (names : List String) : Json → Option (List (Option Json))
  | object members => objectFields? names members
  | array items =>
    if items.length ≤ names.length then
      some (items.map some ++ List.replicate (names.length - items.length) none)
    else none
  | _ => none

def required? {α : Type} [Codec α] (field : Option Json) : Option α := field.bind decode?

def optional? {α : Type} [Codec α] : Option Json → Option (Option α)
  | none | some null => some none
  | some j => some <$> decode? j

def orElse? {α : Type} [Codec α] (default : α) : Option Json → Option α
  | none => some default
  | some j => decode? j

def variant (name : String) (payload : Json) : Json := object [(name, payload)]

def variant? : Json → Option (String × Option Json)
  | string name => some (name, none)
  | object [(name, payload)] => some (name, some payload)
  | _ => none

def plain? (j : Json) : Option String :=
  match variant? j with
  | some (name, none) | some (name, some null) => some name
  | _ => none

@[reducible] def Codec.ofNames {α : Type} (all : List α) (name : α → String) : Codec α where
  encode a := string (name a)
  decode? j := (plain? j).bind fun n => all.find? (name · = n)

instance : Codec Bool where
  encode := bool
  decode?
    | bool b => some b
    | _ => none

instance : Codec String where
  encode := string
  decode?
    | string s => some s
    | _ => none

instance {α : Type} [Codec α] : Codec (Option α) where
  encode
    | none => null
    | some a => encode a
  decode? j := optional? (some j)

instance {α : Type} [Codec α] : Codec (List α) where
  encode l := array (l.map encode)
  decode?
    | array items => items.mapM decode?
    | _ => none

def ofInt (n : Int) : Json := number (n < 0) { whole := Text.nat n.natAbs }

/-- The whole number that is written without a fraction or an exponent. Zero has no sign. -/
def int? : Json → Option Int
  | number negative n =>
    if n.fraction.isEmpty && n.exponent.isNone then
      match negative, digitsValue n.whole with
      | false, v => some v
      | true, 0 => none
      | true, v => some (-v)
    else none
  | _ => none

instance : Codec Int64 where
  encode n := ofInt n.toInt
  decode? j := (int? j).bind fun n =>
    if Int64.minValue.toInt ≤ n ∧ n ≤ Int64.maxValue.toInt then some (Int64.ofInt n) else none

instance : Codec UInt8 where
  encode n := ofInt n.toNat
  decode? j := (int? j).bind fun n =>
    if 0 ≤ n ∧ n < 256 then some (UInt8.ofNat n.toNat) else none

/-- Numbers in JSON are positional between a hundred-thousandth and ten to the sixteenth, and keep a
point; a value halfway between two decimals goes to the even one. -/
def numbers : Decimal.Layout where
  tie := .even
  positional := fun e => -5 ≤ e && e < 16
  pointZero := true

example : (numbers.numeral ⟨0x430C6BF526340000⟩).text = "1000000000000000.0".toList := by
  decide +kernel

example : (numbers.numeral ⟨0x4341C37937E08000⟩).text = "1e+16".toList := by decide +kernel

example : (numbers.numeral ⟨0x3EB0C6F7A0B5ED8D⟩).text = "1e-6".toList := by decide +kernel

/-- Takes digits into a number as long as it fits 64 bits; returns it with the digits left over. -/
def gather (n : Nat) : List Char → Nat × List Char
  | [] => (n, [])
  | c :: rest =>
    let m := 10 * n + (c.toNat - '0'.toNat)
    if m < UInt64.size then gather m rest else (n, c :: rest)

/-- A number times a power of ten, in floating point. A power beyond 308 is applied in steps, of which
three bring every number down to zero. There is no result above the largest number. -/
def scale : Nat → Float → Int → Option Float
  | 0, x, _ => some x
  | steps + 1, x, e =>
    if e.natAbs ≤ 308 then
      let power := Float.ofScientific 1 false e.natAbs
      if e < 0 then some (x / power)
      else if (x * power).isInf then none
      else some (x * power)
    else if x == 0 then some x
    else if 0 < e then none
    else scale steps (x / Float.ofScientific 1 false 308) (e + 308)

/-- The number for a numeral: its leading digits, as far as they fit 64 bits, times a power of ten. -/
def double? (negative : Bool) (n : Decimal.Numeral) : Option Double :=
  let (significand, dropped) := gather 0 n.whole
  let (significand, left) := gather significand n.fraction
  let e : Int := dropped.length - (n.fraction.length - left.length : Nat) + n.exponent.getD 0
  (scale 4 (UInt64.ofNat significand).toFloat e).map fun x =>
    ⟨(if negative then -x else x).toBits⟩

instance : Codec Double where
  encode x := if x.isFinite then number x.negative (numbers.numeral x) else null
  decode?
    | number negative n => double? negative n
    | _ => none

end EntityQuery.Json
