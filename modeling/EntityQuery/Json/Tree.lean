import EntityQuery.Decimal.Layout

namespace EntityQuery

inductive Json where
  | null
  | bool (b : Bool)
  | number (negative : Bool) (n : Decimal.Numeral)
  | string (s : String)
  | array (items : List Json)
  | object (members : List (String × Json))
  /-- What can be stepped over but not taken up: a text with half a character in it, an object with
  such a name, or what is nested too deep. -/
  | garbled

namespace Json

/-- A character inside quotes. Quotes, backslashes and control characters are escaped. -/
def escape (c : Char) : List Char :=
  if c = '\x22' then ['\\', '\x22']
  else if c = '\\' then ['\\', '\\']
  else if c = '\x08' then ['\\', 'b']
  else if c = '\x09' then ['\\', 't']
  else if c = '\x0a' then ['\\', 'n']
  else if c = '\x0c' then ['\\', 'f']
  else if c = '\x0d' then ['\\', 'r']
  else if c.toNat < 0x20 then ['\\', 'u', '0', '0'] ++ Text.hex [UInt8.ofNat c.toNat]
  else [c]

def quote (s : String) : List Char := '\x22' :: s.toList.flatMap escape ++ ['\x22']

def numberText (negative : Bool) (n : Decimal.Numeral) : List Char :=
  if negative then '-' :: n.text else n.text

mutual

def text : Json → List Char
  | null => ['n', 'u', 'l', 'l']
  | bool true => ['t', 'r', 'u', 'e']
  | bool false => ['f', 'a', 'l', 's', 'e']
  | number negative n => numberText negative n
  | string s => quote s
  | array [] => ['[', ']']
  | array (item :: rest) => '[' :: text item ++ itemsText rest ++ [']']
  | object [] => ['\x7b', '\x7d']
  | object ((name, value) :: rest) =>
    '\x7b' :: quote name ++ ':' :: text value ++ membersText rest ++ ['\x7d']
  | garbled => ['\x22', '\\', 'u', 'd', '8', '0', '0', '\x22']

def itemsText : List Json → List Char
  | [] => []
  | item :: rest => ',' :: text item ++ itemsText rest

def membersText : List (String × Json) → List Char
  | [] => []
  | (name, value) :: rest => ',' :: quote name ++ ':' :: text value ++ membersText rest

end

mutual

/-- The tree with what is nested deeper than `depth` garbled. -/
def clip : Nat → Json → Json
  | 0, array _ | 0, object _ => garbled
  | depth + 1, array items => array (clipItems depth items)
  | depth + 1, object members => object (clipMembers depth members)
  | _, j => j

def clipItems (depth : Nat) : List Json → List Json
  | [] => []
  | item :: rest => clip depth item :: clipItems depth rest

def clipMembers (depth : Nat) : List (String × Json) → List (String × Json)
  | [] => []
  | (name, value) :: rest => (name, clip depth value) :: clipMembers depth rest

end

end Json

end EntityQuery
