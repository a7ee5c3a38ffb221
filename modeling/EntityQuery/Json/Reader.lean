import EntityQuery.Json.Token

namespace EntityQuery.Json

def ofMembers (members : List (Option String × Json)) : Json :=
  match members.mapM fun (name, value) => name.map (·, value) with
  | some members => object members
  | none => garbled

mutual

def read? : Nat → List Token → Option (Json × List Token)
  | 0, _ => none
  | fuel + 1, ts =>
    match ts with
    | .null :: rest => some (null, rest)
    | .bool b :: rest => some (bool b, rest)
    | .number negative n :: rest => some (number negative n, rest)
    | .string (some s) :: rest => some (string s, rest)
    | .string none :: rest => some (garbled, rest)
    | .openArray :: .closeArray :: rest => some (array [], rest)
    | .openArray :: rest => (readItems? fuel rest).map fun (items, rest) => (array items, rest)
    | .openObject :: .closeObject :: rest => some (object [], rest)
    | .openObject :: rest =>
      (readMembers? fuel rest).map fun (members, rest) => (ofMembers members, rest)
    | _ => none

def readItems? : Nat → List Token → Option (List Json × List Token)
  | 0, _ => none
  | fuel + 1, ts =>
    match read? fuel ts with
    | some (item, .closeArray :: rest) => some ([item], rest)
    | some (item, .comma :: rest) =>
      (readItems? fuel rest).map fun (items, rest) => (item :: items, rest)
    | _ => none

def readMembers? : Nat → List Token → Option (List (Option String × Json) × List Token)
  | 0, _ => none
  | fuel + 1, ts =>
    match ts with
    | .string name :: .colon :: ts =>
      match read? fuel ts with
      | some (value, .closeObject :: rest) => some ([(name, value)], rest)
      | some (value, .comma :: rest) =>
        (readMembers? fuel rest).map fun (members, rest) => ((name, value) :: members, rest)
      | _ => none
    | _ => none

end

/-- The value that a text holds. Reading spends at most two units of fuel on a token. -/
def parse? (s : List Char) : Option Json := do
  let ts ← tokens? s
  match read? (2 * ts.length + 1) ts with
  | some (j, []) => some j
  | _ => none

end EntityQuery.Json
