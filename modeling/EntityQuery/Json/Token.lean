import EntityQuery.Json.Tree

namespace EntityQuery.Json

/-- The text of a string token is missing where its escapes name half a character. -/
inductive Token where
  | openArray
  | closeArray
  | openObject
  | closeObject
  | comma
  | colon
  | null
  | bool (b : Bool)
  | number (negative : Bool) (n : Decimal.Numeral)
  | string (s : Option String)

def isSpace (c : Char) : Bool := c = ' ' || c = '\t' || c = '\n' || c = '\r'

def isDigit (c : Char) : Bool := '0' ≤ c && c ≤ '9'

def digitsValue (digits : List Char) : Nat :=
  digits.foldl (fun n c => 10 * n + (c.toNat - '0'.toNat)) 0

def digits? (s : List Char) : Option (List Char × List Char) :=
  match s.takeWhile isDigit with
  | [] => none
  | digits => some (digits, s.dropWhile isDigit)

def whole? : List Char → Option (List Char × List Char)
  | '0' :: rest => some (['0'], rest)
  | s => digits? s

def fraction? : List Char → Option (List Char × List Char)
  | '.' :: rest => digits? rest
  | s => some ([], s)

def signedExponent? : List Char → Option (Int × List Char)
  | '-' :: rest => (digits? rest).map fun (d, rest) => (-digitsValue d, rest)
  | '+' :: rest => (digits? rest).map fun (d, rest) => ((digitsValue d : Int), rest)
  | rest => (digits? rest).map fun (d, rest) => ((digitsValue d : Int), rest)

def exponent? : List Char → Option (Option Int × List Char)
  | 'e' :: rest | 'E' :: rest => (signedExponent? rest).map fun (e, rest) => (some e, rest)
  | s => some (none, s)

def numeral? (s : List Char) : Option (Decimal.Numeral × List Char) := do
  let (whole, s) ← whole? s
  let (fraction, s) ← fraction? s
  let (exponent, s) ← exponent? s
  some ({ whole, fraction, exponent }, s)

def hexDigit? (c : Char) : Option Nat :=
  if isDigit c then some (c.toNat - '0'.toNat)
  else if 'a' ≤ c && c ≤ 'f' then some (c.toNat - 'a'.toNat + 10)
  else if 'A' ≤ c && c ≤ 'F' then some (c.toNat - 'A'.toNat + 10)
  else none

def hexDigits? (a b c d : Char) : Option Nat := do
  let a ← hexDigit? a
  let b ← hexDigit? b
  let c ← hexDigit? c
  let d ← hexDigit? d
  some (4096 * a + 256 * b + 16 * c + d)

def letter? : Char → Option Char
  | '\x22' => some '\x22'
  | '\\' => some '\\'
  | '/' => some '/'
  | 'b' => some '\x08'
  | 'f' => some '\x0c'
  | 'n' => some '\x0a'
  | 'r' => some '\x0d'
  | 't' => some '\x09'
  | _ => none

/-- A piece of quoted text: a character, or a 16-bit unit that was escaped by its number. -/
inductive Piece where
  | char (c : Char)
  | unit (n : Nat)

def pieces? : List Char → Option (List Piece × List Char)
  | [] => none
  | '\x22' :: rest => some ([], rest)
  | '\\' :: 'u' :: a :: b :: c :: d :: rest => do
    let n ← hexDigits? a b c d
    let (pieces, rest) ← pieces? rest
    some (.unit n :: pieces, rest)
  | '\\' :: l :: rest => do
    let c ← letter? l
    let (pieces, rest) ← pieces? rest
    some (.char c :: pieces, rest)
  | c :: rest =>
    if c.toNat < 0x20 || c = '\\' then none
    else (pieces? rest).map fun (pieces, rest) => (.char c :: pieces, rest)

/-- The characters of the pieces, two units to a character beyond 16 bits. Half a character has no
text. -/
def join? : List Piece → Option (List Char)
  | [] => some []
  | .char c :: rest => (c :: ·) <$> join? rest
  | .unit n :: rest =>
    if n < 0xD800 || 0xE000 ≤ n then (Char.ofNat n :: ·) <$> join? rest
    else
      match rest with
      | .unit m :: rest =>
        if n < 0xDC00 && 0xDC00 ≤ m && m < 0xE000 then
          (Char.ofNat (0x10000 + (n - 0xD800) * 0x400 + (m - 0xDC00)) :: ·) <$> join? rest
        else none
      | _ => none

def token? (c : Char) (rest : List Char) : Option (Token × List Char) :=
  match c, rest with
  | '[', _ => some (.openArray, rest)
  | ']', _ => some (.closeArray, rest)
  | '\x7b', _ => some (.openObject, rest)
  | '\x7d', _ => some (.closeObject, rest)
  | ',', _ => some (.comma, rest)
  | ':', _ => some (.colon, rest)
  | 'n', 'u' :: 'l' :: 'l' :: rest => some (.null, rest)
  | 't', 'r' :: 'u' :: 'e' :: rest => some (.bool true, rest)
  | 'f', 'a' :: 'l' :: 's' :: 'e' :: rest => some (.bool false, rest)
  | '\x22', _ =>
    (pieces? rest).map fun (pieces, rest) => (.string ((join? pieces).map String.ofList), rest)
  | '-', _ => (numeral? rest).map fun (n, rest) => (.number true n, rest)
  | _, _ => (numeral? (c :: rest)).map fun (n, rest) => (.number false n, rest)

/-- The tokens of a text. Each one takes a character at least, so that `fuel` is enough when it is not
below the length of the text. -/
def tokensWithin? : Nat → List Char → Option (List Token)
  | _, [] => some []
  | 0, _ :: _ => none
  | fuel + 1, c :: rest =>
    if isSpace c then tokensWithin? fuel rest
    else do
      let (t, rest) ← token? c rest
      let ts ← tokensWithin? fuel rest
      some (t :: ts)

def tokens? (s : List Char) : Option (List Token) := tokensWithin? s.length s

end EntityQuery.Json
