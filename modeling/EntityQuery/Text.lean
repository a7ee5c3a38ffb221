namespace EntityQuery.Text

/-- The closed ranges of code points with the property White_Space, ascending. -/
def blankRanges : List (Nat × Nat) :=
  [(0x09, 0x0D), (0x20, 0x20), (0x85, 0x85), (0xA0, 0xA0), (0x1680, 0x1680), (0x2000, 0x200A),
    (0x2028, 0x2029), (0x202F, 0x202F), (0x205F, 0x205F), (0x3000, 0x3000)]

def isBlank (c : Char) : Bool := blankRanges.any fun r => r.1 ≤ c.toNat && c.toNat ≤ r.2

def trim (s : List Char) : List Char :=
  ((s.dropWhile isBlank).reverse.dropWhile isBlank).reverse

example : (blankRanges.map fun r => r.2 + 1 - r.1).sum = 25 := by decide

example : trim ['\u00a0', 'a', ' ', 'b', '\n'] = ['a', ' ', 'b'] := by decide

def lower (s : List Char) : List Char := s.map Char.toLower

def splitAtChar? (c : Char) : List Char → Option (List Char × List Char)
  | [] => none
  | a :: rest =>
    if a = c then some ([], rest)
    else (splitAtChar? c rest).map fun (before, after) => (a :: before, after)

/-- The parts before and after the first place where `word`, given in lower case, stands in any
case. -/
def splitAtWord? (word : List Char) : List Char → Option (List Char × List Char)
  | [] => none
  | a :: rest =>
    if lower ((a :: rest).take word.length) = word then some ([], (a :: rest).drop word.length)
    else (splitAtWord? word rest).map fun (before, after) => (a :: before, after)

def dropEnd? (word : List Char) (s : List Char) : Option (List Char) :=
  if s.drop (s.length - word.length) = word then some (s.take (s.length - word.length)) else none

example : splitAtWord? " as ".toList "a AS b as c".toList = some ("a".toList, "b as c".toList) := by
  decide

def nat (n : Nat) : List Char := Nat.toDigits 10 n

def int (n : Int) : List Char := if n < 0 then '-' :: nat n.natAbs else nat n.natAbs

def signed (n : Int) : List Char := (if n < 0 then '-' else '+') :: nat n.natAbs

def hex (bytes : List UInt8) : List Char :=
  bytes.flatMap fun b => [Nat.digitChar (b.toNat / 16), Nat.digitChar (b.toNat % 16)]

example : int (-120) = ['-', '1', '2', '0'] ∧ hex [255, 10] = ['f', 'f', '0', 'a'] := by decide

example : signed 16 = ['+', '1', '6'] ∧ signed (-6) = ['-', '6'] := by decide

end EntityQuery.Text
