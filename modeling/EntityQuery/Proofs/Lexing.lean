import EntityQuery.Sql.Statement

namespace EntityQuery

/-- What a reader tells apart in a statement. -/
inductive Lexeme where
  | name (s : List Char)
  | string (s : List Char)
  | mark
  | numbered (digits : List Char)
  | other (c : Char)
  | unclosed
  deriving DecidableEq

namespace Lexeme

def quoted (mark : Char) (s : List Char) : Lexeme := if mark = '\x27' then string s else name s

def isPlaceholder : Lexeme → Bool
  | mark | numbered _ => true
  | _ => false

end Lexeme

/-- Where a reader is: outside of names, strings and numbers, inside quotes, behind a quote that ends
them unless another one follows, or in the number of a placeholder. -/
inductive Mode where
  | plain
  | inside (mark : Char) (s : List Char)
  | closing (mark : Char) (s : List Char)
  | number (digits : List Char)
  deriving DecidableEq

namespace Mode

def start (d : Dialect) (c : Char) : List Lexeme × Mode :=
  if c = d.quoteMark ∨ c = '\x27' then ([], inside c [])
  else if c = '?' then ([.mark], plain)
  else if c = '$' then ([], number [])
  else ([.other c], plain)

/-- What a character completes, and where the reader is behind it. -/
def step (d : Dialect) : Mode → Char → List Lexeme × Mode
  | plain, c => start d c
  | inside mark s, c => if c = mark then ([], closing mark s) else ([], inside mark (s ++ [c]))
  | closing mark s, c =>
    if c = mark then ([], inside mark (s ++ [c]))
    else (.quoted mark s :: (start d c).1, (start d c).2)
  | number ds, c =>
    if c.isDigit then ([], number (ds ++ [c]))
    else (.numbered ds :: (start d c).1, (start d c).2)

def finish : Mode → List Lexeme
  | plain => []
  | inside .. => [.unclosed]
  | closing mark s => [.quoted mark s]
  | number ds => [.numbered ds]

def run (d : Dialect) (m : Mode) : List Char → List Lexeme × Mode
  | [] => ([], m)
  | c :: rest =>
    let (ls, m) := m.step d c
    let (ls', m) := run d m rest
    (ls ++ ls', m)

def read (d : Dialect) (m : Mode) (s : List Char) : List Lexeme :=
  (m.run d s).1 ++ (m.run d s).2.finish

variable {d : Dialect}

theorem run_append (m : Mode) (s t : List Char) :
    m.run d (s ++ t) =
      ((m.run d s).1 ++ ((m.run d s).2.run d t).1, ((m.run d s).2.run d t).2) := by
  induction s generalizing m with
  | nil => simp [run]
  | cons c rest ih => simp [run, ih]

theorem read_cons (m : Mode) (c : Char) (rest : List Char) :
    m.read d (c :: rest) = (m.step d c).1 ++ (m.step d c).2.read d rest := by
  simp [read, run]

theorem read_append (m : Mode) (s t : List Char) :
    m.read d (s ++ t) = (m.run d s).1 ++ (m.run d s).2.read d t := by
  simp [read, run_append]

theorem read_inside (mark : Char) (s t rest : List Char) :
    (inside mark s).read d (t.flatMap (fun c => if c = mark then [c, c] else [c]) ++ mark :: rest) =
      (closing mark (s ++ t)).read d rest := by
  induction t generalizing s with
  | nil => simp [read_cons, step]
  | cons c t ih =>
    by_cases hc : c = mark
    · subst c
      simpa [read_cons, step] using ih (s ++ [mark])
    · simpa [read_cons, step, hc] using ih (s ++ [c])

theorem read_closing {mark : Char} {rest : List Char} (h : ∀ c ∈ rest.head?, c ≠ mark)
    (s : List Char) : (closing mark s).read d rest = .quoted mark s :: plain.read d rest := by
  cases rest with
  | nil => rfl
  | cons c rest =>
    have hc : c ≠ mark := h c rfl
    simp [read_cons, step, hc]

theorem read_digits {digits : List Char} (h : ∀ c ∈ digits, c.isDigit = true) (s rest : List Char) :
    (number s).read d (digits ++ rest) = (number (s ++ digits)).read d rest := by
  induction digits generalizing s with
  | nil => simp
  | cons c digits ih =>
    have hc : c.isDigit = true := h c (by simp)
    have ih := ih (fun x hx => h x (by simp [hx])) (s ++ [c])
    simpa [read_cons, step, hc] using ih

theorem read_number {rest : List Char} (h : ∀ c ∈ rest.head?, c.isDigit = false) (s : List Char) :
    (number s).read d rest = .numbered s :: plain.read d rest := by
  cases rest with
  | nil => rfl
  | cons c rest =>
    have hc : c.isDigit = false := h c rfl
    simp [read_cons, step, hc]

end Mode

/-- What a reader finds in a statement. -/
def Dialect.lex (d : Dialect) (s : List Char) : List Lexeme := Mode.plain.read d s

namespace Dialect

variable (d : Dialect)

/-- The placeholder of the `n`-th bound value, counted from one, as a reader finds it. -/
def marker (n : Nat) : Lexeme :=
  match d with
  | postgres => .numbered (Text.nat n)
  | mysql | sqlite => .mark

def markers (n : Nat) : List Lexeme :=
  match d with
  | postgres => (List.range n).map fun i => .numbered (Text.nat (i + 1))
  | mysql | sqlite => List.replicate n .mark

theorem map_marker (n : Nat) : (List.range' 1 n).map d.marker = d.markers n := by
  cases d with
  | postgres => simp [List.range'_eq_map_range, markers, marker, Nat.add_comm]
  | mysql | sqlite =>
    have hmark : (List.range' 1 n).map (fun _ => Lexeme.mark) = List.replicate n .mark := by
      rw [List.map_const', List.length_range']
    exact hmark

def placeholders (s : String) : List Lexeme := (d.lex s.toList).filter Lexeme.isPlaceholder

theorem lex_quote {rest : List Char} (h : ∀ c ∈ rest.head?, c ≠ d.quoteMark) (s : List Char) :
    d.lex (d.quote s ++ rest) = .name s :: d.lex rest := by
  have hq : Lexeme.quoted d.quoteMark s = .name s := by cases d <;> rfl
  unfold lex quote
  simp only [List.cons_append, List.append_assoc, List.nil_append, Mode.read_cons, Mode.step,
    Mode.start, true_or, if_true]
  rw [Mode.read_inside, List.nil_append, Mode.read_closing h, hq]

theorem isDigit_nat {n : Nat} {c : Char} (h : c ∈ Text.nat n) : c.isDigit = true :=
  Nat.isDigit_of_mem_toDigits (by decide) (by decide) h

theorem lex_placeholder {rest : List Char} (h : ∀ c ∈ rest.head?, c.isDigit = false) (n : Nat) :
    d.lex (d.placeholder n ++ rest) = d.marker n :: d.lex rest := by
  unfold lex
  cases d with
  | postgres =>
    have hstep : Mode.plain.step .postgres '$' = ([], .number []) := by decide
    simp only [placeholder, marker, List.cons_append]
    rw [Mode.read_cons, hstep, List.nil_append, Mode.read_digits fun c hc => isDigit_nat hc,
      List.nil_append, Mode.read_number h]
  | mysql | sqlite =>
    simp only [placeholder, marker, List.singleton_append]
    rw [Mode.read_cons]
    rfl

end Dialect

end EntityQuery
