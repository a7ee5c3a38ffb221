import EntityQuery.Proofs.UnionTexts

namespace EntityQuery

open Fragment

/-- What a reader finds in the text of a test: names, values, and the texts between them. -/
inductive Piece where
  | text (s : String)
  | name (s : String)
  | value (s : Scalar)
  deriving DecidableEq

namespace Piece

def glue (s : String) : List Piece → List Piece
  | text t :: rest => text (s ++ t) :: rest
  | ps => if s = "" then ps else text s :: ps

def ofTokens (d : Dialect) : List Token → List Piece
  | [] => []
  | .letter l :: rest => glue (String.ofList (l.text d)) (ofTokens d rest)
  | .name s :: rest => name (String.ofList s) :: ofTokens d rest
  | .value s :: rest => value s :: ofTokens d rest
  | .aName :: rest | .aValue :: rest => ofTokens d rest

def leading : List Piece → String × List Piece
  | text s :: rest => (s, rest)
  | ps => ("", ps)

def column? : List Piece → Option (Column × List Piece)
  | name t :: text "." :: name n :: rest => some (.qualified t n, rest)
  | name n :: rest => some (.bare n, rest)
  | _ => none

def operands? : List Piece → Option (List (Scalar × String))
  | [] => some []
  | value v :: text s :: rest => (operands? rest).map ((v, s) :: ·)
  | value v :: rest => (operands? rest).map ((v, "") :: ·)
  | _ => none

theorem glue_empty (ps : List Piece) : glue "" ps = ps := by
  unfold glue
  split
  · rw [String.empty_append]
  · rfl

theorem glue_glue (s t : String) (ps : List Piece) : glue s (glue t ps) = glue (s ++ t) ps := by
  cases ps with
  | nil => by_cases ht : t = "" <;> simp [glue, ht]
  | cons p rest =>
    cases p with
    | text u => simp [glue, String.append_assoc]
    | name n => by_cases ht : t = "" <;> simp [glue, ht]
    | value v => by_cases ht : t = "" <;> simp [glue, ht]

end Piece

def Value.scalar? : Value → Option Scalar
  | .scalar s => some s
  | .list _ => none

/-- The pieces of a statement, by its text and its bindings. -/
def Statement.pieces (d : Dialect) (st : Statement) : List Piece :=
  Piece.ofTokens d (fill (d.lex st.sql.toList) (st.bindings.filterMap Value.scalar?))

/-- The texts around the argument of a function. Without texts there is only the argument. -/
abbrev Wrapper := String × String

/-- The functions of dates in the three dialects, and the cast of a value. -/
def Wrapper.all : List Wrapper :=
  [("", ""), ("date(", ")"), ("day(", ")"), ("month(", ")"), ("year(", ")"), ("", "::date"),
    ("extract(day from ", ")"), ("extract(month from ", ")"), ("extract(year from ", ")"),
    ("strftime('%Y-%m-%d', ", ")"), ("strftime('%d', ", ")"), ("strftime('%m', ", ")"),
    ("strftime('%Y', ", ")"), ("cast(", " as text)")]

/-- The comparisons for which null is a value like any other. -/
def nullSafe : List String := ["<=>", "is not distinct from", "is"]

def comparisons : List String := nullSafe ++ Operator.all.map Operator.spelling

inductive Predicate where
  | constant (holds : Bool)
  | isNull (column : Column) (negated : Bool)
  | between (column : Column) (low high : Scalar) (negated : Bool)
  | oneOf (column : Column) (values : List Scalar) (negated : Bool)
  | compare (function : Wrapper) (column : Column) (operator : String) (operand : Wrapper)
      (value : Scalar)
  deriving DecidableEq

namespace Predicate

def members? : List (Scalar × String) → Option (List Scalar)
  | [(v, ")")] => some [v]
  | (v, ", ") :: rest => (members? rest).map (v :: ·)
  | _ => none

/-- What is compared, and how, by the texts in front of a column, behind it, and behind a value. -/
def frame? (before behind after : String) : Option (Wrapper × String × Wrapper) :=
  (Wrapper.all.filter (·.1 = before)).findSome? fun f =>
    (Wrapper.all.filter (·.2 = after)).findSome? fun g =>
      (comparisons.find? fun op => f.2 ++ " " ++ op ++ " " ++ g.1 = behind).map fun op => (f, op, g)

def comparison? (before : String) (c : Column) (behind : String) :
    List (Scalar × String) → Option Predicate
  | [(v, after)] => (frame? before behind after).map fun (f, op, g) => .compare f c op g v
  | _ => none

def plain? (c : Column) : String → List (Scalar × String) → Option Predicate
  | " is null", [] => some (.isNull c false)
  | " is not null", [] => some (.isNull c true)
  | " between ", [(low, " and "), (high, "")] => some (.between c low high false)
  | " not between ", [(low, " and "), (high, "")] => some (.between c low high true)
  | " in (", values => (members? values).map (.oneOf c · false)
  | " not in (", values => (members? values).map (.oneOf c · true)
  | _, _ => none

def around? (before : String) (c : Column) (behind : String) (values : List (Scalar × String)) :
    Option Predicate :=
  comparison? before c behind values <|> if before = "" then plain? c behind values else none

def constant? : String → Option Predicate
  | "1 = 1" => some (.constant true)
  | "0 = 1" => some (.constant false)
  | _ => none

def read? (ps : List Piece) : Option Predicate :=
  let (before, rest) := Piece.leading ps
  if rest.isEmpty then constant? before
  else do
    let (c, rest) ← Piece.column? rest
    let (behind, rest) := Piece.leading rest
    around? before c behind (← Piece.operands? rest)

end Predicate

/-- The predicate that a statement is, by its text and its bindings. -/
def Statement.predicate? (d : Dialect) (st : Statement) : Option Predicate :=
  Predicate.read? (st.pieces d)

example : Statement.predicate? .sqlite
    ⟨"strftime('%d', \"on\".\"x\") = cast(? as text)", [.int 3]⟩ =
      some (.compare ("strftime('%d', ", ")") (.qualified "on" "x") "=" ("cast(", " as text)")
        (.int 3)) := by
  decide +kernel

namespace Lexeme

def isName : Lexeme → Bool
  | name _ => true
  | _ => false

theorem tokens_of_not_isName {l : Lexeme} (h : l.isName = false) : l.tokens = [.letter l] := by
  cases l with
  | name s => cases h
  | _ => rfl

end Lexeme

namespace Fragment

variable {d : Dialect}

def pieces : List Fragment → List Piece
  | [] => []
  | .text s :: rest => Piece.glue s (pieces rest)
  | .name s :: rest => .name s :: pieces rest
  | .value (.scalar s) :: rest => .value s :: pieces rest
  | .value (.list _) :: rest | .fault _ :: rest => pieces rest

def Nameless (d : Dialect) : Fragment → Prop
  | .text s => ∀ l ∈ (Mode.plain.run d s.toList).1, l.isName = false
  | _ => True

theorem ofTokens_letters (ls : List Lexeme) (rest : List Token) :
    Piece.ofTokens d (ls.map .letter ++ rest) =
      Piece.glue (String.ofList (ls.flatMap (Lexeme.text d))) (Piece.ofTokens d rest) := by
  induction ls with
  | nil => exact (Piece.glue_empty _).symm
  | cons l ls ih =>
    rw [List.map_cons, List.cons_append, Piece.ofTokens, ih, Piece.glue_glue, List.flatMap_cons,
      String.ofList_append]

theorem ofTokens_word {s : String} (hquiet : d.Quiet s) (hname : Nameless d (.text s))
    (rest : List Token) :
    Piece.ofTokens d (d.word s ++ rest) = Piece.glue s (Piece.ofTokens d rest) := by
  have hword : d.word s = (Mode.plain.run d s.toList).1.map .letter := by
    unfold Dialect.word
    rw [List.map_eq_flatMap]
    exact List.flatMap_congr fun l hl => Lexeme.tokens_of_not_isName (hname l hl)
  rw [hword, ofTokens_letters, hquiet.flatMap_text, String.ofList_toList]

theorem ofTokens_fragments {fs : List Fragment} (h : Clean d fs) (hname : ∀ f ∈ fs, Nameless d f) :
    Piece.ofTokens d (fs.flatMap (tokens d)) = pieces fs := by
  induction fs with
  | nil => rfl
  | cons f rest ih =>
    obtain ⟨hf, hrest⟩ := List.forall_mem_cons.mp hname
    rw [List.flatMap_cons]
    cases f with
    | text s => rw [tokens, ofTokens_word h.1 hf, ih h.2 hrest, pieces]
    | name s =>
      have hs : Piece.ofTokens d (tokens d (.name s) ++ rest.flatMap (tokens d)) =
          .name (String.ofList s.toList) :: Piece.ofTokens d (rest.flatMap (tokens d)) := rfl
      rw [hs, ih h.2 hrest, String.ofList_toList, pieces]
    | value v =>
      cases v with
      | scalar s => exact congrArg (Piece.value s :: ·) (ih h.2 hrest)
      | list vs => exact ih h.2 hrest
    | fault e => exact ih h hrest

theorem pieces_of_statement {fs : List Fragment} {st : Statement} (h : Clean d fs)
    (hname : ∀ f ∈ fs, Nameless d f)
    (hst : Statement.ofFragments d .placeholders fs = .ok st) : st.pieces d = pieces fs := by
  obtain ⟨-, htext, hvalues⟩ := Statement.ofFragments_eq_ok.mp hst
  have hscalars : st.bindings.filterMap Value.scalar? = fs.filterMap scalar? := by
    rw [← hvalues, List.filterMap_map]
    exact List.filterMap_some
  unfold Statement.pieces
  rw [← htext, lex_spell h, hscalars, fill_lexemes h, ofTokens_fragments h hname]

theorem nameless_of_isPlain {s : String} (h : isPlain s = true) : Nameless d (.text s) := by
  intro l hl
  rw [Mode.run_of_isPlain h] at hl
  obtain ⟨c, -, rfl⟩ := List.mem_map.mp hl
  rfl

@[simp] theorem nameless_name (s : String) : Nameless d (.name s) := trivial

@[simp] theorem nameless_value (v : Value) : Nameless d (.value v) := by
  cases v <;> trivial

end Fragment

namespace Column

variable {d : Dialect}

def pieces (c : Column) : List Piece :=
  match c.table with
  | some table => [.name table, .text ".", .name c.name]
  | none => [.name c.name]

theorem pieces_fragments (c : Column) (fs : List Fragment) :
    Fragment.pieces (c.fragments ++ fs) = c.pieces ++ Fragment.pieces fs := by
  obtain ⟨table, name⟩ := c
  cases table <;> rfl

theorem nameless (c : Column) : ∀ f ∈ c.fragments, Nameless d f := by
  have hpoint : Nameless d (.text ".") := nameless_of_isPlain (by decide)
  unfold fragments
  split <;> simp only [List.forall_mem_cons, hpoint, nameless_name, true_and] <;> exact nofun

theorem column?_pieces (c : Column) (w : String) {ps : List Piece}
    (h : ∀ n, ps.head? ≠ some (.name n)) :
    Piece.column? (c.pieces ++ .text w :: ps) = some (c, .text w :: ps) := by
  obtain ⟨table, name⟩ := c
  cases table with
  | some table => rfl
  | none =>
    unfold pieces Piece.column?
    split
    · next heq =>
      cases heq
      exact absurd rfl (h _)
    · next heq =>
      cases heq
      rfl
    · next hn => exact absurd rfl (hn _ _)

end Column

namespace Predicate

theorem read?_fragments (before : String) {behind : String} (hbehind : behind ≠ "") (c : Column)
    (fs : List Fragment) {values : List (Scalar × String)}
    (h : ∀ p ∈ (Fragment.pieces fs).head?, ∃ v, p = .value v)
    (hvalues : Piece.operands? (Fragment.pieces fs) = some values) :
    read? (Fragment.pieces (.text before :: (c.fragments ++ .text behind :: fs))) =
      around? before c behind values := by
  have hpieces : Fragment.pieces (.text behind :: fs) = .text behind :: Fragment.pieces fs := by
    rw [Fragment.pieces]
    generalize Fragment.pieces fs = ps at h
    cases ps with
    | nil => simp [Piece.glue, hbehind]
    | cons p rest =>
      obtain ⟨v, rfl⟩ := h p rfl
      simp [Piece.glue, hbehind]
  have hname : ∀ n, (Fragment.pieces fs).head? ≠ some (.name n) := by
    intro n hn
    obtain ⟨v, hv⟩ := h _ hn
    cases hv
  have hleading (ps : List Piece) : Piece.leading (Piece.glue before (c.pieces ++ ps)) =
      (before, c.pieces ++ ps) := by
    obtain ⟨table, name⟩ := c
    unfold Column.pieces Piece.glue
    by_cases hb : before = "" <;> cases table <;> simp [hb, Piece.leading]
  have hne : (c.pieces ++ .text behind :: Fragment.pieces fs).isEmpty = false := by simp
  rw [Fragment.pieces, c.pieces_fragments, hpieces]
  unfold read?
  rw [hleading]
  simp only [hne, c.column?_pieces behind hname]
  exact congrArg (·.bind (around? before c behind)) hvalues

theorem around?_of_frame {before behind after op : String} {f g : Wrapper}
    (h : frame? before behind after = some (f, op, g)) (c : Column) (v : Scalar) :
    around? before c behind [(v, after)] = some (.compare f c op g v) := by
  rw [around?, comparison?, h]
  rfl

theorem around?_of_plain {behind : String} {c : Column} {values : List (Scalar × String)}
    (h : comparison? "" c behind values = none) :
    around? "" c behind values = plain? c behind values := by
  unfold around?
  rw [h]
  rfl

def enclosed (v : Scalar) : List Scalar → List (Scalar × String)
  | [] => [(v, ")")]
  | w :: rest => (v, ", ") :: enclosed w rest

theorem operands?_enclosed (v : Scalar) (vs : List Scalar) :
    Piece.operands? (Fragment.pieces (.value (.scalar v) ::
      (vs.flatMap (fun w => [.text ", ", .value (.scalar w)]) ++ [.text ")"]))) =
        some (enclosed v vs) := by
  induction vs generalizing v with
  | nil => rfl
  | cons w rest ih =>
    have hrest := congrArg (Option.map ((v, ", ") :: ·)) (ih w)
    exact hrest

theorem members?_enclosed (v : Scalar) (vs : List Scalar) : members? (enclosed v vs) = some (v :: vs) := by
  induction vs generalizing v with
  | nil => rfl
  | cons w rest ih =>
    have hstep : members? (enclosed v (w :: rest)) = (members? (enclosed w rest)).map (v :: ·) := by
      cases rest <;> rfl
    rw [hstep, ih]
    rfl

theorem comparison?_enclosed (c : Column) (negated : Bool) (v : Scalar) (vs : List Scalar) :
    comparison? "" c (if negated then " not in (" else " in (") (enclosed v vs) = none := by
  cases vs with
  | nil =>
    have hframe : frame? "" (if negated then " not in (" else " in (") ")" = none := by
      cases negated <;> decide +kernel
    rw [enclosed, comparison?, hframe]
    rfl
  | cons w rest => cases rest <;> rfl

theorem frame?_compare (d : Dialect) (op : Operator) :
    frame? "" (" " ++ d.comparison op ++ " ") "" = some (("", ""), d.comparison op, ("", "")) := by
  have hall : ∀ op ∈ Operator.all,
      frame? "" (" " ++ d.comparison op ++ " ") "" = some (("", ""), d.comparison op, ("", "")) := by
    cases d <;> decide +kernel
  exact hall op op.mem_all

theorem frame?_datePart (d : Dialect) (part : DatePart) (op : Operator) :
    frame? (d.datePart part).1 ((d.datePart part).2 ++ " " ++ op.spelling ++ " " ++ d.dateOperand.1)
      d.dateOperand.2 = some (d.datePart part, op.spelling, d.dateOperand) := by
  have hall : ∀ op ∈ Operator.all,
      frame? (d.datePart part).1
        ((d.datePart part).2 ++ " " ++ op.spelling ++ " " ++ d.dateOperand.1) d.dateOperand.2 =
          some (d.datePart part, op.spelling, d.dateOperand) := by
    cases d <;> cases part <;> decide +kernel
  exact hall op op.mem_all

end Predicate

namespace Test

variable {d : Dialect}

/-- The predicate that a test is meant to be. There is none with a list for a value. -/
def predicate? (d : Dialect) (c : Column) : Test → Option Predicate
  | compare .eq .null => some (.isNull c false)
  | compare .ne .null | compare .bangNe .null => some (.isNull c true)
  | compare op v => v.scalar?.map (.compare ("", "") c (d.comparison op) ("", "") ·)
  | between low high negated => do
    let low ← low.scalar?
    let high ← high.scalar?
    some (.between c low high negated)
  | oneOf [] negated => some (.constant negated)
  | oneOf vs negated => (vs.mapM Value.scalar?).map (.oneOf c · negated)
  | isNull negated => some (.isNull c negated)
  | datePart part op v => v.scalar?.map (.compare (d.datePart part) c op.spelling d.dateOperand ·)

theorem nameless_tail (t : Test) : ∀ f ∈ t.tail d, Nameless d f := by
  have hand : Nameless d (.text " and ") := nameless_of_isPlain (by decide)
  have hclose : Nameless d (.text ")") := nameless_of_isPlain (by decide)
  cases t with
  | compare op v => simp [tail]
  | between low high negated => simp [tail, hand]
  | oneOf vs negated =>
    cases vs with
    | nil => simp [tail]
    | cons v vs =>
      have hcomma : Nameless d (.text ", ") := nameless_of_isPlain (by decide)
      have hvalues := forall_mem_separated hcomma (fun v => [.value v]) (v :: vs) fun v _ => by simp
      exact List.forall_mem_append.mpr ⟨hvalues, by simp [hclose]⟩
  | isNull negated => simp [tail]
  | datePart part op v =>
    have hop := nameless_of_isPlain (d := d)
      (isPlain_append (isPlain_append op.isPlain_spelling (t := " ") (by decide)) d.dateOperand_texts.1)
    have hafter := nameless_of_isPlain (d := d) d.dateOperand_texts.2.1
    simp [tail, hop, hafter]

theorem nameless (c : Column) (t : Test) : ∀ f ∈ t.fragments d c, Nameless d f := by
  have hbehind (f : Form) {fs : List Fragment} (hfs : ∀ f ∈ fs, Nameless d f) :
      ∀ g ∈ c.fragments ++ .text (f.behind d) :: fs, Nameless d g :=
    List.forall_mem_append.mpr ⟨c.nameless,
      List.forall_mem_cons.mpr ⟨nameless_of_isPlain (f.isPlain_behind d), hfs⟩⟩
  cases t with
  | compare op v =>
    obtain h | ⟨negated, -, h⟩ := normal_compare op v
    · rw [fragments_compare h]
      exact hbehind (.compare op) (nameless_tail (.compare op v))
    · rw [h]
      exact hbehind (.isNull negated) (List.forall_mem_nil _)
  | between low high negated =>
    exact hbehind (.between negated) (nameless_tail (.between low high negated))
  | oneOf vs negated =>
    cases vs with
    | nil => cases negated <;> exact List.forall_mem_singleton.mpr (nameless_of_isPlain (by decide))
    | cons v vs =>
      rw [fragments_oneOf]
      exact hbehind (.oneOf negated) (nameless_tail (.oneOf (v :: vs) negated))
  | isNull negated => exact hbehind (.isNull negated) (List.forall_mem_nil _)
  | datePart part op v =>
    have hbefore : ∀ l ∈ (Mode.plain.run d (d.datePart part).1.toList).1, l.isName = false := by
      cases d <;> cases part <;> decide
    have hop : isPlain ((Form.datePart part).behind d ++ (op.spelling ++ " " ++ d.dateOperand.1)) = true :=
      isPlain_append (Form.isPlain_behind d _)
        (isPlain_append (isPlain_append op.isPlain_spelling (by decide)) d.dateOperand_texts.1)
    have hafter := nameless_of_isPlain (d := d) d.dateOperand_texts.2.1
    rw [fragments_datePart]
    refine List.forall_mem_cons.mpr ⟨hbefore, List.forall_mem_append.mpr ⟨c.nameless, ?_⟩⟩
    simp [nameless_of_isPlain hop, hafter]

variable {c : Column} {t : Test} {st : Statement}

theorem behind_ne_empty {f : Form} (h : f.hasColumn = true) : f.behind d ≠ "" := by
  intro hempty
  have hhead := (Form.behind_texts d f f.mem_all).2 h
  rw [hempty] at hhead
  cases hhead

theorem read?_behind (d : Dialect) (c : Column) {f : Form} (hf : f.hasColumn = true)
    (fs : List Fragment) {values : List (Scalar × String)}
    (h : ∀ p ∈ (Fragment.pieces fs).head?, ∃ v, p = .value v)
    (hvalues : Piece.operands? (Fragment.pieces fs) = some values) :
    Predicate.read? (Fragment.pieces (c.fragments ++ .text (f.behind d) :: fs)) =
      Predicate.around? "" c (f.behind d) values := by
  have hread := Predicate.read?_fragments "" (behind_ne_empty (d := d) hf) c fs h hvalues
  rwa [Fragment.pieces, Piece.glue_empty] at hread

theorem read?_isNull (negated : Bool) :
    Predicate.read? (Fragment.pieces ((isNull negated).fragments d c)) = some (.isNull c negated) := by
  have hread := read?_behind d c (f := .isNull negated) rfl [] nofun rfl
  refine hread.trans ((Predicate.around?_of_plain rfl).trans ?_)
  cases negated <;> rfl

theorem read?_compare {op : Operator} {v : Scalar}
    (h : (compare op (.scalar v)).normal = compare op (.scalar v)) :
    Predicate.read? (Fragment.pieces ((compare op (.scalar v)).fragments d c)) =
      some (.compare ("", "") c (d.comparison op) ("", "") v) := by
  rw [fragments_compare h]
  have hread := read?_behind d c (f := .compare op) rfl [.value (.scalar v)]
    (by simp [Fragment.pieces]) rfl
  exact hread.trans (Predicate.around?_of_frame (Predicate.frame?_compare d op) c v)

theorem read?_between (low high : Scalar) (negated : Bool) :
    Predicate.read? (Fragment.pieces ((between (.scalar low) (.scalar high) negated).fragments d c)) =
      some (.between c low high negated) := by
  have hread := read?_behind d c (f := .between negated) rfl
    [.value (.scalar low), .text " and ", .value (.scalar high)] (by simp [Fragment.pieces]) rfl
  refine hread.trans ((Predicate.around?_of_plain rfl).trans ?_)
  cases negated <;> rfl

theorem tail_oneOf (v : Value) (vs : List Value) (negated : Bool) : tail d (oneOf (v :: vs) negated) =
    .value v :: (vs.flatMap (fun w => [.text ", ", .value w]) ++ [.text ")"]) := by
  rw [tail, intercalate_map_cons]
  rfl

theorem read?_oneOf (v : Scalar) (vs : List Scalar) (negated : Bool) :
    Predicate.read? (Fragment.pieces
      ((oneOf (.scalar v :: vs.map .scalar) negated).fragments d c)) =
        some (.oneOf c (v :: vs) negated) := by
  rw [fragments_oneOf, tail_oneOf, List.flatMap_map]
  have hread := read?_behind d c (f := .oneOf negated) rfl _ (by simp [Fragment.pieces])
    (Predicate.operands?_enclosed v vs)
  refine hread.trans
    ((Predicate.around?_of_plain (Predicate.comparison?_enclosed c negated v vs)).trans ?_)
  have hmembers := congrArg (Option.map (Predicate.oneOf c · negated))
    (Predicate.members?_enclosed v vs)
  cases negated <;> exact hmembers

theorem read?_datePart (part : DatePart) (op : Operator) (v : Scalar) :
    Predicate.read? (Fragment.pieces ((datePart part op (.scalar v)).fragments d c)) =
      some (.compare (d.datePart part) c op.spelling d.dateOperand v) := by
  have hne : (Form.datePart part).behind d ++ (op.spelling ++ " " ++ d.dateOperand.1) ≠ "" := by
    simp
  have hoperands : Piece.operands? (Fragment.pieces [.value (.scalar v), .text d.dateOperand.2]) =
      some [(v, d.dateOperand.2)] := by
    cases d <;> rfl
  rw [fragments_datePart]
  have hread := Predicate.read?_fragments (d.datePart part).1 hne c
    [.value (.scalar v), .text d.dateOperand.2] (by simp [Fragment.pieces]) hoperands
  refine hread.trans (Predicate.around?_of_frame ?_ c v)
  rw [← Predicate.frame?_datePart d part op]
  simp only [Form.behind, String.append_assoc]

theorem predicate?_normal (d : Dialect) (c : Column) (t : Test) :
    t.normal.predicate? d c = t.predicate? d c := by
  unfold normal
  split <;> rfl

theorem predicate?_compare {op : Operator} {v : Value} (h : (compare op v).normal = compare op v) :
    (compare op v).predicate? d c = v.scalar?.map (.compare ("", "") c (d.comparison op) ("", "") ·) := by
  unfold normal at h
  unfold predicate?
  split
  all_goals try contradiction
  · next heq => cases heq; cases h
  · next heq => cases heq; cases h
  · next heq => cases heq; cases h
  · next heq => cases heq; rfl

theorem exists_scalars {vs : List Value} (h : ∀ v ∈ vs, (value v).fault? = none) :
    ∃ scalars : List Scalar, vs = scalars.map .scalar ∧ vs.mapM Value.scalar? = some scalars := by
  induction vs with
  | nil => exact ⟨[], rfl, rfl⟩
  | cons v rest ih =>
    obtain ⟨hv, hrest⟩ := List.forall_mem_cons.mp h
    obtain ⟨s, rfl⟩ := eq_scalar_of_sound hv
    obtain ⟨scalars, rfl, hscalars⟩ := ih hrest
    refine ⟨s :: scalars, rfl, ?_⟩
    rw [List.mapM_cons, hscalars]
    rfl

/-- What the text of a test says is what the test is meant to be. -/
theorem exists_predicate (h : Sound (t.fragments d c)) :
    ∃ p, t.predicate? d c = some p ∧ Predicate.read? (Fragment.pieces (t.fragments d c)) = some p := by
  -- A test that has a text has no list among its values.
  cases t with
  | compare op v =>
    obtain hn | ⟨negated, hn, hfragments⟩ := normal_compare op v
    · rw [fragments_compare hn] at h
      obtain ⟨s, rfl⟩ := eq_scalar_of_sound (sound_text.mp (sound_append.mp h).2 _ List.mem_cons_self)
      exact ⟨_, predicate?_compare hn, read?_compare hn⟩
    · rw [hfragments, ← predicate?_normal, hn]
      exact ⟨_, rfl, read?_isNull negated⟩
  | between low high negated =>
    have hbehind := sound_text.mp (sound_append.mp h).2
    obtain ⟨lo, rfl⟩ := eq_scalar_of_sound (hbehind _ List.mem_cons_self)
    obtain ⟨hi, rfl⟩ := eq_scalar_of_sound (hbehind (.value high) (by simp))
    exact ⟨_, rfl, read?_between lo hi negated⟩
  | oneOf vs negated =>
    cases vs with
    | nil => cases negated <;> exact ⟨_, rfl, rfl⟩
    | cons v vs =>
      rw [fragments_oneOf, tail_oneOf] at h
      have hbehind := sound_cons.mp (sound_text.mp (sound_append.mp h).2)
      obtain ⟨s, rfl⟩ := eq_scalar_of_sound hbehind.1
      have hvs : ∀ w ∈ vs, (value w).fault? = none := fun w hw =>
        hbehind.2 _ (List.mem_append_left _ (List.mem_flatMap.mpr ⟨w, hw, by simp⟩))
      obtain ⟨scalars, rfl, hscalars⟩ := exists_scalars hvs
      refine ⟨_, ?_, read?_oneOf s scalars negated⟩
      rw [predicate?, List.mapM_cons, hscalars]
      · rfl
      · exact List.cons_ne_nil _ _
  | isNull negated => exact ⟨_, rfl, read?_isNull negated⟩
  | datePart part op v =>
    rw [fragments_datePart] at h
    have hbehind := sound_text.mp (sound_append.mp (sound_text.mp h)).2
    obtain ⟨s, rfl⟩ := eq_scalar_of_sound (hbehind _ List.mem_cons_self)
    exact ⟨_, rfl, read?_datePart part op s⟩

/-- From a statement of a test the predicate is read that the test is meant to be. -/
theorem predicate?_of_statement
    (h : Statement.ofFragments d .placeholders (t.fragments d c) = .ok st) :
    ∃ p, t.predicate? d c = some p ∧ st.predicate? d = some p := by
  have hpieces := pieces_of_statement (t.phrase d c).clean (t.nameless c) h
  have hsound := (Statement.ofFragments_eq_ok.mp h).1
  unfold Statement.predicate?
  rw [hpieces]
  exact exists_predicate hsound

end Test

end EntityQuery
