import EntityQuery.Proofs.Phrases

namespace EntityQuery

inductive Token where
  | letter (l : Lexeme)
  /-- A name comes next. -/
  | aName
  | name (s : List Char)
  /-- A value comes next. -/
  | aValue
  | value (s : Scalar)
  deriving DecidableEq

def Lexeme.tokens : Lexeme → List Token
  | .name s => [.aName, .name s]
  | l => [.letter l]

def Dialect.word (d : Dialect) (s : String) : List Token :=
  (Mode.plain.run d s.toList).1.flatMap Lexeme.tokens

def letters (s : String) : List Token := s.toList.map fun c => .letter (.other c)

namespace Fragment

def tokens (d : Dialect) : Fragment → List Token
  | text s => d.word s
  | name s => [.aName, .name s.toList]
  | value (.scalar s) => [.aValue, .value s]
  | value (.list _) | fault _ => []

/-- What a reader finds, with the values in the place of their placeholders. -/
def fill : List Lexeme → List Scalar → List Token
  | [], _ => []
  | l :: ls, vs =>
    if l.isPlaceholder then .aValue :: (vs.take 1).map .value ++ fill ls (vs.drop 1)
    else l.tokens ++ fill ls vs

variable {d : Dialect}

theorem fill_append {ls : List Lexeme} (h : ∀ l ∈ ls, l.isPlaceholder = false) (rest : List Lexeme)
    (vs : List Scalar) : fill (ls ++ rest) vs = ls.flatMap Lexeme.tokens ++ fill rest vs := by
  induction ls with
  | nil => rfl
  | cons l ls ih =>
    have hl : ¬ l.isPlaceholder = true := by simp [h l List.mem_cons_self]
    rw [List.cons_append, fill, if_neg hl, ih fun m hm => h m (List.mem_cons_of_mem l hm),
      List.flatMap_cons, List.append_assoc]

theorem fill_lexemes {fs : List Fragment} (h : Clean d fs) (n : Nat) :
    fill (lexemes d n fs) (fs.filterMap scalar?) = fs.flatMap (tokens d) := by
  induction fs generalizing n with
  | nil => rfl
  | cons f rest ih =>
    rw [List.flatMap_cons]
    cases f with
    | text s =>
      have hrest := ih h.2 n
      rw [List.filterMap_cons_none rfl, lexemes, fill_append h.1.2, hrest]
      rfl
    | name s =>
      have hrest := ih h.2 n
      have hname : ¬ (Lexeme.name s.toList).isPlaceholder = true := Bool.false_ne_true
      rw [List.filterMap_cons_none rfl, lexemes, fill, if_neg hname, hrest]
      rfl
    | value v =>
      cases v with
      | list vs => exact ih h.2 n
      | scalar v =>
        have hmarker : (d.marker (n + 1)).isPlaceholder = true := by cases d <;> rfl
        have hrest := ih h.2 (n + 1)
        rw [lexemes, fill, if_pos hmarker]
        exact congrArg (Token.aValue :: Token.value v :: ·) hrest
    | fault e => exact ih h n

end Fragment

open Fragment

theorem tokens_eq_of_statement {d : Dialect} {fs gs : List Fragment} {st : Statement}
    (hf : Clean d fs) (hg : Clean d gs)
    (hfs : Statement.ofFragments d .placeholders fs = .ok st)
    (hgs : Statement.ofFragments d .placeholders gs = .ok st) :
    fs.flatMap (tokens d) = gs.flatMap (tokens d) := by
  obtain ⟨-, htext, hvalues⟩ := Statement.ofFragments_eq_ok.mp hfs
  obtain ⟨-, htext', hvalues'⟩ := Statement.ofFragments_eq_ok.mp hgs
  have hlexemes : lexemes d 0 fs = lexemes d 0 gs := by
    rw [← lex_spell hf, ← lex_spell hg, htext, htext']
  have hscalars : fs.filterMap scalar? = gs.filterMap scalar? :=
    List.map_inj_right (fun _ _ h => Value.scalar.inj h) |>.mp (hvalues.trans hvalues'.symm)
  rw [← fill_lexemes hf 0, ← fill_lexemes hg 0, hlexemes, hscalars]

theorem Dialect.word_of_isPlain {s : String} (h : isPlain s = true) (d : Dialect) :
    d.word s = letters s := by
  unfold word letters
  rw [Mode.run_of_isPlain h, List.flatMap_map, List.map_eq_flatMap]
  rfl

theorem letters_append (s t : String) : letters (s ++ t) = letters s ++ letters t := by
  unfold letters
  rw [String.toList_append, List.map_append]

end EntityQuery
