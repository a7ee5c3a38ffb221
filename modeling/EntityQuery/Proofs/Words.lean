import EntityQuery.Proofs.QueryReadings
import Mathlib.Data.List.Chain

namespace EntityQuery

/-- The character that a reader finds, if it is in no name, string or placeholder. -/
def Lexeme.char? : Lexeme → Option Char
  | other c => some c
  | name _ | string _ | mark | numbered _ | unclosed => none

inductive Word where
  | opening
  | closing
  | letters (s : List Char)
  /-- A name, a string or a placeholder. -/
  | operand
  deriving DecidableEq

namespace Word

def ofLetters (s : List Char) : List Word := if s = [] then [] else [letters s]

def split (s : List Char) : List (Option Char) → List Word
  | [] => ofLetters s
  | none :: rest => ofLetters s ++ operand :: split [] rest
  | some c :: rest =>
    if c = '(' then ofLetters s ++ opening :: split [] rest
    else if c = ')' then ofLetters s ++ closing :: split [] rest
    else if c = ' ' ∨ c = ',' then ofLetters s ++ split [] rest
    else split (s ++ [c]) rest

/-- Words that want another one behind them. -/
def opens : Word → Bool
  | opening => true
  | letters s => ["where", "and", "or"].any fun w => w.toList = s
  | closing | operand => false

/-- Words that begin no column, value, condition or query. -/
def closes : Word → Bool
  | closing => true
  | letters s =>
    ["where", "and", "or", "order", "limit", "offset", "union"].any fun w => w.toList = s
  | opening | operand => false

def Fits (w v : Word) : Prop := w.opens = true → v.closes = false

instance (w v : Word) : Decidable (Fits w v) := inferInstanceAs (Decidable (_ → _))

abbrev Chain (ws : List Word) : Prop := ws.IsChain Fits

/-- Words of which each has what it wants behind it. -/
def Whole (ws : List Word) : Prop := Chain ws ∧ ∀ w ∈ ws.getLast?, w.opens = false

instance (ws : List Word) : Decidable (Whole ws) := inferInstanceAs (Decidable (_ ∧ _))

def Starts (ws : List Word) : Prop := ∃ w ∈ ws.head?, w.closes = false

instance (ws : List Word) : Decidable (Starts ws) :=
  decidable_of_iff (ws.head?.any fun w => !w.closes) (by simp [Starts, Option.any_eq_true])

theorem Whole.append {ws vs : List Word} (h : Whole ws) (h' : Whole vs) : Whole (ws ++ vs) := by
  constructor
  · refine List.isChain_append.mpr ⟨h.1, h'.1, fun w hw v _ hopens => ?_⟩
    rw [h.2 w hw] at hopens
    cases hopens
  · intro w hw
    rw [List.getLast?_append] at hw
    cases hv : vs.getLast? with
    | none => exact h.2 w (by simpa [hv] using hw)
    | some v => exact h'.2 w (by simpa [hv] using hw)

theorem Whole.of_chain {ws vs : List Word} (h : Chain ws) (h' : Whole vs) (hs : Starts vs) :
    Whole (ws ++ vs) := by
  obtain ⟨v, hv, hcloses⟩ := hs
  constructor
  · refine List.isChain_append.mpr ⟨h, h'.1, fun w _ v' hv' _ => ?_⟩
    obtain rfl : v = v' := Option.some.inj (hv.symm.trans hv')
    exact hcloses
  · intro w hw
    have hne : vs ≠ [] := by
      rintro rfl
      cases hv
    exact h'.2 w ((List.getLast?_append_of_ne_nil ws hne).symm.trans hw)

theorem Starts.append {ws : List Word} (h : Starts ws) (vs : List Word) : Starts (ws ++ vs) := by
  obtain ⟨w, hw, hcloses⟩ := h
  exact ⟨w, by rw [List.head?_append, hw]; rfl, hcloses⟩

theorem Whole.exists_next {ws before after : List Word} {w : Word} (h : Whole ws)
    (hws : ws = before ++ w :: after) (hw : w.opens = true) :
    ∃ v rest, after = v :: rest ∧ v.closes = false := by
  subst hws
  cases after with
  | nil =>
    have hlast := h.2 w (by simp)
    rw [hw] at hlast
    cases hlast
  | cons v rest =>
    obtain ⟨-, hchain, -⟩ := List.isChain_append.mp h.1
    exact ⟨v, rest, rfl, (List.isChain_cons_cons.mp hchain).1 hw⟩

def isBreak : Option Char → Bool
  | none => true
  | some c => c = '(' || c = ')' || c = ' ' || c = ','

theorem isBreak_of_isDigit {c : Char} (h : c.isDigit = true) : isBreak (some c) = false := by
  rw [isBreak, ← Bool.not_eq_true]
  simp only [Bool.or_eq_true, decide_eq_true_eq]
  rintro (((rfl | rfl) | rfl) | rfl) <;> cases h

variable {r t : List (Option Char)}

theorem split_of_isBreak (s : List Char) {c : Option Char} (h : isBreak c = true)
    (t : List (Option Char)) : split s (c :: t) = ofLetters s ++ split [] (c :: t) := by
  cases c with
  | none => rfl
  | some c =>
    unfold split
    split
    · rfl
    · split
      · rfl
      · split
        · rfl
        · simp_all [isBreak]

theorem split_append (h : ∀ c ∈ t.head?, isBreak c = true) (s : List Char) (r : List (Option Char)) :
    split s (r ++ t) = split s r ++ split [] t := by
  induction r generalizing s with
  | nil =>
    cases t with
    | nil => exact (List.append_nil _).symm
    | cons c t => exact split_of_isBreak s (h c rfl) t
  | cons c r ih =>
    cases c with
    | none => simp [split, ih]
    | some c =>
      rw [List.cons_append, split, split]
      split
      · simp [ih]
      · split
        · simp [ih]
        · split <;> simp [ih]

theorem split_append_of_getLast? (h : ∃ c ∈ r.getLast?, isBreak c = true) (s : List Char)
    (t : List (Option Char)) : split s (r ++ t) = split s r ++ split [] t := by
  obtain ⟨c, hc, hbreak⟩ := h
  obtain ⟨r, rfl⟩ := List.getLast?_eq_some_iff.mp hc
  have hhead (t : List (Option Char)) : ∀ x ∈ (c :: t).head?, isBreak x = true := by simpa
  have hlast : split [] (c :: t) = split [] [c] ++ split [] t := by
    cases c with
    | none => rfl
    | some c =>
      simp only [isBreak, Bool.or_eq_true, decide_eq_true_eq] at hbreak
      obtain ((rfl | rfl) | rfl) | rfl := hbreak <;> rfl
  rw [List.append_assoc, List.singleton_append, split_append (hhead t), split_append (hhead []), hlast,
    List.append_assoc]

theorem split_map_some {l : List Char} (h : ∀ c ∈ l, isBreak (some c) = false) (s : List Char) :
    split s (l.map some) = ofLetters (s ++ l) := by
  induction l generalizing s with
  | nil => rw [List.append_nil]; rfl
  | cons c l ih =>
    obtain ⟨hc, hl⟩ := List.forall_mem_cons.mp h
    simp only [isBreak, Bool.or_eq_false_iff, decide_eq_false_iff_not] at hc
    simp [split, hc, ih hl]

/-- A text that wants something behind it, and is parted from that. -/
def Leading (cs : List (Option Char)) : Prop :=
  Chain (split [] cs) ∧ cs.getLast?.any isBreak = true

instance (cs : List (Option Char)) : Decidable (Leading cs) := inferInstanceAs (Decidable (_ ∧ _))

/-- A text in front of a part of a query, where nothing else may be. -/
def Opening (cs : List (Option Char)) : Prop := Leading cs ∧ Starts (split [] cs)

instance (cs : List (Option Char)) : Decidable (Opening cs) := inferInstanceAs (Decidable (_ ∧ _))

/-- A text in front of a part of a query, behind another part. -/
def Link (cs : List (Option Char)) : Prop := Leading cs ∧ cs.head?.all isBreak = true

instance (cs : List (Option Char)) : Decidable (Link cs) := inferInstanceAs (Decidable (_ ∧ _))

end Word

open Word

def Dialect.words (d : Dialect) (sql : String) : List Word :=
  split [] ((d.lex sql.toList).map Lexeme.char?)

namespace Fragment

def chars (d : Dialect) : Fragment → List (Option Char)
  | text s => (Mode.plain.run d s.toList).1.map Lexeme.char?
  | name _ | value _ | fault _ => [none]

def words (d : Dialect) (fs : List Fragment) : List Word := split [] (fs.flatMap (chars d))

variable {d : Dialect} {fs gs : List Fragment} {w : String}

theorem chars_of_isPlain (h : isPlain w = true) (d : Dialect) :
    chars d (.text w) = w.toList.map some := by
  rw [chars, Mode.run_of_isPlain h, List.map_map]
  rfl

theorem flatMap_chars_append {v : String} (hv : isPlain v = true) (hw : isPlain w = true)
    (fs : List Fragment) :
    (.text (v ++ w) :: fs).flatMap (chars d) = (.text v :: .text w :: fs).flatMap (chars d) := by
  rw [List.flatMap_cons, List.flatMap_cons, List.flatMap_cons, chars_of_isPlain (isPlain_append hv hw),
    chars_of_isPlain hv, chars_of_isPlain hw, String.toList_append, List.map_append, List.append_assoc]

@[simp] theorem chars_value (v : Value) : chars d (.value v) = [none] := by
  cases v <;> rfl

theorem char?_lexemes (hs : Sound fs) (n : Nat) :
    (lexemes d n fs).map Lexeme.char? = fs.flatMap (chars d) := by
  induction fs generalizing n with
  | nil => rfl
  | cons f rest ih =>
    obtain ⟨hf, hrest⟩ := List.forall_mem_cons.mp hs
    have ih := ih hrest
    cases f with
    | text s => rw [lexemes, List.map_append, ih, List.flatMap_cons, chars]
    | name s => rw [lexemes, List.map_cons, ih]; rfl
    | value v =>
      cases v with
      | list vs => cases hf
      | scalar s =>
        have hmarker : (d.marker (n + 1)).char? = none := by cases d <;> rfl
        rw [lexemes, List.map_cons, ih, hmarker]
        rfl
    | fault e => cases hf

/-- The words of a statement are those of its fragments. -/
theorem words_of_statement {st : Statement} (h : Clean d fs)
    (hst : Statement.ofFragments d .placeholders fs = .ok st) : d.words st.sql = words d fs := by
  obtain ⟨hsound, htext, -⟩ := Statement.ofFragments_eq_ok.mp hst
  rw [Dialect.words, ← htext, lex_spell h, char?_lexemes hsound, words]

def Parted (d : Dialect) (fs : List Fragment) : Prop :=
  (fs.flatMap (chars d)).head?.all isBreak = true

instance (d : Dialect) (fs : List Fragment) : Decidable (Parted d fs) :=
  inferInstanceAs (Decidable (_ = _))

def Stands (d : Dialect) (fs : List Fragment) : Prop := Whole (words d fs) ∧ Starts (words d fs)

instance (d : Dialect) (fs : List Fragment) : Decidable (Stands d fs) :=
  inferInstanceAs (Decidable (_ ∧ _))

def Trails (d : Dialect) (fs : List Fragment) : Prop := Whole (words d fs) ∧ Parted d fs

instance (d : Dialect) (fs : List Fragment) : Decidable (Trails d fs) :=
  inferInstanceAs (Decidable (_ ∧ _))

theorem words_append (h : Parted d gs) : words d (fs ++ gs) = words d fs ++ words d gs := by
  unfold words
  rw [List.flatMap_append]
  exact split_append (by simpa [Parted, Option.all_eq_true] using h) [] _

theorem words_text (h : Leading (chars d (.text w))) (fs : List Fragment) :
    words d (.text w :: fs) = split [] (chars d (.text w)) ++ words d fs :=
  split_append_of_getLast? (by simpa [Option.any_eq_true] using h.2) [] _

theorem whole_text (hw : Leading (chars d (.text w))) (h : Stands d fs) :
    Whole (words d (.text w :: fs)) := by
  rw [words_text hw]
  exact .of_chain hw.1 h.1 h.2

theorem Parted.append (h : Parted d fs) (h' : Parted d gs) : Parted d (fs ++ gs) := by
  unfold Parted at h h' ⊢
  rw [List.flatMap_append, List.head?_append]
  cases hfs : (fs.flatMap (chars d)).head? with
  | none => simpa using h'
  | some c => simpa [hfs] using h

theorem parted_text (hw : Link (chars d (.text w))) (fs : List Fragment) :
    Parted d (.text w :: fs) := by
  obtain ⟨⟨-, hlast⟩, hfirst⟩ := hw
  unfold Parted
  rw [List.flatMap_cons, List.head?_append]
  cases hchars : chars d (.text w) with
  | nil => simp [hchars] at hlast
  | cons c rest => simpa [hchars] using hfirst

namespace Stands

theorem operand {f : Fragment} (h : chars d f = [none]) : Stands d [f] := by
  have hwords : words d [f] = [.operand] := by
    rw [words, List.flatMap_singleton, h]
    rfl
  unfold Stands
  rw [hwords]
  decide

theorem append (h : Stands d fs) (h' : Trails d gs) : Stands d (fs ++ gs) := by
  unfold Stands
  rw [words_append h'.2]
  exact ⟨h.1.append h'.1, h.2.append _⟩

theorem text (hw : Opening (chars d (.text w))) (h : Stands d fs) : Stands d (.text w :: fs) := by
  refine ⟨whole_text hw.1 h, ?_⟩
  rw [words_text hw.1]
  exact hw.2.append _

end Stands

namespace Trails

theorem nil : Trails d [] := ⟨(by decide : Whole []), rfl⟩

theorem append (h : Trails d fs) (h' : Trails d gs) : Trails d (fs ++ gs) := by
  refine ⟨?_, h.2.append h'.2⟩
  rw [words_append h'.2]
  exact h.1.append h'.1

theorem text (hw : Link (chars d (.text w))) (h : Stands d fs) : Trails d (.text w :: fs) :=
  ⟨whole_text hw.1 h, parted_text hw fs⟩

theorem flatMap {α : Type} {f : α → List Fragment} {xs : List α} (h : ∀ x ∈ xs, Trails d (f x)) :
    Trails d (xs.flatMap f) := by
  induction xs with
  | nil => exact nil
  | cons x rest ih =>
    obtain ⟨hx, hrest⟩ := List.forall_mem_cons.mp h
    exact hx.append (ih hrest)

end Trails

theorem Stands.separated {α : Type} {sep : String} (hsep : Link (chars d (.text sep)))
    {p : α → List Fragment} {x : α} {xs : List α} (h : ∀ y ∈ x :: xs, Stands d (p y)) :
    Stands d ([.text sep].intercalate ((x :: xs).map p)) := by
  obtain ⟨hx, hrest⟩ := List.forall_mem_cons.mp h
  rw [intercalate_map_cons]
  exact hx.append (.flatMap fun y hy => .text hsep (hrest y hy))

theorem Trails.section {α : Type} {opening sep : String}
    (hopening : Link (chars d (.text opening))) (hsep : Link (chars d (.text sep)))
    {p : α → List Fragment} {xs : List α} (h : ∀ x ∈ xs, Stands d (p x)) :
    Trails d (sectionFragments opening sep p xs) := by
  cases xs with
  | nil => exact .nil
  | cons x rest => exact .text hopening (.separated hsep h)

end Fragment

end EntityQuery
