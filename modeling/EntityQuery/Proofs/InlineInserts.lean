import EntityQuery.Proofs.UnionTexts

namespace EntityQuery

open Fragment

namespace Dialect

variable (d : Dialect)

/-- The characters of lexemes, with texts in the place of the placeholders, provided that there are as
many texts as placeholders. -/
def substitute : List Lexeme → List String → Option (List Char)
  | [], texts => if texts.isEmpty then some [] else none
  | l :: ls, texts =>
    if l.isPlaceholder then
      texts.head?.bind fun t => (substitute ls texts.tail).map (t.toList ++ ·)
    else (substitute ls texts).map (l.text d ++ ·)

/-- A text with the `k`-th of some texts in the place of the `k`-th placeholder. -/
def withTexts? (sql : String) (texts : List String) : Option String :=
  (d.substitute (d.lex sql.toList) texts).map String.ofList

example : mysql.withTexts? "insert into `a?` (`$1`) values (?, ?)" ["1", "'?'"] =
    some "insert into `a?` (`$1`) values (1, '?')" := by
  decide +kernel

variable {d}

theorem substitute_append {ls : List Lexeme} (h : ∀ l ∈ ls, l.isPlaceholder = false)
    (rest : List Lexeme) (texts : List String) :
    d.substitute (ls ++ rest) texts = (d.substitute rest texts).map (ls.flatMap (Lexeme.text d) ++ ·) := by
  induction ls with
  | nil => simp
  | cons l ls ih =>
    have hl : ¬ l.isPlaceholder = true := by simp [h l List.mem_cons_self]
    rw [List.cons_append, substitute, if_neg hl, ih fun m hm => h m (List.mem_cons_of_mem l hm),
      Option.map_map, List.flatMap_cons]
    congr 1
    funext cs
    exact (List.append_assoc _ _ _).symm

end Dialect

variable {d : Dialect}

namespace Fragment

def literals (d : Dialect) (fs : List Fragment) : List String :=
  (fs.filterMap scalar?).map fun s => String.ofList (d.literal s)

theorem literals_cons_none {f : Fragment} (h : f.scalar? = none) (rest : List Fragment) :
    literals d (f :: rest) = literals d rest := by
  unfold literals
  rw [List.filterMap_cons_none h]

theorem substitute_lexemes {fs : List Fragment} (h : Clean d fs) (n : Nat) :
    d.substitute (lexemes d n fs) (literals d fs) = some (spell d .inline n fs) := by
  induction fs generalizing n with
  | nil => rfl
  | cons f rest ih =>
    cases f with
    | text s =>
      rw [lexemes, literals_cons_none rfl, Dialect.substitute_append h.1.2, ih h.2,
        h.1.flatMap_text, spell]
      rfl
    | name s =>
      have hname : ¬ (Lexeme.name s.toList).isPlaceholder = true := Bool.false_ne_true
      rw [lexemes, literals_cons_none rfl, Dialect.substitute, if_neg hname, ih h.2, spell]
      rfl
    | value v =>
      cases v with
      | list vs => exact ih h.2 n
      | scalar s =>
        have hmarker : (d.marker (n + 1)).isPlaceholder = true := by cases d <;> rfl
        have hliterals : literals d (value (.scalar s) :: rest) =
            String.ofList (d.literal s) :: literals d rest := rfl
        rw [lexemes, hliterals, Dialect.substitute, if_pos hmarker]
        simp only [List.head?_cons, List.tail_cons, Option.bind_some, ih h.2, Option.map_some,
          String.toList_ofList, spell, Style.spell]
    | fault e => exact ih h n

theorem mapM_literal (d : Dialect) (fs : List Fragment) :
    ((fs.filterMap scalar?).map Value.scalar).mapM (Value.literal d) = .ok (literals d fs) := by
  unfold literals
  generalize fs.filterMap scalar? = scalars
  induction scalars with
  | nil => rfl
  | cons s rest ih =>
    rw [List.map_cons, List.mapM_cons, ih]
    rfl

end Fragment

namespace Statement

/-- The statements that fragments make in the two styles: a fault is the same in both, and without one
the text with values comes from the text with placeholders. -/
theorem ofFragments_styles {fs : List Fragment} (h : Clean d fs) :
    (∃ f ∈ fs, ∃ e, f.fault? = some e ∧ ofFragments d .placeholders fs = .error e ∧
      ofFragments d .inline fs = .error e) ∨
    ∃ st texts sql, ofFragments d .placeholders fs = .ok st ∧
      st.bindings.mapM (Value.literal d) = .ok texts ∧ d.withTexts? st.sql texts = some sql ∧
      ofFragments d .inline fs = .ok ⟨sql, []⟩ := by
  cases hfault : fs.findSome? fault? with
  | some e =>
    obtain ⟨f, hf, he⟩ := List.exists_of_findSome?_eq_some hfault
    exact .inl ⟨f, hf, e, he, ofFragments_of_fault hfault _, ofFragments_of_fault hfault _⟩
  | none =>
    refine .inr ⟨_, _, _, ofFragments_of_sound hfault _, mapM_literal d fs, ?_,
      ofFragments_of_sound hfault _⟩
    unfold Dialect.withTexts?
    rw [String.toList_ofList, lex_spell h, substitute_lexemes h]
    rfl

end Statement

namespace Fragment

def HasLiterals (fs : List Fragment) : Prop := ∀ f ∈ fs, f.fault? ≠ some .listLiteral

theorem hasLiterals_append {fs gs : List Fragment} :
    HasLiterals (fs ++ gs) ↔ HasLiterals fs ∧ HasLiterals gs := List.forall_mem_append

theorem hasLiterals_cons {f : Fragment} {fs : List Fragment} :
    HasLiterals (f :: fs) ↔ f.fault? ≠ some .listLiteral ∧ HasLiterals fs := List.forall_mem_cons

theorem hasLiterals_value (v : Value) : HasLiterals [value v] := by
  cases v <;> simp [HasLiterals, fault?]

theorem hasLiterals_separated {α : Type} (s : String) (p : α → List Fragment) (xs : List α)
    (h : ∀ x ∈ xs, HasLiterals (p x)) : HasLiterals ([.text s].intercalate (xs.map p)) :=
  forall_mem_separated (by simp [fault?]) p xs h

end Fragment

theorem Row.hasLiterals (columns : List String) (i : Nat) (row : Row) :
    HasLiterals (row.fragments columns i) := by
  have hcells := hasLiterals_separated ", " (fun cell => [value cell.2]) row.toList
    fun cell _ => hasLiterals_value cell.2
  unfold fragments
  split
  · exact hasLiterals_cons.mpr ⟨by simp [fault?],
      hasLiterals_append.mpr ⟨hcells, by simp [HasLiterals, fault?]⟩⟩
  · simp [HasLiterals, fault?]

theorem hasLiterals_insert (table : String) (first : Row) (rows : List Row) :
    HasLiterals (insertFragments table first rows) := by
  have hcolumns := hasLiterals_separated ", " (fun column => [name column]) first.keys
    fun column _ => by simp [HasLiterals, fault?]
  have hrows := hasLiterals_separated ", " (fun p => p.1.fragments first.keys p.2)
    (first :: rows).zipIdx fun p _ => p.1.hasLiterals first.keys p.2
  unfold insertFragments
  split
  · simp [HasLiterals, fault?]
  · rw [List.mapIdx_eq_zipIdx_map]
    simp only [hasLiterals_append]
    exact ⟨⟨⟨by simp [HasLiterals, fault?], hcolumns⟩, by simp [HasLiterals, fault?]⟩, hrows⟩

/-- The two styles of an insert are one statement: there is none in either, both fail for the same
reason, which is never a missing literal, or the text with the values in it is the text with placeholders,
the `k`-th of which is replaced by the literal of the `k`-th bound value. -/
theorem insert_styles_agree (d : Dialect) (table : String) (rows : List Row) :
    (insertStatement d .placeholders table rows = .ok none ∧
      insertStatement d .inline table rows = .ok none) ∨
    (∃ e, e ≠ .listLiteral ∧ insertStatement d .placeholders table rows = .error e ∧
      insertStatement d .inline table rows = .error e) ∨
    ∃ st texts sql, insertStatement d .placeholders table rows = .ok (some st) ∧
      st.bindings.mapM (Value.literal d) = .ok texts ∧ d.withTexts? st.sql texts = some sql ∧
      insertStatement d .inline table rows = .ok (some ⟨sql, []⟩) := by
  cases rows with
  | nil => exact .inl ⟨rfl, rfl⟩
  | cons first rest =>
    have hstatement {style : Style} {out : Except RenderFault Statement}
        (h : Statement.ofFragments d style (insertFragments table first rest) = out) :
        insertStatement d style table (first :: rest) = some <$> out := by
      rw [insertStatement, h]
    obtain ⟨f, hf, e, he, hplaceholders, hinline⟩ |
      ⟨st, texts, sql, hplaceholders, htexts, hsql, hinline⟩ :=
      Statement.ofFragments_styles (insertFragments_phrase d table first rest).clean
    · refine .inr (.inl ⟨e, ?_, hstatement hplaceholders, hstatement hinline⟩)
      rintro rfl
      exact hasLiterals_insert table first rest f hf he
    · exact .inr (.inr ⟨st, texts, sql, hstatement hplaceholders, htexts, hsql, hstatement hinline⟩)

end EntityQuery
