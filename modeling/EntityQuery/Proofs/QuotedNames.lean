import EntityQuery.Proofs.Phrases
import EntityQuery.Sql.Render

namespace EntityQuery

namespace Text

def quoted (mark : Char) (s : List Char) : List Char :=
  mark :: s.flatMap (fun c => if c = mark then [c, c] else [c]) ++ [mark]

def beforeMark? (mark : Char) : List Char → Option (List Char × List Char)
  | [] => none
  | [c] => if c = mark then some ([], []) else none
  | c :: c' :: rest =>
    if c = mark then
      if c' = mark then (beforeMark? mark rest).map fun (s, rest) => (mark :: s, rest)
      else some ([], c' :: rest)
    else (beforeMark? mark (c' :: rest)).map fun (s, rest) => (c :: s, rest)

/-- The quoted text at the front of a text, and what stands behind it. -/
def unquote? (mark : Char) : List Char → Option (List Char × List Char)
  | [] => none
  | c :: rest => if c = mark then beforeMark? mark rest else none

variable {mark : Char} {s rest text : List Char}

theorem beforeMark?_eq_some (h : beforeMark? mark text = some (s, rest)) :
    text = s.flatMap (fun c => if c = mark then [c, c] else [c]) ++ mark :: rest ∧
      rest.head? ≠ some mark := by
  induction text using beforeMark?.induct mark generalizing s with
  | case1 => cases h
  | case2 =>
    rw [beforeMark?, if_pos rfl] at h
    cases h
    exact ⟨rfl, nofun⟩
  | case3 c hc =>
    rw [beforeMark?, if_neg hc] at h
    cases h
  | case4 tail ih =>
    rw [beforeMark?, if_pos rfl, if_pos rfl] at h
    obtain ⟨⟨s', rest'⟩, hrest, heq⟩ := Option.map_eq_some_iff.mp h
    cases heq
    obtain ⟨rfl, hhead⟩ := ih hrest
    exact ⟨by simp, hhead⟩
  | case5 c' tail hc' =>
    rw [beforeMark?, if_pos rfl, if_neg hc'] at h
    cases h
    exact ⟨rfl, fun heq => hc' (Option.some.inj heq)⟩
  | case6 c c' tail hc ih =>
    rw [beforeMark?, if_neg hc] at h
    obtain ⟨⟨s', rest'⟩, hrest, heq⟩ := Option.map_eq_some_iff.mp h
    cases heq
    obtain ⟨htail, hhead⟩ := ih hrest
    exact ⟨by simp [hc, htail], hhead⟩

theorem beforeMark?_of_head (h : rest.head? ≠ some mark) (s : List Char) :
    beforeMark? mark (s.flatMap (fun c => if c = mark then [c, c] else [c]) ++ mark :: rest) =
      some (s, rest) := by
  induction s with
  | nil =>
    cases rest with
    | nil => exact if_pos rfl
    | cons c rest =>
      have hc : c ≠ mark := fun heq => h (congrArg some heq)
      simp [beforeMark?, hc]
  | cons c s ih =>
    by_cases hc : c = mark
    · subst hc
      simp [beforeMark?, ih]
    · -- The reader looks at two characters, and the mark at the end is behind the first one.
      obtain ⟨c', tail, htail⟩ : ∃ c' tail,
          s.flatMap (fun c => if c = mark then [c, c] else [c]) ++ mark :: rest = c' :: tail :=
        List.exists_cons_of_ne_nil (by simp)
      rw [htail] at ih
      simp [hc, htail, beforeMark?, ih]

theorem unquote?_eq_some :
    unquote? mark text = some (s, rest) ↔ text = quoted mark s ++ rest ∧ rest.head? ≠ some mark := by
  have hquoted : quoted mark s ++ rest =
      mark :: (s.flatMap (fun c => if c = mark then [c, c] else [c]) ++ mark :: rest) := by
    simp [quoted]
  rw [hquoted]
  constructor
  · intro h
    cases text with
    | nil => cases h
    | cons c text =>
      by_cases hc : c = mark
      · subst hc
        rw [unquote?, if_pos rfl] at h
        obtain ⟨rfl, hhead⟩ := beforeMark?_eq_some h
        exact ⟨rfl, hhead⟩
      · rw [unquote?, if_neg hc] at h
        cases h
  · rintro ⟨rfl, hhead⟩
    rw [unquote?, if_pos rfl]
    exact beforeMark?_of_head hhead s

end Text

namespace Dialect

variable (d : Dialect)

def name? (text : List Char) : Option (String × List Char) :=
  (Text.unquote? d.quoteMark text).map fun (s, rest) => (String.ofList s, rest)

/-- The column at the front of a text, and what stands behind it. A point behind a name wants another
name. -/
def column? (text : List Char) : Option (Column × List Char) := do
  match ← d.name? text with
  | (table, '.' :: rest) => (d.name? rest).map fun (name, rest) => (.qualified table name, rest)
  | (name, rest) => some (.bare name, rest)

variable {d} {text rest : List Char}

theorem name?_eq_some {name : String} : d.name? text = some (name, rest) ↔
    text = d.quote name.toList ++ rest ∧ rest.head? ≠ some d.quoteMark := by
  have hread : d.name? text = some (name, rest) ↔
      Text.unquote? d.quoteMark text = some (name.toList, rest) := by
    unfold name?
    rw [Option.map_eq_some_iff]
    constructor
    · rintro ⟨⟨s, rest⟩, h, heq⟩
      cases heq
      rwa [String.toList_ofList]
    · intro h
      exact ⟨_, h, by simp only [String.ofList_toList]⟩
  exact hread.trans Text.unquote?_eq_some

end Dialect

namespace Column

variable {d : Dialect} {text rest : List Char}

theorem spell_qualified (d : Dialect) (style : Style) (n : Nat) (table name : String) :
    spell d style n (qualified table name).fragments =
      d.quote table.toList ++ '.' :: d.quote name.toList := by
  simp [qualified, fragments, spell]

theorem spell_bare (d : Dialect) (style : Style) (n : Nat) (name : String) :
    spell d style n (bare name).fragments = d.quote name.toList := by
  simp [bare, fragments, spell]

theorem write_fragments (style : Style) (n : Nat) (c : Column) :
    write d style n c.fragments = .ok (spell d style n c.fragments) := by
  obtain ⟨_ | table, name⟩ := c <;> exact write_eq d style n _

theorem column?_eq_some {c : Column} (style : Style) (n : Nat) : d.column? text = some (c, rest) ↔
    text = spell d style n c.fragments ++ rest ∧ rest.head? ≠ some d.quoteMark ∧
      (c.table.isSome ∨ rest.head? ≠ some '.') := by
  unfold Dialect.column?
  constructor
  · intro hread
    obtain ⟨⟨name, behind⟩, hname, h⟩ := Option.bind_eq_some_iff.mp hread
    obtain ⟨rfl, hhead⟩ := Dialect.name?_eq_some.mp hname
    split at h
    · next table rest' heq =>
      cases heq
      obtain ⟨⟨column, rest'⟩, hcolumn, heq⟩ := Option.map_eq_some_iff.mp h
      cases heq
      obtain ⟨rfl, hbehind⟩ := Dialect.name?_eq_some.mp hcolumn
      rw [spell_qualified]
      exact ⟨by simp, hbehind, .inl rfl⟩
    · next hpoint heq =>
      cases heq
      cases h
      rw [spell_bare]
      refine ⟨rfl, hhead, .inr fun hdot => ?_⟩
      obtain ⟨tail, rfl⟩ := List.head?_eq_some_iff.mp hdot
      exact hpoint tail rfl
  · rintro ⟨rfl, hhead, hpoint⟩
    obtain ⟨_ | table, name⟩ := c
    · have hname : d.name? (spell d style n (bare name).fragments ++ rest) = some (name, rest) :=
        Dialect.name?_eq_some.mpr ⟨by rw [spell_bare], hhead⟩
      have hdot : rest.head? ≠ some '.' := hpoint.resolve_left Bool.false_ne_true
      refine Option.bind_eq_some_iff.mpr ⟨_, hname, ?_⟩
      split
      · next heq =>
        cases heq
        exact absurd rfl hdot
      · next heq =>
        cases heq
        rfl
    · have hdot : ('.' :: (d.quote name.toList ++ rest)).head? ≠ some d.quoteMark := by
        cases d <;> simp [Dialect.quoteMark]
      have htable : d.name? (spell d style n (qualified table name).fragments ++ rest) =
          some (table, '.' :: (d.quote name.toList ++ rest)) :=
        Dialect.name?_eq_some.mpr ⟨by simp [spell_qualified], hdot⟩
      have hname : d.name? (d.quote name.toList ++ rest) = some (name, rest) :=
        Dialect.name?_eq_some.mpr ⟨rfl, hhead⟩
      exact Option.bind_eq_some_iff.mpr ⟨_, htable, by simp only [hname, Option.map_some]; rfl⟩

theorem spell_injective {style : Style} {n : Nat} {c c' : Column}
    (h : spell d style n c.fragments = spell d style n c'.fragments) : c = c' := by
  have hread (c : Column) : d.column? (spell d style n c.fragments) = some (c, []) :=
    (column?_eq_some style n).mpr ⟨(List.append_nil _).symm, nofun, .inr nofun⟩
  have hc := hread c
  rw [h, hread c'] at hc
  exact (Prod.mk.inj (Option.some.inj hc)).1.symm

end Column

/-- A quoted name is read back from the front of a text, and what stands behind it is left: a reader
finds a name just where the name in quote marks stands and no other mark follows. So it is with a column
and the name of its table, and different columns are written differently. -/
theorem quoted_names_read_back (d : Dialect) :
    (∀ (name : String) (text rest : List Char), d.name? text = some (name, rest) ↔
      text = d.quote name.toList ++ rest ∧ rest.head? ≠ some d.quoteMark) ∧
    (∀ (style : Style) (n : Nat) (c : Column), ∃ written,
      write d style n c.fragments = .ok written ∧
      ∀ text rest : List Char, d.column? text = some (c, rest) ↔
        text = written ++ rest ∧ rest.head? ≠ some d.quoteMark ∧
          (c.table.isSome ∨ rest.head? ≠ some '.')) ∧
    ∀ (style : Style) (n : Nat) (c c' : Column),
      write d style n c.fragments = write d style n c'.fragments ↔ c = c' := by
  refine ⟨fun name text rest => Dialect.name?_eq_some, fun style n c => ?_, fun style n c c' => ?_⟩
  · exact ⟨_, c.write_fragments style n, fun text rest => Column.column?_eq_some style n⟩
  · rw [c.write_fragments, c'.write_fragments, Except.ok.injEq]
    constructor
    · exact Column.spell_injective
    · rintro rfl
      rfl

example : Dialect.sqlite.column? "\"a\"\".\"\"b\".\"c\", x".toList =
    some (.qualified "a\".\"b" "c", ", x".toList) := by
  decide +kernel

end EntityQuery
