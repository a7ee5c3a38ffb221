import EntityQuery.Proofs.Placeholders
import EntityQuery.Proofs.QueryReadings
import Mathlib.Data.List.Basic
import Mathlib.Data.List.Forall2

namespace EntityQuery

open Fragment

namespace Lexeme

def text (d : Dialect) : Lexeme → List Char
  | name s => d.quote s
  | string s => '\x27' :: s.flatMap (fun c => if c = '\x27' then [c, c] else [c]) ++ ['\x27']
  | mark => ['?']
  | numbered ds => '$' :: ds
  | other c => [c]
  | unclosed => []

def raise (n : Nat) : Lexeme → Lexeme
  | numbered ds => numbered (Text.nat (Nat.ofDigitChars 10 ds 0 + n))
  | l => l

end Lexeme

/-- A text whose placeholders are counted on from `n` values before it. Only the placeholders of one
dialect have numbers. -/
def Dialect.raise (d : Dialect) (n : Nat) (s : String) : String :=
  match d with
  | postgres =>
    String.ofList ((d.lex s.toList).flatMap fun l => (l.raise n).text d)
  | mysql | sqlite => s

example : Dialect.postgres.raise 9 "\"$1\" = $1 or '$2' = $12" = "\"$1\" = $10 or '$2' = $21" := by
  decide +kernel

namespace Mode

variable {d : Dialect}

def pending : Mode → List Char
  | plain => []
  | inside mark s => mark :: s.flatMap fun c => if c = mark then [c, c] else [c]
  | closing mark s => mark :: s.flatMap (fun c => if c = mark then [c, c] else [c]) ++ [mark]
  | number ds => '$' :: ds

def Marked (d : Dialect) : Mode → Prop
  | inside mark _ | closing mark _ => mark = d.quoteMark ∨ mark = '\x27'
  | plain | number _ => True

theorem text_quoted {mark : Char} (h : mark = d.quoteMark ∨ mark = '\x27') (s : List Char) :
    (Lexeme.quoted mark s).text d = (closing mark s).pending := by
  obtain rfl | rfl := h
  · cases d <;> rfl
  · rfl

theorem start_text (d : Dialect) (c : Char) :
    (start d c).2.Marked d ∧ (start d c).1.flatMap (Lexeme.text d) ++ (start d c).2.pending = [c] := by
  unfold start
  split
  · next h => exact ⟨h, rfl⟩
  · split
    · next h => exact ⟨trivial, by rw [h]; rfl⟩
    · split
      · next h => exact ⟨trivial, by rw [h]; rfl⟩
      · exact ⟨trivial, rfl⟩

theorem step_text {m : Mode} (h : m.Marked d) (c : Char) :
    (m.step d c).2.Marked d ∧
      (m.step d c).1.flatMap (Lexeme.text d) ++ (m.step d c).2.pending = m.pending ++ [c] := by
  obtain ⟨hs, hc⟩ := start_text d c
  cases m with
  | plain => exact ⟨hs, hc⟩
  | inside mark s =>
    unfold step
    by_cases hm : c = mark
    · subst hm
      simp only [if_true]
      exact ⟨h, rfl⟩
    · simp only [if_neg hm]
      exact ⟨h, by simp [pending, hm]⟩
  | closing mark s =>
    unfold step
    by_cases hm : c = mark
    · subst hm
      simp only [if_true]
      exact ⟨h, by simp [pending]⟩
    · simp only [if_neg hm]
      refine ⟨hs, ?_⟩
      rw [List.flatMap_cons, List.append_assoc, hc, text_quoted h]
  | number ds =>
    unfold step
    by_cases hd : c.isDigit = true
    · simp only [if_pos hd]
      exact ⟨trivial, rfl⟩
    · simp only [if_neg hd]
      refine ⟨hs, ?_⟩
      rw [List.flatMap_cons, List.append_assoc, hc]
      rfl

theorem run_text {m : Mode} (h : m.Marked d) (cs : List Char) :
    (m.run d cs).1.flatMap (Lexeme.text d) ++ (m.run d cs).2.pending = m.pending ++ cs := by
  induction cs generalizing m with
  | nil => simp [run]
  | cons c rest ih =>
    obtain ⟨hs, hc⟩ := step_text h c
    rw [run]
    simp only [List.flatMap_append, List.append_assoc, ih hs]
    rw [← List.append_assoc, hc, List.append_assoc, List.singleton_append]

end Mode

variable {d : Dialect}

theorem Dialect.Quiet.flatMap_text {s : String} (h : d.Quiet s) :
    (Mode.plain.run d s.toList).1.flatMap (Lexeme.text d) = s.toList := by
  have htext := Mode.run_text (d := d) (m := .plain) trivial s.toList
  rw [h.1] at htext
  simpa only [Mode.pending, List.append_nil, List.nil_append] using htext

theorem Dialect.Quiet.flatMap_raise {s : String} (h : d.Quiet s) (n : Nat) :
    (Mode.plain.run d s.toList).1.flatMap (fun l => (l.raise n).text d) = s.toList := by
  refine (List.flatMap_congr fun l hl => ?_).trans h.flatMap_text
  have hquiet := h.2 l hl
  cases l with
  | numbered ds => cases hquiet
  | _ => rfl

theorem Dialect.text_raise_marker (n k : Nat) :
    ((Dialect.postgres.marker k).raise n).text .postgres = Dialect.postgres.placeholder (k + n) := by
  unfold marker Lexeme.raise Lexeme.text placeholder Text.nat
  simp only [Nat.ofDigitChars_ten_toDigits]

namespace Fragment

/-- The text of fragments, raised, is their text behind more values. -/
theorem flatMap_raise {fs : List Fragment} (h : Clean .postgres fs) (n k : Nat) :
    (lexemes .postgres k fs).flatMap (fun l => (l.raise n).text .postgres) =
      spell .postgres .placeholders (k + n) fs := by
  induction fs generalizing k with
  | nil => rfl
  | cons f rest ih =>
    cases f with
    | text s => rw [lexemes, spell, List.flatMap_append, h.1.flatMap_raise, ih h.2]
    | name s =>
      rw [lexemes, spell, List.flatMap_cons, ih h.2]
      rfl
    | value v =>
      cases v with
      | list vs => exact ih h.2 k
      | scalar s =>
        rw [lexemes, spell, List.flatMap_cons, ih h.2, Dialect.text_raise_marker, Nat.add_right_comm,
          Style.spell]
    | fault e => exact ih h k

theorem spell_eq_spell (hd : d ≠ .postgres) (fs : List Fragment) (n k : Nat) :
    spell d .placeholders n fs = spell d .placeholders k fs := by
  induction fs generalizing n k with
  | nil => rfl
  | cons f rest ih =>
    cases f with
    | text s => rw [spell, spell, ih]
    | name s => rw [spell, spell, ih]
    | value v =>
      cases v with
      | list vs => exact ih n k
      | scalar s =>
        have hsame : Style.placeholders.spell d n s = Style.placeholders.spell d k s := by
          cases d with
          | postgres => exact absurd rfl hd
          | mysql | sqlite => rfl
        rw [spell, spell, hsame, ih]
    | fault e => exact ih n k

theorem spell_of_scalars {fs : List Fragment} (h : fs.filterMap scalar? = []) (n k : Nat) :
    spell d .placeholders n fs = spell d .placeholders k fs := by
  induction fs with
  | nil => rfl
  | cons f rest ih =>
    cases f with
    | value v =>
      cases v with
      | list vs => exact ih h
      | scalar s => cases h
    | text s => rw [spell, spell, ih h]
    | name s => rw [spell, spell, ih h]
    | fault e => exact ih h

theorem raise_spell {fs : List Fragment} (h : Clean d fs) (n : Nat) :
    d.raise n (String.ofList (spell d .placeholders 0 fs)) =
      String.ofList (spell d .placeholders n fs) := by
  cases d with
  | postgres =>
    unfold Dialect.raise
    rw [String.toList_ofList, lex_spell h, flatMap_raise h, Nat.zero_add]
  | mysql => exact congrArg String.ofList (spell_eq_spell (by decide) fs 0 n)
  | sqlite => exact congrArg String.ofList (spell_eq_spell (by decide) fs 0 n)

theorem spell_append (d : Dialect) (style : Style) (n : Nat) (fs gs : List Fragment) :
    spell d style n (fs ++ gs) =
      spell d style n fs ++ spell d style (n + (fs.filterMap scalar?).length) gs := by
  induction fs generalizing n with
  | nil => rfl
  | cons f rest ih =>
    cases f with
    | value v =>
      cases v with
      | list vs => exact ih n
      | scalar s =>
        have hscalars : (value (.scalar s) :: rest).filterMap scalar? = s :: rest.filterMap scalar? :=
          rfl
        rw [List.cons_append, spell, spell, ih, List.append_assoc, hscalars, List.length_cons,
          Nat.add_assoc, Nat.add_comm 1]
    | text s =>
      rw [List.cons_append, spell, spell, ih, List.append_assoc, List.filterMap_cons_none rfl]
    | name s =>
      rw [List.cons_append, spell, spell, ih, List.append_assoc, List.filterMap_cons_none rfl]
    | fault e => rw [List.cons_append, spell, spell, ih, List.filterMap_cons_none rfl]

end Fragment

open Fragment

namespace Statement

theorem exists_ofFragments {fs : List Fragment} :
    (∃ st, ofFragments d .placeholders fs = .ok st) ↔ Sound fs := by
  constructor
  · rintro ⟨st, h⟩
    exact sound_of_ok h
  · intro h
    exact ⟨⟨String.ofList (spell d .placeholders 0 fs), (fs.filterMap scalar?).map .scalar⟩,
      ofFragments_eq_ok.mpr ⟨h, String.toList_ofList.symm, rfl⟩⟩

theorem spell_eq_raise {fs : List Fragment} {st : Statement} (hfs : Clean d fs)
    (h : ofFragments d .placeholders fs = .ok st) (n : Nat) :
    spell d .placeholders n fs = (d.raise n st.sql).toList := by
  obtain ⟨-, htext, -⟩ := ofFragments_eq_ok.mp h
  rw [← String.ofList_toList (s := st.sql), ← htext, raise_spell hfs, String.toList_ofList]

theorem length_scalars {fs : List Fragment} {st : Statement}
    (h : ofFragments d .placeholders fs = .ok st) :
    (fs.filterMap scalar?).length = st.bindings.length := by
  obtain ⟨-, -, hbindings⟩ := ofFragments_eq_ok.mp h
  rw [← hbindings, List.length_map]

def memberTexts (d : Dialect) : Nat → List (UnionType × Statement) → String
  | _, [] => ""
  | n, (type, st) :: rest =>
    Select.unionText type ++ d.raise n st.sql ++ ")" ++ memberTexts d (n + st.bindings.length) rest

/-- The statement of a union, from the statement of the query without it, those of the members, and the
orderings of the union. -/
def united (d : Dialect) (own : Statement) (members : List (UnionType × Statement))
    (keys : List SortKey) : Statement where
  sql := "(" ++ own.sql ++ ")" ++ memberTexts d own.bindings.length members ++
    String.ofList (spell d .placeholders 0 (SortKey.listFragments keys))
  bindings := own.bindings ++ members.flatMap fun m => m.2.bindings

end Statement

theorem SortKey.sound_list (keys : List SortKey) : Sound (listFragments keys) := by
  have hkey (k : SortKey) : Sound k.fragments :=
    sound_append.mpr ⟨k.column.sound, sound_text.mpr sound_nil⟩
  cases keys with
  | nil => exact sound_nil
  | cons k rest =>
    rw [listFragments_eq, sectionFragments, intercalate_map_cons]
    refine sound_text.mpr (sound_append.mpr ⟨hkey k, ?_⟩)
    intro f hf
    obtain ⟨key, -, hf⟩ := List.mem_flatMap.mp hf
    exact sound_text.mpr (hkey key) f hf

theorem SortKey.scalars_list (keys : List SortKey) : (listFragments keys).filterMap scalar? = [] :=
  List.map_eq_nil_iff.mp ((list_phrase .mysql keys).1.binds (sound_list keys))

namespace Select

def alone (q : Select) : Select := { q with unions := [] }

def writtenIn (d : Dialect) (q : Select) : Select := { q with dialect := d }

theorem statement_alone (q : Select) :
    q.alone.statement = Statement.ofFragments q.dialect .placeholders (q.bodyFragments q.dialect) := by
  unfold statement
  rw [fragments_of_isEmpty rfl]
  rfl

theorem statement_writtenIn (d : Dialect) (q : Select) :
    (q.writtenIn d).statement = Statement.ofFragments d .placeholders (q.fragments d) := by
  cases q
  rfl

theorem sound_members (members : List (UnionType × Select)) :
    Sound (memberFragments d members) ↔ ∀ m ∈ members, Sound (m.2.fragments d) := by
  rw [memberFragments_eq]
  induction members with
  | nil => simp [Sound]
  | cons m rest ih =>
    have hm : Sound (unionFragments d m) ↔ Sound (m.2.fragments d) :=
      sound_text.trans (sound_append.trans (and_iff_left (sound_text.mpr sound_nil)))
    rw [List.flatMap_cons, sound_append, ih, hm, List.forall_mem_cons]

def Members (d : Dialect) : List (UnionType × Select) → List (UnionType × Statement) → Prop :=
  List.Forall₂ fun m p => p.1 = m.1 ∧ (m.2.writtenIn d).statement = .ok p.2

theorem Members.sound {members : List (UnionType × Select)} {parts : List (UnionType × Statement)}
    (h : Members d members parts) : ∀ m ∈ members, Sound (m.2.fragments d) := by
  induction h with
  | nil => exact List.forall_mem_nil _
  | cons hm _ ih =>
    refine List.forall_mem_cons.mpr ⟨?_, ih⟩
    have hst := hm.2
    rw [statement_writtenIn] at hst
    exact Statement.sound_of_ok hst

theorem scalars_member (m : UnionType × Select) :
    (unionFragments d m).filterMap scalar? = (m.2.fragments d).filterMap scalar? := by
  rw [unionFragments, List.filterMap_cons_none rfl, List.filterMap_append]
  exact List.append_nil _

theorem spell_members {members : List (UnionType × Select)} {parts : List (UnionType × Statement)}
    (h : Members d members parts) (n : Nat) :
    spell d .placeholders n (memberFragments d members) =
      (Statement.memberTexts d n parts).toList := by
  rw [memberFragments_eq]
  induction h generalizing n with
  | nil => rfl
  | @cons m p members parts hm hrest ih =>
    obtain ⟨type, member⟩ := m
    obtain ⟨_, st⟩ := p
    obtain ⟨rfl, hst⟩ := hm
    rw [statement_writtenIn] at hst
    rw [List.flatMap_cons, spell_append, scalars_member, Statement.length_scalars hst, ih,
      Statement.memberTexts, unionFragments, spell, spell_append,
      Statement.spell_eq_raise (member.phrase d).clean hst]
    simp only [spell, String.toList_append, List.append_assoc, List.append_nil]

theorem scalars_members {members : List (UnionType × Select)}
    {parts : List (UnionType × Statement)} (h : Members d members parts) :
    ((memberFragments d members).filterMap scalar?).map Value.scalar =
      parts.flatMap fun p => p.2.bindings := by
  rw [memberFragments_eq]
  induction h with
  | nil => rfl
  | @cons m p members parts hm hrest ih =>
    obtain ⟨-, hst⟩ := hm
    rw [statement_writtenIn] at hst
    rw [List.flatMap_cons, List.filterMap_append, List.map_append, ih, scalars_member,
      (Statement.ofFragments_eq_ok.mp hst).2.2, List.flatMap_cons]

theorem sound_united (q : Select) :
    Sound (q.unitedFragments d) ↔
      Sound (q.bodyFragments d) ∧ ∀ m ∈ q.unions, Sound (m.2.fragments d) := by
  unfold unitedFragments
  rw [sound_append, sound_append, sound_text, sound_append, sound_members,
    and_iff_left (SortKey.sound_list q.unionSortKeys)]
  exact and_congr_left fun _ => and_iff_left (sound_text.mpr sound_nil)

/-- The statement of a union is put together from those of its parts. It exists exactly if each of them
does, in the dialect of the union; the placeholders of a part are counted on from the values of the
parts before it. -/
theorem union_statement (q : Select) (hq : q.unions ≠ []) :
    ((∃ st, q.statement = .ok st) ↔
      (∃ own, q.alone.statement = .ok own) ∧
        ∀ m ∈ q.unions, ∃ st, (m.2.writtenIn q.dialect).statement = .ok st) ∧
    ∀ own parts, q.alone.statement = .ok own → Members q.dialect q.unions parts →
      q.statement = .ok (Statement.united q.dialect own parts q.unionSortKeys) := by
  have hfragments : q.fragments q.dialect = q.unitedFragments q.dialect :=
    fragments_of_not_isEmpty fun h => hq (List.isEmpty_iff.mp h)
  constructor
  · simp only [statement_alone, statement_writtenIn, Statement.exists_ofFragments]
    unfold statement
    rw [Statement.exists_ofFragments, hfragments, sound_united]
  · intro own parts hown hparts
    rw [statement_alone] at hown
    obtain ⟨hbody, htext, hbindings⟩ := Statement.ofFragments_eq_ok.mp hown
    unfold statement
    rw [hfragments]
    have hclose : [text ")"].filterMap scalar? = [] := rfl
    refine Statement.ofFragments_eq_ok.mpr
      ⟨(sound_united q).mpr ⟨hbody, hparts.sound⟩, ?_, ?_⟩
    · have hcount : 0 + ((.text "(" :: (q.bodyFragments q.dialect ++ [.text ")"])).filterMap
          scalar?).length = own.bindings.length := by
        rw [List.filterMap_cons_none rfl, List.filterMap_append, hclose, List.append_nil,
          Statement.length_scalars hown, Nat.zero_add]
      unfold unitedFragments Statement.united
      rw [spell_append, spell_append, hcount, spell_members hparts,
        spell_of_scalars (SortKey.scalars_list q.unionSortKeys) _ 0, spell, spell_append, htext]
      simp only [spell, String.toList_append, String.toList_ofList, List.append_assoc, List.append_nil]
    · unfold unitedFragments Statement.united
      rw [List.filterMap_append, List.filterMap_append, SortKey.scalars_list, List.append_nil,
        List.filterMap_cons_none rfl, List.filterMap_append, hclose, List.append_nil, List.map_append,
        hbindings, scalars_members hparts]

end Select

namespace Sample

/-- A union with another one in it, whose own dialect does not count there. -/
def archived : Select where
  dialect := .postgres
  table := "archive"
  conditions := [.test .and (.bare "year") (.compare .lt (.int 2000))]
  unions := [(.distinct, { union with dialect := .sqlite })]
  unionSortKeys := [{ column := .bare "id", direction := .desc }]

end Sample

theorem Select.union_statement_sample :
    Sample.archived.unions ≠ [] ∧
      ∃ own part, Sample.archived.alone.statement = .ok own ∧ Sample.union.statement = .ok part ∧
        own.bindings.length = 1 ∧ part.bindings.length = 4 ∧
        Sample.archived.statement =
          .ok (Statement.united .postgres own [(.distinct, part)] Sample.archived.unionSortKeys) := by
  have hne : Sample.archived.unions ≠ [] := List.cons_ne_nil _ _
  obtain ⟨-, hunited⟩ := Select.union_statement Sample.archived hne
  exact ⟨hne, _, _, rfl, rfl, rfl, rfl, hunited _ _ rfl (.cons ⟨rfl, rfl⟩ .nil)⟩

end EntityQuery
