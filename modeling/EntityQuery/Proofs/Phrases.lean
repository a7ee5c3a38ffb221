import EntityQuery.Proofs.Lexing

namespace EntityQuery

/-- A text that is read as it stands: nothing is left open at its end, and no placeholder is in it. -/
def Dialect.Quiet (d : Dialect) (s : String) : Prop :=
  (Mode.plain.run d s.toList).2 = .plain ∧
    ∀ l ∈ (Mode.plain.run d s.toList).1, l.isPlaceholder = false

instance (d : Dialect) (s : String) : Decidable (d.Quiet s) :=
  inferInstanceAs (Decidable (_ ∧ _))

/-- Characters that neither go on with a number nor with anything in quotes. -/
def breaks (c : Char) : Bool :=
  !c.isDigit && c != '\x27' && c != '\x22' && c != '\x60'

def parts (s : String) : Bool :=
  match s.toList with
  | [] => false
  | c :: _ => breaks c

def isPlain (s : String) : Bool :=
  s.toList.all fun c => c != '?' && c != '$' && c != '\x27' && c != '\x22' && c != '\x60'

theorem intercalate_cons {α : Type} (sep x : List α) (xs : List (List α)) :
    sep.intercalate (x :: xs) = x ++ xs.flatMap (sep ++ ·) := by
  induction xs generalizing x with
  | nil => simp [List.intercalate]
  | cons y rest ih =>
    rw [List.flatMap_cons, List.append_assoc, ← ih y]
    simp [List.intercalate]

variable {d : Dialect} {s t : String}

theorem isPlain_append (hs : isPlain s = true) (ht : isPlain t = true) : isPlain (s ++ t) = true := by
  unfold isPlain at hs ht ⊢
  rw [String.toList_append, List.all_append, hs, ht]
  rfl

theorem Mode.run_of_isPlain (h : isPlain s = true) (d : Dialect) :
    plain.run d s.toList = (s.toList.map .other, plain) := by
  have hrun (cs : List Char) (hc : ∀ c ∈ cs,
      (c != '?' && c != '$' && c != '\x27' && c != '\x22' && c != '\x60') = true) :
      plain.run d cs = (cs.map .other, plain) := by
    induction cs with
    | nil => rfl
    | cons c rest ih =>
      have h := hc c (by simp)
      simp only [Bool.and_eq_true, bne_iff_ne, ne_eq] at h
      have hm : c ≠ d.quoteMark := by cases d <;> simp [Dialect.quoteMark, h]
      have hr := ih fun x hx => hc x (by simp [hx])
      simp [run, step, start, h, hm, hr]
  exact hrun s.toList (List.all_eq_true.mp h)

theorem Dialect.quiet_of_isPlain (h : isPlain s = true) (d : Dialect) : d.Quiet s := by
  unfold Quiet
  rw [Mode.run_of_isPlain h]
  refine ⟨rfl, ?_⟩
  intro l hl
  obtain ⟨c, -, rfl⟩ := List.mem_map.mp hl
  rfl

theorem parts_append (h : parts s = true) : parts (s ++ t) = true := by
  unfold parts at h ⊢
  rw [String.toList_append]
  cases hs : s.toList with
  | nil => simp [hs] at h
  | cons c rest => simpa [hs] using h

def Style.spell (style : Style) (d : Dialect) (n : Nat) (s : Scalar) : List Char :=
  match style with
  | placeholders => d.placeholder (n + 1)
  | inline => d.literal s

/-- The text of fragments before which `n` values were written, without what cannot be written. -/
def spell (d : Dialect) (style : Style) : Nat → List Fragment → List Char
  | _, [] => []
  | n, .text s :: rest => s.toList ++ spell d style n rest
  | n, .name s :: rest => d.quote s.toList ++ spell d style n rest
  | n, .value (.scalar s) :: rest => style.spell d n s ++ spell d style (n + 1) rest
  | n, .value (.list _) :: rest | n, .fault _ :: rest => spell d style n rest

namespace Fragment

def scalar? : Fragment → Option Scalar
  | value (.scalar s) => some s
  | _ => none

def fault? : Fragment → Option RenderFault
  | fault e => some e
  | value (.list _) => some .listParameter
  | _ => none

def Opens : List Fragment → Prop
  | [] => True
  | .text s :: rest => parts s = true ∨ s = "" ∧ Opens rest
  | .fault _ :: rest => Opens rest
  | .name _ :: _ | .value _ :: _ => False

/-- Fragments that a reader takes apart again. -/
def Clean (d : Dialect) : List Fragment → Prop
  | [] => True
  | .text s :: rest => d.Quiet s ∧ Clean d rest
  | .fault _ :: rest => Clean d rest
  | .name _ :: rest | .value _ :: rest => Opens rest ∧ Clean d rest

theorem opens_text (h : parts s = true) (rest : List Fragment) : Opens (.text s :: rest) := .inl h

theorem Opens.append {xs ys : List Fragment} (hx : Opens xs) (hy : Opens ys) : Opens (xs ++ ys) := by
  induction xs with
  | nil => exact hy
  | cons x rest ih =>
    cases x with
    | text s =>
      obtain h | ⟨h, hr⟩ := hx
      · exact .inl h
      · exact .inr ⟨h, ih hr⟩
    | fault e => exact ih hx
    | name s => exact hx
    | value v => exact hx

theorem Clean.append {xs ys : List Fragment} (hx : Clean d xs) (hy : Clean d ys)
    (ho : Opens ys) : Clean d (xs ++ ys) := by
  induction xs with
  | nil => exact hy
  | cons x rest ih =>
    cases x with
    | text s => exact ⟨hx.1, ih hx.2⟩
    | fault e => exact ih hx
    | name s => exact ⟨hx.1.append ho, ih hx.2⟩
    | value v => exact ⟨hx.1.append ho, ih hx.2⟩

theorem breaks_spell {fs : List Fragment} (h : Opens fs) (d : Dialect) (style : Style) (n : Nat) :
    ∀ c ∈ (spell d style n fs).head?, breaks c = true := by
  induction fs with
  | nil => simp [spell]
  | cons f rest ih =>
    cases f with
    | text s =>
      rw [spell]
      obtain h | ⟨rfl, hr⟩ := h
      · unfold parts at h
        cases hs : s.toList with
        | nil => simp [hs] at h
        | cons c cs => simpa [hs] using h
      · simpa using ih hr
    | fault e => exact ih h
    | name s => exact h.elim
    | value v => exact h.elim

def lexemes (d : Dialect) : Nat → List Fragment → List Lexeme
  | _, [] => []
  | n, .text s :: rest => (Mode.plain.run d s.toList).1 ++ lexemes d n rest
  | n, .name s :: rest => .name s.toList :: lexemes d n rest
  | n, .value (.scalar _) :: rest => d.marker (n + 1) :: lexemes d (n + 1) rest
  | n, .value (.list _) :: rest | n, .fault _ :: rest => lexemes d n rest

theorem ne_quoteMark_of_breaks {c : Char} (h : breaks c = true) (d : Dialect) : c ≠ d.quoteMark := by
  rintro rfl
  revert h
  cases d <;> decide

/-- A reader of the text finds the names, the placeholders and the texts again. -/
theorem lex_spell {fs : List Fragment} (h : Clean d fs) (n : Nat) :
    d.lex (spell d .placeholders n fs) = lexemes d n fs := by
  induction fs generalizing n with
  | nil => rfl
  | cons f rest ih =>
    cases f with
    | text s =>
      have hr := ih h.2 n
      unfold Dialect.lex at hr ⊢
      rw [spell, Mode.read_append, h.1.1, hr, lexemes]
    | name s =>
      have hb := breaks_spell h.1 d .placeholders n
      rw [spell, Dialect.lex_quote d fun c hc => ne_quoteMark_of_breaks (hb c hc) d, ih h.2, lexemes]
    | value v =>
      cases v with
      | list vs => exact ih h.2 n
      | scalar v =>
        have hb := breaks_spell h.1 d .placeholders (n + 1)
        have hd : ∀ c ∈ (spell d .placeholders (n + 1) rest).head?, c.isDigit = false := by
          intro c hc
          have h := hb c hc
          simp only [breaks, Bool.and_eq_true, Bool.not_eq_true'] at h
          exact h.1.1.1
        rw [spell, Style.spell, Dialect.lex_placeholder d hd, ih h.2, lexemes]
    | fault e => exact ih h n

theorem placeholders_lexemes {fs : List Fragment} (h : Clean d fs) (n : Nat) :
    (lexemes d n fs).filter Lexeme.isPlaceholder =
      (List.range' (n + 1) (fs.filterMap scalar?).length).map d.marker := by
  induction fs generalizing n with
  | nil => rfl
  | cons f rest ih =>
    cases f with
    | text s =>
      have hq : (Mode.plain.run d s.toList).1.filter Lexeme.isPlaceholder = [] := by
        simpa [List.filter_eq_nil_iff] using h.1.2
      rw [lexemes, List.filter_append, hq, List.nil_append, ih h.2]
      rfl
    | name s =>
      rw [lexemes, List.filter_cons_of_neg (by simp [Lexeme.isPlaceholder]), ih h.2]
      rfl
    | value v =>
      cases v with
      | list vs => exact ih h.2 n
      | scalar v =>
        have hm : (d.marker (n + 1)).isPlaceholder = true := by cases d <;> rfl
        rw [lexemes, List.filter_cons_of_pos hm, ih h.2]
        rfl
    | fault e => exact ih h n

end Fragment

open Fragment

/-- The text is that of all fragments, unless one of them is at fault: then it is the first such fault
that comes of it. -/
theorem write_eq (d : Dialect) (style : Style) (n : Nat) (fs : List Fragment) :
    write d style n fs =
      match fs.findSome? fault? with
      | some e => .error e
      | none => .ok (spell d style n fs) := by
  induction fs generalizing n with
  | nil => rfl
  | cons f rest ih =>
    cases f with
    | fault e => rfl
    | text s | name s =>
      rw [write, ih, List.findSome?_cons_of_isNone rfl, spell]
      cases rest.findSome? fault? <;> rfl
    | value v =>
      cases v with
      | list vs => rfl
      | scalar s =>
        -- The guard against lists comes first, so that the literal is that of a scalar.
        have hparam : style.param d n (.scalar s) = .ok (style.spell d n s) := by
          cases style with
          | placeholders => rfl
          | inline => exact congrArg Except.ok String.toList_ofList
        rw [write, ih, List.findSome?_cons_of_isNone rfl, spell, hparam]
        cases rest.findSome? fault? <;> rfl

theorem filterMap_value? {fs : List Fragment} (h : fs.findSome? fault? = none) :
    fs.filterMap value? = (fs.filterMap scalar?).map .scalar := by
  induction fs with
  | nil => rfl
  | cons f rest ih =>
    rw [List.findSome?_eq_none_iff] at h ih
    obtain ⟨hf, hrest⟩ := List.forall_mem_cons.mp h
    cases f with
    | value v =>
      cases v with
      | list vs => cases hf
      | scalar s => exact congrArg (Value.scalar s :: ·) (ih hrest)
    | _ => exact ih hrest

namespace Statement

variable {fs : List Fragment}

theorem ofFragments_of_fault {e : RenderFault} (h : fs.findSome? fault? = some e) (style : Style) :
    ofFragments d style fs = .error e := by
  simp only [ofFragments, write_eq, h]
  rfl

theorem ofFragments_of_sound (h : fs.findSome? fault? = none) (style : Style) :
    ofFragments d style fs = .ok {
      sql := String.ofList (spell d style 0 fs)
      bindings := match style with
        | .placeholders => (fs.filterMap scalar?).map .scalar
        | .inline => [] } := by
  simp only [ofFragments, write_eq, h, filterMap_value? h]
  rfl

theorem ofFragments_eq_ok {st : Statement} :
    ofFragments d .placeholders fs = .ok st ↔
      (∀ f ∈ fs, f.fault? = none) ∧ spell d .placeholders 0 fs = st.sql.toList ∧
        (fs.filterMap scalar?).map Value.scalar = st.bindings := by
  cases hfault : fs.findSome? fault? with
  | some e =>
    rw [ofFragments_of_fault hfault]
    obtain ⟨f, hf, he⟩ := List.exists_of_findSome?_eq_some hfault
    refine ⟨nofun, fun h => ?_⟩
    rw [h.1 f hf] at he
    cases he
  | none =>
    rw [ofFragments_of_sound hfault]
    obtain ⟨sql, bindings⟩ := st
    simp only [Except.ok.injEq, mk.injEq, ← List.findSome?_eq_none_iff, hfault, true_and]
    refine and_congr_left fun _ => ⟨?_, ?_⟩
    · rintro rfl
      exact String.toList_ofList.symm
    · intro h
      rw [h, String.ofList_toList]

end Statement

/-- Fragments that a reader takes apart again, and the values that they bind unless one of them is a
fault. -/
structure Phrase (d : Dialect) (fs : List Fragment) (vs : List Value) : Prop where
  clean : Clean d fs
  binds : (∀ f ∈ fs, f.fault? = none) → (fs.filterMap scalar?).map .scalar = vs

namespace Phrase

variable {fs gs : List Fragment} {vs ws : List Value}

theorem nil : Phrase d [] [] := ⟨trivial, fun _ => rfl⟩

theorem text (hs : d.Quiet s) (h : Phrase d fs vs) : Phrase d (.text s :: fs) vs where
  clean := ⟨hs, h.clean⟩
  binds hf := h.binds fun f hm => hf f (by simp [hm])

theorem plain (s : String) (hs : isPlain s = true) (h : Phrase d fs vs) :
    Phrase d (.text s :: fs) vs :=
  h.text (Dialect.quiet_of_isPlain hs d)

theorem name (s : String) (ho : Opens fs) (h : Phrase d fs vs) : Phrase d (.name s :: fs) vs where
  clean := ⟨ho, h.clean⟩
  binds hf := h.binds fun f hm => hf f (by simp [hm])

theorem fault (e : RenderFault) (h : Clean d fs) : Phrase d (.fault e :: fs) vs where
  clean := h
  binds hf := by simpa [fault?] using hf (.fault e) (by simp)

theorem value (v : Value) (ho : Opens fs) (h : Phrase d fs vs) :
    Phrase d (.value v :: fs) (v :: vs) := by
  refine ⟨⟨ho, h.clean⟩, fun hf => ?_⟩
  have hb := h.binds fun f hm => hf f (by simp [hm])
  cases v with
  | scalar a => simpa [scalar?] using hb
  | list values => simpa [fault?] using hf (.value (.list values)) (by simp)

theorem single_plain (s : String) (hs : isPlain s = true) : Phrase d [.text s] [] := nil.plain s hs

theorem single_name (s : String) : Phrase d [.name s] [] := nil.name s trivial

theorem single_value (v : Value) : Phrase d [.value v] [v] := nil.value v trivial

theorem append (h : Phrase d fs vs) (h' : Phrase d gs ws) (ho : Opens gs) :
    Phrase d (fs ++ gs) (vs ++ ws) where
  clean := h.clean.append h'.clean ho
  binds hf := by
    rw [List.filterMap_append, List.map_append, h.binds fun f hm => hf f (by simp [hm]),
      h'.binds fun f hm => hf f (by simp [hm])]

theorem intercalate {α : Type} (s : String) (hs : isPlain s = true) (hp : parts s = true)
    (f : α → List Fragment) (g : α → List Value) (xs : List α) (h : ∀ x ∈ xs, Phrase d (f x) (g x)) :
    Phrase d ([.text s].intercalate (xs.map f)) (xs.flatMap g) := by
  induction xs with
  | nil => exact nil
  | cons x rest ih =>
    have hx := h x (by simp)
    have hr := ih fun y hy => h y (by simp [hy])
    cases rest with
    | nil => simpa [List.intercalate] using hx
    | cons y rest =>
      have hxr := hx.append (hr.plain s hs) (opens_text hp _)
      simpa [List.intercalate] using hxr

theorem intercalate_nil {α : Type} (s : String) (hs : isPlain s = true) (hp : parts s = true)
    (f : α → List Fragment) (xs : List α) (h : ∀ x ∈ xs, Phrase d (f x) []) :
    Phrase d ([.text s].intercalate (xs.map f)) [] := by
  have hx := intercalate s hs hp f (fun _ => []) xs h
  rwa [List.flatMap_eq_nil_iff.mpr fun _ _ => rfl] at hx

theorem flatMap {α : Type} (f : α → List Fragment) (g : α → List Value) (xs : List α)
    (h : ∀ x ∈ xs, Phrase d (f x) (g x) ∧ Opens (f x)) :
    Phrase d (xs.flatMap f) (xs.flatMap g) ∧ Opens (xs.flatMap f) := by
  induction xs with
  | nil => exact ⟨nil, trivial⟩
  | cons x rest ih =>
    obtain ⟨hx, ho⟩ := h x (by simp)
    obtain ⟨hr, hor⟩ := ih fun y hy => h y (by simp [hy])
    exact ⟨hx.append hr hor, ho.append hor⟩

/-- The statement of a phrase binds its values, and its placeholders are those of the values. -/
theorem statement {st : Statement} (h : Phrase d fs vs)
    (hst : Statement.ofFragments d .placeholders fs = .ok st) :
    st.bindings = vs ∧ d.placeholders st.sql = d.markers vs.length := by
  obtain ⟨hfaults, htext, hbindings⟩ := Statement.ofFragments_eq_ok.mp hst
  have hvs := h.binds hfaults
  refine ⟨hbindings.symm.trans hvs, ?_⟩
  unfold Dialect.placeholders
  rw [← htext, lex_spell h.clean, placeholders_lexemes h.clean, ← hvs, List.length_map,
    Dialect.map_marker]

end Phrase

end EntityQuery
