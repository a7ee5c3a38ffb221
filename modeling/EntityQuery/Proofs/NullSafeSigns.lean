import EntityQuery.Proofs.QueryWords
import EntityQuery.Proofs.RenderFaults

namespace EntityQuery

section Occurrences

variable {α : Type} {w t : List α}

theorem prefix_append_iff (h : ∀ c ∈ t.head?, c ∉ w.tail) (c : α) (s : List α) :
    w <+: c :: s ++ t ↔ w <+: c :: s := by
  constructor
  · intro hw
    obtain hshort | ⟨u, rfl⟩ := List.prefix_or_prefix_of_prefix hw (List.prefix_append (c :: s) t)
    · exact hshort
    · have hu : u <+: t := (List.prefix_append_right_inj _).mp hw
      cases u with
      | nil => simp
      | cons a u =>
        obtain ⟨v, rfl⟩ := hu
        exact absurd (by simp) (h a rfl)
  · exact fun hw => hw.trans (List.prefix_append _ t)

variable [DecidableEq α]

def occurrences (w : List α) : List α → Nat
  | [] => 0
  | c :: rest => (if w <+: c :: rest then 1 else 0) + occurrences w rest

theorem occurrences_append (h : ∀ c ∈ t.head?, c ∉ w.tail) (s : List α) :
    occurrences w (s ++ t) = occurrences w s + occurrences w t := by
  induction s with
  | nil => exact (Nat.zero_add _).symm
  | cons c s ih =>
    have hfront := prefix_append_iff h c s
    rw [List.cons_append] at hfront
    rw [List.cons_append, occurrences, occurrences, ih, Nat.add_assoc]
    simp only [hfront]

theorem occurrences_eq_zero {c : α} {s : List α} (h : c ∉ s) : occurrences (c :: w) s = 0 := by
  induction s with
  | nil => rfl
  | cons a s ih =>
    have hfront : ¬ c :: w <+: a :: s := fun hp =>
      h (List.mem_cons.mpr (.inl (List.cons_prefix_cons.mp hp).1))
    rw [occurrences, if_neg hfront, ih fun hs => h (List.mem_cons_of_mem a hs)]

end Occurrences

/-- How often a word stands in a statement, outside of names, strings and placeholders. -/
def Dialect.count (d : Dialect) (w sql : String) : Nat :=
  occurrences (w.toList.map some) ((d.lex sql.toList).map Lexeme.char?)

open Fragment

namespace Fragment

variable {d : Dialect} {f : Fragment} {fs gs : List Fragment} {w : String} {m n : Nat}

def nullSafeChars : List (Option Char) := [some '<', some '=', some '>']

/-- A fragment that does not go on with a sign which may have been begun in front of it. -/
def Apart (d : Dialect) (f : Fragment) : Prop := ∀ c ∈ (chars d f).head?, c ∉ nullSafeChars.tail

instance (d : Dialect) (f : Fragment) : Decidable (Apart d f) :=
  decidable_of_iff ((chars d f).head?.all (· ∉ nullSafeChars.tail) = true)
    (by simp [Apart, Option.all_eq_true])

/-- Fragments with `n` signs, each of which stands within one of them. -/
structure Signs (d : Dialect) (fs : List Fragment) (n : Nat) : Prop where
  apart : ∀ f ∈ fs, Apart d f
  count : occurrences nullSafeChars (fs.flatMap (chars d)) = n

def Mute (w : String) : Prop :=
  isPlain w = true ∧ '<' ∉ w.toList ∧ ∀ c ∈ w.toList.head?, c ≠ '=' ∧ c ≠ '>'

instance (w : String) : Decidable (Mute w) :=
  decidable_of_iff (isPlain w = true ∧ '<' ∉ w.toList ∧
    w.toList.head?.all (fun c => c ≠ '=' ∧ c ≠ '>') = true) (by simp [Mute, Option.all_eq_true])

theorem Mute.append {v : String} (hv : Mute v) (hw : Mute w) : Mute (v ++ w) := by
  refine ⟨isPlain_append hv.1 hw.1, ?_, ?_⟩
  · rw [String.toList_append]
    exact fun hmem => (List.mem_append.mp hmem).elim hv.2.1 hw.2.1
  · intro c hc
    rw [String.toList_append, List.head?_append] at hc
    cases hhead : v.toList.head? with
    | none => exact hw.2.2 c (by simpa [hhead] using hc)
    | some a => exact hv.2.2 c (by simpa [hhead] using hc)

theorem mute_nat (n : Nat) : Mute (String.ofList (Text.nat n)) := by
  have hdigit {c : Char} (hc : c ∈ Text.nat n) : c ≠ '<' ∧ c ≠ '=' ∧ c ≠ '>' := by
    have hd := Dialect.isDigit_nat hc
    refine ⟨?_, ?_, ?_⟩ <;> (rintro rfl; cases hd)
  refine ⟨isPlain_nat n, ?_, ?_⟩ <;> rw [String.toList_ofList]
  · exact fun hc => (hdigit hc).1 rfl
  · exact fun c hc => (hdigit (List.mem_of_head? hc)).2

theorem head_apart (h : ∀ f ∈ fs, Apart d f) :
    ∀ c ∈ (fs.flatMap (chars d)).head?, c ∉ nullSafeChars.tail := by
  induction fs with
  | nil => exact nofun
  | cons f fs ih =>
    obtain ⟨hf, hfs⟩ := List.forall_mem_cons.mp h
    intro c hc
    rw [List.flatMap_cons, List.head?_append] at hc
    cases hchars : (chars d f).head? with
    | none => exact ih hfs c (by simpa [hchars] using hc)
    | some a => exact hf c (by simpa [hchars] using hc)

namespace Signs

theorem nil : Signs d [] 0 := ⟨List.forall_mem_nil _, rfl⟩

theorem append (h : Signs d fs m) (h' : Signs d gs n) : Signs d (fs ++ gs) (m + n) where
  apart := List.forall_mem_append.mpr ⟨h.apart, h'.apart⟩
  count := by
    rw [List.flatMap_append, occurrences_append (head_apart h'.apart), h.count, h'.count]

theorem single (h : Apart d f) : Signs d [f] (occurrences nullSafeChars (chars d f)) :=
  ⟨List.forall_mem_singleton.mpr h, by rw [List.flatMap_singleton]⟩

theorem operand (h : chars d f = [none]) : Signs d [f] 0 := by
  have hapart : Apart d f := by
    unfold Apart
    rw [h]
    decide
  have hsingle := single hapart
  rw [h] at hsingle
  exact hsingle

theorem mute (hw : Mute w) : Signs d [.text w] 0 := by
  obtain ⟨hplain, hless, hhead⟩ := hw
  have hchars := chars_of_isPlain hplain d
  have hapart : Apart d (.text w) := by
    unfold Apart
    rw [hchars, List.head?_map]
    intro c hc
    obtain ⟨a, ha, rfl⟩ := Option.map_eq_some_iff.mp hc
    simpa [nullSafeChars] using hhead a ha
  have hsingle := single hapart
  rw [hchars, nullSafeChars, occurrences_eq_zero (by simpa using hless)] at hsingle
  exact hsingle

theorem glue {v : String} (hv : isPlain v = true) (hw : isPlain w = true)
    (h : Signs d (.text v :: .text w :: fs) n) : Signs d (.text (v ++ w) :: fs) n := by
  obtain ⟨hapart, hcount⟩ := h
  obtain ⟨hv', hbehind⟩ := List.forall_mem_cons.mp hapart
  obtain ⟨hw', hfs⟩ := List.forall_mem_cons.mp hbehind
  have hhead := head_apart (List.forall_mem_cons.mpr ⟨hv', List.forall_mem_singleton.mpr hw'⟩)
  rw [← flatMap_chars_append hv hw, List.flatMap_singleton] at hhead
  exact ⟨List.forall_mem_cons.mpr ⟨hhead, hfs⟩, by rw [flatMap_chars_append hv hw, hcount]⟩

theorem flatMap {α : Type} {p : α → List Fragment} {xs : List α} (h : ∀ x ∈ xs, Signs d (p x) 0) :
    Signs d (xs.flatMap p) 0 := by
  induction xs with
  | nil => exact nil
  | cons x xs ih =>
    obtain ⟨hx, hxs⟩ := List.forall_mem_cons.mp h
    exact hx.append (ih hxs)

theorem separated {α : Type} {sep : String} (hsep : Mute sep) {p : α → List Fragment}
    {xs : List α} (h : ∀ x ∈ xs, Signs d (p x) 0) :
    Signs d ([.text sep].intercalate (xs.map p)) 0 := by
  cases xs with
  | nil => exact nil
  | cons x xs =>
    obtain ⟨hx, hxs⟩ := List.forall_mem_cons.mp h
    rw [intercalate_map_cons]
    exact hx.append (flatMap fun y hy => (mute hsep).append (hxs y hy))

theorem «section» {α : Type} {opening sep : String} (hopening : Mute opening)
    (hsep : Mute sep) {p : α → List Fragment} {xs : List α}
    (h : ∀ x ∈ xs, Signs d (p x) 0) : Signs d (sectionFragments opening sep p xs) 0 := by
  cases xs with
  | nil => exact nil
  | cons x xs => exact (mute hopening).append (separated hsep h)

end Signs

end Fragment

variable {d : Dialect}

theorem Column.signs (c : Column) : Signs d c.fragments 0 := by
  obtain ⟨_ | table, name⟩ := c
  · exact .operand rfl
  · exact (Signs.operand rfl).append ((Signs.mute (by decide)).append (.operand rfl))

theorem labelFragments_signs (label : Option String) : Signs d (labelFragments label) 0 := by
  cases label with
  | none => exact .nil
  | some label => exact (Signs.mute (by decide)).append (.operand rfl)

theorem SelectItem.signs (item : SelectItem) : Signs d item.fragments 0 := by
  cases item with
  | all => exact .mute (by decide)
  | allOf table => exact (Signs.operand rfl).append (.mute (by decide))
  | column c label =>
    rw [fragments_column]
    exact c.signs.append (labelFragments_signs label)
  | attributes => exact .operand rfl

theorem SelectItem.list_signs (items : List SelectItem) : Signs d (listFragments items) 0 := by
  cases items with
  | nil => exact SelectItem.all.signs
  | cons item rest => exact .separated (by decide) fun item _ => item.signs

theorem JoinTest.signs (t : JoinTest) : Signs d t.fragments 0 := by
  have hoperand : Signs d (operandFragments t.operand) 0 := by
    cases t with
    | columns l r => exact r.signs
    | value c v => exact .operand (chars_value v)
  rw [fragments_eq]
  exact t.column.signs.append ((Signs.mute (by decide)).append hoperand)

theorem Join.signs (j : Join) : Signs d j.fragments 0 := by
  have hopening : Mute (opening j.type) := by cases j.type <;> decide
  have hname : Signs d (.text (opening j.type) :: [.name j.table]) 0 :=
    (Signs.mute hopening).append (.operand rfl)
  have htests : Signs d (sectionFragments " on " " and " JoinTest.fragments j.tests) 0 :=
    .section (by decide) (by decide) fun t _ => t.signs
  rw [fragments_eq]
  exact (hname.append (labelFragments_signs j.label)).append htests

theorem SortKey.signs (keys : List SortKey) : Signs d (listFragments keys) 0 := by
  rw [listFragments_eq]
  refine .section (by decide) (by decide) fun k _ => ?_
  exact k.column.signs.append (.mute (by cases k.direction <;> decide))

theorem signs_count {keyword : String} (hk : Mute keyword) (n : Option Nat) :
    Signs d (countFragments keyword n) 0 := by
  cases n with
  | none => exact .nil
  | some n => exact .mute (hk.append (mute_nat n))

namespace Test

def hasNullSafeSign (d : Dialect) : Test → Bool
  | compare op _ => d = .mysql ∧ op = .nullSafeEq
  | datePart _ op _ => op = .nullSafeEq
  | between .. | oneOf .. | isNull _ => false

theorem signs_text {w : String} {p : Bool} (h : Apart d (.text w) ∧
    occurrences nullSafeChars (chars d (.text w)) = p.toNat) : Signs d [.text w] p.toNat :=
  h.2 ▸ .single h.1

theorem signs_isNull (c : Column) (negated : Bool) :
    Signs d ((isNull negated).fragments d c) 0 :=
  c.signs.append (.mute (by cases negated <;> decide))

theorem signs_compare (c : Column) (op : Operator) (v : Value) :
    Signs d ((compare op v).fragments d c) ((compare op v).hasNullSafeSign d).toNat := by
  have hall : ∀ op ∈ Operator.all, Apart d (.text ((Form.compare op).behind d)) ∧
      occurrences nullSafeChars (chars d (.text ((Form.compare op).behind d))) =
        ((compare op .null).hasNullSafeSign d).toNat := by
    cases d <;> decide +kernel
  obtain h | ⟨negated, h, hfragments⟩ := normal_compare op v
  · have hbehind := (signs_text (hall op op.mem_all)).append (.operand (chars_value v))
    have hcolumn := c.signs.append hbehind
    rw [fragments_compare h]
    rwa [Nat.add_zero, Nat.zero_add] at hcolumn
  · -- Null-safe equality is written as it is, with null as well.
    have hsign : (compare op v).hasNullSafeSign d = false := by
      have hop : op ≠ .nullSafeEq := by
        rintro rfl
        cases h
      simp [hasNullSafeSign, hop]
    rw [hfragments, hsign]
    exact signs_isNull c negated

theorem signs_between (c : Column) (low high : Value) (negated : Bool) :
    Signs d ((between low high negated).fragments d c) 0 := by
  have hhigh : Signs d [.text " and ", .value high] 0 :=
    (Signs.mute (by decide)).append (.operand (chars_value high))
  have hboth : Signs d [.value low, .text " and ", .value high] 0 :=
    (Signs.operand (chars_value low)).append hhigh
  exact c.signs.append ((Signs.mute (by cases negated <;> decide)).append hboth)

theorem signs_oneOf (c : Column) (vs : List Value) (negated : Bool) :
    Signs d ((oneOf vs negated).fragments d c) 0 := by
  cases vs with
  | nil => exact .mute (by cases negated <;> decide)
  | cons v vs =>
    have hvalues : Signs d ([.text ", "].intercalate ((v :: vs).map fun v => [.value v])) 0 :=
      .separated (by decide) fun v _ => .operand (chars_value v)
    have hclosed : Signs d _ 0 := hvalues.append (.mute (w := ")") (by decide))
    have hbehind : Mute (if negated then " not in (" else " in (") := by
      cases negated <;> decide
    rw [fragments_oneOf]
    exact c.signs.append ((Signs.mute hbehind).append hclosed)

theorem signs_datePart (c : Column) (part : DatePart) (op : Operator) (v : Value) :
    Signs d ((datePart part op v).fragments d c) ((datePart part op v).hasNullSafeSign d).toNat := by
  have hbefore : Apart d (.text (d.datePart part).1) ∧
      occurrences nullSafeChars (chars d (.text (d.datePart part).1)) = false.toNat := by
    cases d <;> cases part <;> decide +kernel
  have hafter : Mute (d.datePart part).2 := by cases d <;> cases part <;> decide
  have hoperator : ∀ op ∈ Operator.all, Apart d (.text (" " ++ op.spelling)) ∧
      occurrences nullSafeChars (chars d (.text (" " ++ op.spelling))) =
        (decide (op = .nullSafeEq)).toNat := by
    cases d <;> decide +kernel
  have hoperand : Mute (" " ++ d.dateOperand.1) := by cases d <;> decide
  have hvalue : Signs d [.value v, .text d.dateOperand.2] 0 :=
    (Signs.operand (chars_value v)).append (.mute (by cases d <;> decide))
  have hplain : isPlain (" " ++ op.spelling) = true :=
    isPlain_append (by decide) op.isPlain_spelling
  have hbehind := ((signs_text (hoperator op op.mem_all)).append
    ((Signs.mute hoperand).append hvalue)).glue hplain hoperand.1
  have htexts := ((Signs.mute hafter).append hbehind).glue hafter.1 (isPlain_append hplain hoperand.1)
  have hcolumn := (signs_text hbefore).append (c.signs.append htexts)
  have htext : (Form.datePart part).behind d ++ (op.spelling ++ " " ++ d.dateOperand.1) =
      (d.datePart part).2 ++ (" " ++ op.spelling ++ (" " ++ d.dateOperand.1)) := by
    simp only [Form.behind, String.append_assoc]
  rw [fragments_datePart, htext]
  simp only [Nat.add_zero, Nat.zero_add, Bool.toNat_false] at hcolumn
  exact hcolumn

theorem signs (c : Column) (t : Test) :
    Signs d (t.fragments d c) (t.hasNullSafeSign d).toNat := by
  cases t with
  | compare op v => exact signs_compare c op v
  | between low high negated => exact signs_between c low high negated
  | oneOf vs negated => exact signs_oneOf c vs negated
  | isNull negated => exact signs_isNull c negated
  | datePart part op v => exact signs_datePart c part op v

end Test

namespace Condition

mutual

theorem tests_of_isHollow : ∀ c : Condition, c.isHollow = true → c.tests = []
  | group _ members, h => tests_of_allHollow members h

theorem tests_of_allHollow : ∀ cs : List Condition, allHollow cs = true → testsAll cs = []
  | [], _ => rfl
  | c :: rest, h => by
    rw [allHollow, Bool.and_eq_true] at h
    rw [testsAll, tests_of_isHollow c h.1, tests_of_allHollow rest h.2]
    rfl

end

mutual

theorem signs : ∀ c : Condition,
    Signs d (c.fragments d) (c.tests.countP (Test.hasNullSafeSign d))
  | test _ c t => by
    have ht := t.signs (d := d) c
    have hcount : [t].countP (Test.hasNullSafeSign d) = (t.hasNullSafeSign d).toNat := by
      rw [List.countP_singleton]
      cases t.hasNullSafeSign d <;> rfl
    rwa [tests, hcount]
  | group _ members => by
    have hmembers := signs_level members true
    have hopened := (Signs.mute (d := d) (w := "(") (by decide)).append hmembers
    have hclosed := hopened.append (.mute (w := ")") (by decide))
    rwa [Nat.zero_add, Nat.add_zero] at hclosed

theorem signs_level : ∀ (cs : List Condition) (first : Bool),
    Signs d (levelFragments d first cs) ((testsAll cs).countP (Test.hasNullSafeSign d))
  | [], _ => .nil
  | c :: rest, first => by
    have hc := signs c
    have hrest (first : Bool) := signs_level rest first
    rw [levelFragments, testsAll, List.countP_append]
    split
    · next hhollow =>
      rw [tests_of_isHollow c hhollow, List.countP_nil, Nat.zero_add]
      exact hrest first
    · have hconnective : Mute (" " ++ c.connective.keyword ++ " ") := by
        cases c.connective <;> decide
      refine Signs.append ?_ (hrest false)
      cases first with
      | true => exact hc
      | false =>
        have hjoined := (Signs.mute hconnective).append hc
        rwa [Nat.zero_add] at hjoined

end

theorem signs_where (cs : List Condition) :
    Signs d (whereFragments d cs) ((testsAll cs).countP (Test.hasNullSafeSign d)) := by
  unfold whereFragments
  split
  · next h =>
    rw [tests_of_allHollow cs h]
    exact .nil
  · have hlevel := (Signs.mute (d := d) (w := " where ") (by decide)).append (signs_level cs true)
    rwa [Nat.zero_add] at hlevel

end Condition

namespace Select

/-- The tests of the where clauses of a query and of the members of its union, in the order of the
text. -/
def tests (q : Select) : List Test := q.withMembers.flatMap fun p => Condition.testsAll p.conditions

theorem signs_body (q : Select) : Signs d (q.bodyFragments d)
    ((Condition.testsAll q.conditions).countP (Test.hasNullSafeSign d)) := by
  have hitems : Signs d (.text "select " :: SelectItem.listFragments q.items) 0 :=
    (Signs.mute (by decide)).append (SelectItem.list_signs q.items)
  have htable : Signs d [.text " from ", .name q.table] 0 :=
    (Signs.mute (by decide)).append (.operand rfl)
  have hjoins : Signs d (q.joins.flatMap Join.fragments) 0 := .flatMap fun j _ => j.signs
  have hlimit : Signs d (countFragments " limit " q.limit) 0 := signs_count (by decide) q.limit
  have hoffset : Signs d (countFragments " offset " q.offset) 0 := signs_count (by decide) q.offset
  have hbody := (((((hitems.append htable).append hjoins).append
    (Condition.signs_where q.conditions)).append (SortKey.signs q.sortKeys)).append hlimit).append
    hoffset
  simpa [bodyFragments] using hbody

mutual

theorem signs : ∀ q : Select, Signs d (q.fragments d) (q.tests.countP (Test.hasNullSafeSign d))
  | ⟨dialect, table, items, joins, conditions, sortKeys, unionSortKeys, unions, limit, offset⟩ => by
    have hbody := signs_body (d := d) ⟨dialect, table, items, joins, conditions, sortKeys,
      unionSortKeys, unions, limit, offset⟩
    have hmembers := signs_members unions
    rw [tests, withMembers, List.flatMap_cons, List.countP_append, fragments]
    split
    · next h =>
      obtain rfl := List.isEmpty_iff.mp h
      exact hbody
    · have hopened := (Signs.mute (d := d) (w := "(") (by decide)).append hbody
      have hclosed := hopened.append (.mute (w := ")") (by decide))
      have hunion := (hclosed.append hmembers).append (SortKey.signs unionSortKeys)
      rwa [Nat.zero_add, Nat.add_zero, Nat.add_zero] at hunion

theorem signs_members : ∀ members : List (UnionType × Select),
    Signs d (memberFragments d members)
      (((withMembersAll members).flatMap fun p => Condition.testsAll p.conditions).countP
        (Test.hasNullSafeSign d))
  | [] => .nil
  | (type, member) :: rest => by
    have hmember := signs member
    have hrest := signs_members rest
    have hopening : Mute (unionText type) := by cases type <;> decide
    have hopened := (Signs.mute (d := d) hopening).append hmember
    have hclosed := (hopened.append (.mute (w := ")") (by decide))).append hrest
    rw [withMembersAll, List.flatMap_append, List.countP_append]
    rw [Nat.zero_add, Nat.add_zero] at hclosed
    cases type <;> exact hclosed

end

/-- In a statement of MySQL, the sign `<=>` stands once for each test of null-safe equality; in one of
another dialect, once for each such test of a part of a date. -/
theorem null_safe_signs (q : Select) (st : Statement) (h : q.statement = .ok st) :
    q.dialect.count "<=>" st.sql = q.tests.countP (Test.hasNullSafeSign q.dialect) ∧
      (q.dialect ≠ .mysql → (0 < q.dialect.count "<=>" st.sql ↔
        ∃ part v, .datePart part .nullSafeEq v ∈ q.tests)) := by
  have hcount : q.dialect.count "<=>" st.sql = q.tests.countP (Test.hasNullSafeSign q.dialect) := by
    obtain ⟨hsound, htext, -⟩ := Statement.ofFragments_eq_ok.mp h
    rw [Dialect.count, ← htext, lex_spell (q.phrase q.dialect).clean, char?_lexemes hsound]
    exact (q.signs (d := q.dialect)).count
  refine ⟨hcount, fun hd => ?_⟩
  rw [hcount, List.countP_pos_iff]
  constructor
  · rintro ⟨t, ht, hsign⟩
    cases t with
    | datePart part op v =>
      obtain rfl : op = .nullSafeEq := by simpa [Test.hasNullSafeSign] using hsign
      exact ⟨part, v, ht⟩
    | compare op v => simp [Test.hasNullSafeSign, hd] at hsign
    | between | oneOf | isNull => cases hsign
  · rintro ⟨part, v, ht⟩
    exact ⟨_, ht, by simp [Test.hasNullSafeSign]⟩

end Select

namespace Sample

def nullSafe : Select where
  dialect := .sqlite
  table := "<=>"
  conditions := [.test .and (.bare "color") (.compare .nullSafeEq .null),
    .group .or [.test .and (.bare "created") (.datePart .year .nullSafeEq (.int 2020))]]
  unions := [(.all, {
    dialect := .mysql
    table := "more"
    conditions := [.test .and (.bare "created") (.datePart .date .nullSafeEq (.string "<=>"))] })]

def ofYear : Select where
  dialect := .sqlite
  table := "products"
  conditions := [.test .and (.bare "created") (.datePart .year .nullSafeEq (.int 2020))]

end Sample

theorem Select.null_safe_signs_sample :
    ∃ st, Sample.nullSafe.statement = .ok st ∧ Sample.nullSafe.dialect ≠ .mysql ∧
      Dialect.sqlite.count "<=>" st.sql = 2 ∧ 0 < Dialect.sqlite.count "<=>" st.sql := by
  have hne : Sample.nullSafe.dialect ≠ .mysql := by decide
  obtain ⟨hcount, hpos⟩ := Select.null_safe_signs Sample.nullSafe _ rfl
  exact ⟨_, rfl, hne, hcount, (hpos hne).mpr ⟨.year, .int 2020, by decide⟩⟩

/-- The sign stands in a statement of another dialect than MySQL. -/
theorem exists_null_safe_sign : ∃ (q : Select) (st : Statement), q.dialect ≠ .mysql ∧
    q.statement = .ok st ∧ 0 < q.dialect.count "<=>" st.sql :=
  ⟨Sample.ofYear, _, by decide, rfl, by decide +kernel⟩

end EntityQuery
