import EntityQuery.Proofs.NormalForms
import EntityQuery.Proofs.Placeholders
import EntityQuery.Proofs.UniqueReading

namespace EntityQuery

open Fragment

variable {d : Dialect} {r s : List Token}

def Token.isDot (t : Token) : Bool := t = .letter (.other '.')

def Token.isDigit : Token → Bool
  | letter (.other c) => c.isDigit
  | _ => false

theorem Column.reads (c : Column) : ReadsAt d (HeadNot Token.isDot) fragments id c := by
  have hdot (table name : String) : tokensAll d (Column.fragments ⟨some table, name⟩) =
      .aName :: .name table.toList :: .letter (.other '.') :: .aName :: [.name name.toList] := by
    unfold fragments
    rw [tokensAll_name, tokensAll_text (by decide)]
    rfl
  have hbare (name : String) :
      tokensAll d (Column.fragments ⟨none, name⟩) = [.aName, .name name.toList] := rfl
  intro c' r s _ _ hr hs h
  obtain ⟨_ | table, name⟩ := c <;> obtain ⟨_ | table', name'⟩ := c'
  · rw [hbare, hbare] at h
    simp only [List.cons_append, List.nil_append, List.cons.injEq, Token.name.injEq, true_and,
      String.toList_inj] at h
    exact ⟨by rw [h.1], h.2⟩
  · rw [hbare, hdot] at h
    simp only [List.cons_append, List.nil_append, List.cons.injEq, true_and] at h
    exact absurd (hr _ (by rw [h.2]; rfl)) (by decide)
  · rw [hbare, hdot] at h
    simp only [List.cons_append, List.nil_append, List.cons.injEq, true_and] at h
    exact absurd (hs _ (by rw [← h.2]; rfl)) (by decide)
  · rw [hdot, hdot] at h
    simp only [List.cons_append, List.nil_append, List.cons.injEq, Token.name.injEq, true_and,
      String.toList_inj] at h
    exact ⟨by rw [h.1, h.2.1], h.2.2⟩

theorem Column.sound (c : Column) : Sound c.fragments := by
  obtain ⟨_ | table, name⟩ := c <;> simp [Sound, fragments, fault?]

theorem Value.reads {follow : List Token → Prop} (v : Value) :
    ReadsAt d follow (fun v => [value v]) id v := by
  intro v' r s hv hv' _ _ e
  obtain ⟨a, rfl⟩ := eq_scalar_of_sound (hv _ List.mem_cons_self)
  obtain ⟨b, rfl⟩ := eq_scalar_of_sound (hv' _ List.mem_cons_self)
  simpa [tokensAll, tokens, value] using e

def labelFragments (label : Option String) : List Fragment :=
  label.toList.flatMap fun l => [.text " as ", .name l]

theorem leads_label : Leads d [" as "] fun l : String => [.text " as ", .name l] :=
  Leads.text (w := fun _ => " as ") fun _ => by decide

theorem label_reads {ws : List String} (hc : Clash [" as "] ws) (label : Option String) :
    ReadsAt d (Begins ws) labelFragments id label := by
  rw [← Option.map_id]
  exact ReadsAt.option (leads_label.stops hc) fun l _ => (ReadsAt.name l).text (by decide)

theorem label_begins {ws : List String} (label : Option String) (hr : Begins ws r) :
    Begins (" as " :: ws) (tokensAll d (labelFragments label) ++ r) :=
  leads_label.begins label.toList hr

abbrev SelectItem.follow : List String := [", ", " from "]

namespace SelectItem

theorem fragments_column (c : Column) (label : Option String) :
    fragments (.column c label) = c.fragments ++ labelFragments label := by
  cases label with
  | none => exact (List.append_nil _).symm
  | some label => rfl

theorem column_headNot {label : Option String} (hr : Begins follow r) :
    HeadNot Token.isDot (tokensAll d (labelFragments label) ++ r) :=
  (label_begins label hr).headNot (by decide)

theorem allOf_ne_column {table : String} {c : Column} (hs : HeadNot Token.isDot s) :
    tokensAll d (fragments (.allOf table)) ++ r ≠ tokensAll d c.fragments ++ s := by
  have hall : tokensAll d (fragments (.allOf table)) =
      .aName :: .name table.toList :: .letter (.other '.') :: [.letter (.other '*')] := by
    unfold fragments
    rw [tokensAll_name, tokensAll_text (by decide)]
    rfl
  intro e
  rw [hall] at e
  obtain ⟨_ | other, name⟩ := c
  · have hrest : .letter (.other '.') :: .letter (.other '*') :: r = s :=
      List.tail_eq_of_cons_eq (List.tail_eq_of_cons_eq e)
    exact absurd (hs (.letter (.other '.')) (by rw [← hrest]; rfl)) (by decide)
  · unfold Column.fragments at e
    rw [tokensAll_name, tokensAll_text (by decide)] at e
    have hrest := List.tail_eq_of_cons_eq (List.tail_eq_of_cons_eq (List.tail_eq_of_cons_eq e))
    cases (List.cons_eq_cons.mp hrest).1

theorem reads (item : SelectItem) : ReadsAt d (Begins follow) fragments id item := by
  intro item' r s hi hi' hr hs e
  have hstar : tokensAll d (fragments .all) = [.letter (.other '*')] :=
    tokensAll_text (by decide) []
  -- A column begins with a name, and `*` does not.
  have hne {c : Column} {label : Option String} {r s : List Token} :
      tokensAll d (fragments .all) ++ r ≠ tokensAll d (fragments (.column c label)) ++ s := by
    rw [hstar, fragments_column]
    obtain ⟨_ | table, name⟩ := c <;> exact fun h => nomatch (List.cons_eq_cons.mp h).1
  cases item with
  | attributes => exact absurd (hi _ List.mem_cons_self) (by simp [fault?])
  | all =>
    cases item' with
    | attributes => exact absurd (hi' _ List.mem_cons_self) (by simp [fault?])
    | all => exact ⟨rfl, List.append_cancel_left e⟩
    | allOf table => rw [hstar] at e; cases (List.cons_eq_cons.mp e).1
    | column c label => exact absurd e hne
  | allOf table =>
    cases item' with
    | attributes => exact absurd (hi' _ List.mem_cons_self) (by simp [fault?])
    | all => rw [hstar] at e; cases (List.cons_eq_cons.mp e).1
    | allOf table' =>
      unfold fragments at e
      rw [tokensAll_name, tokensAll_name] at e
      simp only [List.cons_append, List.cons.injEq, Token.name.injEq, true_and,
        String.toList_inj] at e
      exact ⟨congrArg allOf e.1, List.append_cancel_left e.2⟩
    | column c label =>
      rw [fragments_column, tokensAll_append, List.append_assoc] at e
      exact absurd e (allOf_ne_column (column_headNot hs))
  | column c label =>
    cases item' with
    | attributes => exact absurd (hi' _ List.mem_cons_self) (by simp [fault?])
    | all => exact absurd e.symm hne
    | allOf table =>
      rw [fragments_column, tokensAll_append, List.append_assoc] at e
      exact absurd e.symm (allOf_ne_column (column_headNot hr))
    | column c' label' =>
      have hread : ReadsAt d (Begins follow) _ _ (c, label) :=
        (c.reads.of Prod.fst).append ((label_reads (by decide) label).of Prod.snd)
          fun _ _ => column_headNot
      rw [fragments_column] at hi hi' e
      rw [fragments_column] at e
      obtain ⟨h, hrs⟩ := hread (c', label') r s hi hi' hr hs e
      cases h
      exact ⟨rfl, hrs⟩

theorem list_reads (items : List SelectItem) :
    ReadsAt d (Begins [" from "]) listFragments normalList items := by
  have hnormal (items : List SelectItem) : ∃ item rest, normalList items = item :: rest ∧
      listFragments items = [.text ", "].intercalate ((item :: rest).map fragments) := by
    cases items with
    | nil => exact ⟨.all, [], rfl, (List.append_nil _).symm⟩
    | cons item rest => exact ⟨item, rest, rfl, rfl⟩
  intro items' r s hi hi' hr hs e
  obtain ⟨item, rest, hn, hf⟩ := hnormal items
  obtain ⟨item', rest', hn', hf'⟩ := hnormal items'
  rw [hf] at hi e
  rw [hf'] at hi' e
  have hread : ReadsAt d (Begins [" from "]) _ _ (item, rest) :=
    ReadsAt.separated (by decide) (by decide) fun x _ => x.reads
  obtain ⟨hitems, hrs⟩ := hread (item', rest') r s hi hi' hr hs e
  rw [List.map_id, List.map_id] at hitems
  exact ⟨by rw [hn, hn', hitems], hrs⟩

end SelectItem

namespace Select

abbrev afterLimit : List String := [" offset ", ")"]

abbrev afterKeys : List String := " limit " :: afterLimit

abbrev afterWhere : List String := " order by " :: afterKeys

abbrev afterJoins : List String := " where " :: afterWhere

abbrev afterTable : List String := [" inner join ", " left join "] ++ afterJoins

end Select

namespace JoinTest

def column : JoinTest → Column
  | columns l _ => l
  | value c _ => c

def operand : JoinTest → Column ⊕ Value
  | columns _ r => .inl r
  | value _ v => .inr v

def operandFragments : Column ⊕ Value → List Fragment
  | .inl c => c.fragments
  | .inr v => [.value v]

theorem fragments_eq (t : JoinTest) :
    t.fragments = t.column.fragments ++ .text " = " :: operandFragments t.operand := by
  cases t with
  | columns l r => exact List.append_assoc _ _ _
  | value c v => rfl

theorem operand_reads (o : Column ⊕ Value) :
    ReadsAt d (HeadNot Token.isDot) operandFragments id o := by
  have hname {c : Column} {v : Value} (hv : Sound [.value v]) {r s : List Token} :
      tokensAll d c.fragments ++ r ≠ tokensAll d [.value v] ++ s := by
    obtain ⟨a, rfl⟩ := eq_scalar_of_sound (hv _ List.mem_cons_self)
    obtain ⟨_ | table, name⟩ := c <;> exact fun h => nomatch (List.cons_eq_cons.mp h).1
  intro o' r s ho ho' hr hs e
  cases o with
  | inl c =>
    cases o' with
    | inl c' => exact (c.reads c' r s ho ho' hr hs e).imp_left (congrArg Sum.inl)
    | inr v' => exact absurd e (hname ho')
  | inr v =>
    cases o' with
    | inl c' => exact absurd e.symm (hname ho)
    | inr v' => exact (v.reads v' r s ho ho' hr hs e).imp_left (congrArg Sum.inr)

theorem reads (t : JoinTest) : ReadsAt d (HeadNot Token.isDot) fragments id t := by
  have hoperand := ((operand_reads (d := d) t.operand).of operand).text (w := " = ") (by decide)
  have hparts := (t.column.reads.of column).append hoperand fun t r _ => by
    rw [tokensAll_text (by decide), List.append_assoc]
    exact (Begins.text (List.mem_singleton_self " = ") _).headNot (by decide)
  refine (hparts.congr fragments_eq).imp fun t' h => ?_
  cases t <;> cases t' <;> simp_all [column, operand]

end JoinTest

namespace Join

def opening (type : JoinType) : String := " " ++ type.keyword ++ " join "

theorem isPlain_opening (type : JoinType) : isPlain (opening type) = true := by
  cases type <;> decide

theorem tells_opening : Tells opening := by
  intro type type'
  cases type <;> cases type' <;> decide

theorem fragments_eq (j : Join) :
    j.fragments = .text (opening j.type) :: ([.name j.table] ++ labelFragments j.label ++
      sectionFragments " on " " and " JoinTest.fragments j.tests) := by
  obtain ⟨type, table, label, tests⟩ := j
  cases label <;> cases tests <;> rfl

theorem leads_joins : Leads d [" inner join ", " left join "] fragments := by
  intro j
  refine ⟨opening j.type, by cases j.type <;> decide, ?_⟩
  rw [fragments_eq, tokensAll_text (isPlain_opening j.type)]
  exact List.prefix_append _ _

theorem tests_reads (tests : List JoinTest) : ReadsAt d (Begins Select.afterTable)
    (sectionFragments " on " " and " JoinTest.fragments) id tests := by
  rw [← List.map_id_fun]
  refine ReadsAt.section (by decide) (by decide) (by decide) (by decide) fun t _ => ?_
  exact t.reads.mono fun r hr => hr.headNot (by decide)

theorem reads (j : Join) : ReadsAt d (Begins Select.afterTable) fragments id j := by
  have hname : ReadsAt d (fun _ => True) _ _ j := (ReadsAt.name j.table).of table
  have hlabel : ReadsAt d (Begins (" on " :: Select.afterTable)) _ _ j :=
    (label_reads (by decide) j.label).of label
  have htests := (tests_reads (d := d) j.tests).of tests
  have hbehind := (hname.append hlabel fun _ _ _ => trivial).append htests fun j _ hr =>
    section_begins (by decide) " and " j.tests hr
  refine ((tells_opening.choose isPlain_opening type hbehind).congr fragments_eq).imp fun j' h => ?_
  cases j
  cases j'
  simp_all

end Join

namespace SortKey

theorem tells_direction : Tells fun direction : Direction => " " ++ direction.keyword := by
  intro direction direction'
  cases direction <;> cases direction' <;> decide

theorem isPlain_direction (direction : Direction) : isPlain (" " ++ direction.keyword) = true := by
  cases direction <;> decide

theorem reads {follow : List Token → Prop} (k : SortKey) : ReadsAt d follow fragments id k := by
  have hdirection : ReadsAt d follow _ _ k := tells_direction.alone isPlain_direction direction k
  have hparts := (k.column.reads.of column).append hdirection fun k r _ => by
    rw [tokensAll_text (isPlain_direction k.direction), letters_append, List.append_assoc,
      List.append_assoc]
    exact (Begins.text (List.mem_singleton_self " ") _).headNot (by decide)
  refine hparts.imp fun k' h => ?_
  cases k
  cases k'
  simp_all

theorem listFragments_eq (keys : List SortKey) :
    listFragments keys = sectionFragments " order by " ", " fragments keys := by
  cases keys <;> rfl

theorem list_reads {ws : List String} (hc : Clash [" order by "] ws) (hc' : Clash [", "] ws)
    (keys : List SortKey) : ReadsAt d (Begins ws) listFragments id keys := by
  rw [← List.map_id_fun]
  exact (ReadsAt.section (by decide) (by decide) hc hc' fun k _ => k.reads).congr listFragments_eq

theorem list_begins {ws : List String} (keys : List SortKey) (hr : Begins ws r) :
    Begins (" order by " :: ws) (tokensAll d (listFragments keys) ++ r) := by
  rw [listFragments_eq]
  exact section_begins (by decide) ", " keys hr

end SortKey

theorem Text.nat_injective {m n : Nat} (h : Text.nat m = Text.nat n) : m = n := by
  unfold Text.nat at h
  calc
    m = Nat.ofDigitChars 10 (Nat.toDigits 10 m) 0 := Nat.ofDigitChars_ten_toDigits.symm
    _ = Nat.ofDigitChars 10 (Nat.toDigits 10 n) 0 := by rw [h]
    _ = n := Nat.ofDigitChars_ten_toDigits

theorem append_inj_of_headNot {kind : Token → Bool} {v w : List Token}
    (hv : ∀ t ∈ v, kind t = true) (hw : ∀ t ∈ w, kind t = true) (hr : HeadNot kind r)
    (hs : HeadNot kind s) (e : v ++ r = w ++ s) : v = w ∧ r = s := by
  have htake {v r : List Token} (hv : ∀ t ∈ v, kind t = true) (hr : HeadNot kind r) :
      (v ++ r).takeWhile kind = v := by
    rw [List.takeWhile_append_of_pos hv]
    cases r with
    | nil => simp
    | cons t r => simp [hr t rfl]
  have hvw : v = w := by rw [← htake hv hr, e, htake hw hs]
  subst hvw
  exact ⟨rfl, List.append_cancel_left e⟩

theorem countFragments_eq (keyword : String) (n : Option Nat) :
    countFragments keyword n =
      n.toList.flatMap fun n => [.text (keyword ++ String.ofList (Text.nat n))] := by
  cases n <;> rfl

section Counts

variable {keyword : String} (hkeyword : isPlain keyword = true)
include hkeyword

theorem leads_count :
    Leads d [keyword] fun n => [.text (keyword ++ String.ofList (Text.nat n))] := by
  intro n
  refine ⟨keyword, List.mem_singleton_self keyword, ?_⟩
  rw [tokensAll_text (isPlain_append hkeyword (isPlain_nat n)), letters_append, List.append_assoc]
  exact List.prefix_append _ _

theorem count_begins {ws : List String} (n : Option Nat) (hr : Begins ws r) :
    Begins (keyword :: ws) (tokensAll d (countFragments keyword n) ++ r) := by
  rw [countFragments_eq]
  exact (leads_count hkeyword).begins n.toList hr

theorem count_reads {ws : List String} (hc : Clash [keyword] ws)
    (hdigit : (ws.all fun w => (letters w).head?.any fun t => !t.isDigit) = true)
    (n : Option Nat) : ReadsAt d (Begins ws) (countFragments keyword) id n := by
  have hnumber (n : Nat) : ReadsAt d (Begins ws)
      (fun n => [.text (keyword ++ String.ofList (Text.nat n))]) id n := by
    intro m r s _ _ hr hs e
    have hdigits (n : Nat) : ∀ t ∈ letters (String.ofList (Text.nat n)), t.isDigit = true := by
      intro t ht
      unfold letters at ht
      rw [String.toList_ofList] at ht
      obtain ⟨c, hc, rfl⟩ := List.mem_map.mp ht
      exact Dialect.isDigit_nat hc
    rw [tokensAll_text (isPlain_append hkeyword (isPlain_nat n)),
      tokensAll_text (isPlain_append hkeyword (isPlain_nat m)), letters_append, letters_append,
      List.append_assoc, List.append_assoc, List.append_assoc, List.append_assoc] at e
    obtain ⟨hnm, hrs⟩ := append_inj_of_headNot (hdigits n) (hdigits m) (hr.headNot hdigit)
      (hs.headNot hdigit) (List.append_cancel_left e)
    unfold letters at hnm
    rw [String.toList_ofList, String.toList_ofList] at hnm
    have hchars := (List.map_inj_right fun _ _ h => Lexeme.other.inj (Token.letter.inj h)).mp hnm
    exact ⟨Text.nat_injective hchars, hrs⟩
  rw [← Option.map_id]
  refine (ReadsAt.option ((leads_count hkeyword).stops hc) fun n _ => hnumber n).congr ?_
  exact countFragments_eq keyword

end Counts

end EntityQuery
