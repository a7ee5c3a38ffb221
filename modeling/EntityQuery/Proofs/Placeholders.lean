import EntityQuery.Proofs.Phrases
import EntityQuery.Sql.Render

namespace EntityQuery

open Fragment

def JoinTest.boundValues : JoinTest → List Value
  | columns .. => []
  | value _ v => [v]

def Join.boundValues (j : Join) : List Value := j.tests.flatMap JoinTest.boundValues

def Test.boundValues : Test → List Value
  | compare .eq .null | compare .ne .null | compare .bangNe .null => []
  | compare _ v => [v]
  | between low high _ => [low, high]
  | oneOf vs _ => vs
  | isNull _ => []
  | datePart _ _ v => [v]

namespace Condition

mutual

def boundValues : Condition → List Value
  | test _ _ t => t.boundValues
  | group _ members => boundValuesAll members

def boundValuesAll : List Condition → List Value
  | [] => []
  | c :: rest => c.boundValues ++ boundValuesAll rest

end

end Condition

namespace Select

mutual

/-- The values of the joins, of the clauses, and of the members of the union. -/
def boundValues : Select → List Value
  | { joins, conditions, unions, .. } =>
    joins.flatMap Join.boundValues ++ Condition.boundValuesAll conditions ++ memberValues unions

def memberValues : List (UnionType × Select) → List Value
  | [] => []
  | (_, member) :: rest => boundValues member ++ memberValues rest

end

end Select

variable (d : Dialect)

theorem Column.phrase (c : Column) : Phrase d c.fragments [] := by
  unfold fragments
  cases c.table with
  | none => exact .single_name c.name
  | some table =>
    exact ((Phrase.single_name c.name).plain "." (by decide)).name table
      (opens_text (by decide) _)

theorem SelectItem.phrase (item : SelectItem) : Phrase d item.fragments [] := by
  cases item with
  | all => exact .single_plain "*" (by decide)
  | allOf table =>
    exact (Phrase.single_plain ".*" (by decide)).name table (opens_text (by decide) _)
  | column c label =>
    cases label with
    | none => exact c.phrase d
    | some label =>
      have hl := (Phrase.single_name (d := d) label).plain " as " (by decide)
      exact (c.phrase d).append hl (opens_text (by decide) _)
  | attributes => exact .fault _ trivial

theorem SelectItem.list_phrase (items : List SelectItem) : Phrase d (listFragments items) [] := by
  cases items with
  | nil => exact .single_plain "*" (by decide)
  | cons item rest =>
    exact .intercalate_nil ", " (by decide) (by decide) SelectItem.fragments (item :: rest)
      fun item _ => item.phrase d

theorem JoinTest.phrase (t : JoinTest) : Phrase d t.fragments t.boundValues := by
  cases t with
  | columns l r =>
    have hr := (r.phrase d).plain " = " (by decide)
    simpa [fragments, boundValues] using (l.phrase d).append hr (opens_text (by decide) _)
  | value c v =>
    have hv := (Phrase.single_value (d := d) v).plain " = " (by decide)
    simpa [fragments, boundValues] using (c.phrase d).append hv (opens_text (by decide) _)

theorem Join.phrase (j : Join) : Phrase d j.fragments j.boundValues ∧ Opens j.fragments := by
  have hkeyword : isPlain (" " ++ j.type.keyword ++ " join ") = true ∧
      parts (" " ++ j.type.keyword ++ " join ") = true := by
    cases j.type <;> decide
  have hname := (Phrase.single_name (d := d) j.table).plain _ hkeyword.1
  have hparts {ls ts : List Fragment} (hl : Phrase d ls [] ∧ Opens ls)
      (ht : Phrase d ts j.boundValues ∧ Opens ts) :
      Phrase d ([.text (" " ++ j.type.keyword ++ " join "), .name j.table] ++ ls ++ ts)
          j.boundValues ∧
        Opens ([.text (" " ++ j.type.keyword ++ " join "), .name j.table] ++ ls ++ ts) :=
    ⟨(hname.append hl.1 hl.2).append ht.1 ht.2, opens_text hkeyword.2 _⟩
  apply hparts
  · cases j.label with
    | none => exact ⟨.nil, trivial⟩
    | some label =>
      exact ⟨(Phrase.single_name label).plain " as " (by decide), opens_text (by decide) _⟩
  · unfold Join.boundValues
    cases j.tests with
    | nil => exact ⟨.nil, trivial⟩
    | cons t rest =>
      have h := Phrase.intercalate (d := d) " and " (by decide) (by decide) JoinTest.fragments
        JoinTest.boundValues (t :: rest) fun t _ => t.phrase d
      exact ⟨h.plain " on " (by decide), opens_text (by decide) _⟩

theorem Operator.isPlain_spelling (op : Operator) : isPlain op.spelling = true := by
  cases op <;> decide

theorem Dialect.isPlain_comparison (op : Operator) : isPlain (d.comparison op) = true := by
  unfold comparison
  split
  · decide
  · decide
  · exact op.isPlain_spelling

theorem Dialect.datePart_texts (part : DatePart) :
    d.Quiet (d.datePart part).1 ∧ isPlain (d.datePart part).2 = true ∧
      parts (d.datePart part).2 = true := by
  cases d <;> cases part <;> decide

theorem Dialect.dateOperand_texts :
    isPlain d.dateOperand.1 = true ∧ isPlain d.dateOperand.2 = true ∧
      Opens [.text d.dateOperand.2] := by
  cases d
  case sqlite => exact ⟨by decide, by decide, opens_text (by decide) _⟩
  all_goals exact ⟨by decide, by decide, .inr ⟨rfl, trivial⟩⟩

theorem Column.phrase_text (c : Column) {s : String} (hs : isPlain s = true) (hp : parts s = true) :
    Phrase d (c.fragments ++ [.text s]) [] :=
  (c.phrase d).append (.single_plain s hs) (opens_text hp _)

theorem Test.phrase_compare (c : Column) (op : Operator) (v : Value) :
    Phrase d ((compare op v).fragments d c) (compare op v).boundValues := by
  unfold fragments
  split
  -- The other kinds of tests are no comparisons.
  all_goals try contradiction
  · next h =>
    cases h
    exact c.phrase_text d (by decide) (by decide)
  · next h =>
    cases h
    exact c.phrase_text d (by decide) (by decide)
  · next h =>
    cases h
    exact c.phrase_text d (by decide) (by decide)
  · next h =>
    cases h
    have hbound : (compare op v).boundValues = [v] := by
      unfold boundValues
      split <;> simp_all
    have hplain : isPlain (" " ++ d.comparison op ++ " ") = true :=
      isPlain_append (isPlain_append (by decide) (d.isPlain_comparison op)) (by decide)
    have hv := (Phrase.single_value (d := d) v).plain _ hplain
    rw [hbound]
    exact (c.phrase d).append hv (opens_text (parts_append (parts_append (by decide))) _)

theorem Test.phrase (c : Column) (t : Test) : Phrase d (t.fragments d c) t.boundValues := by
  cases t with
  | compare op v => exact phrase_compare d c op v
  | between low high negated =>
    have hhigh := (Phrase.single_value (d := d) high).plain " and " (by decide)
    have hlow := hhigh.value low (opens_text (by decide) _)
    cases negated
    · exact (c.phrase d).append (hlow.plain " between " (by decide)) (opens_text (by decide) _)
    · exact (c.phrase d).append (hlow.plain " not between " (by decide)) (opens_text (by decide) _)
  | oneOf vs negated =>
    cases vs with
    | nil => cases negated <;> exact .single_plain _ (by decide)
    | cons v rest =>
      have hvs := Phrase.intercalate (d := d) ", " (by decide) (by decide)
        (fun v => [Fragment.value v]) (fun v => [v]) (v :: rest) fun v _ => .single_value v
      have hflat : (v :: rest).flatMap (fun v => [v]) = v :: rest := by simp
      have hlist := hvs.append (.single_plain ")" (by decide)) (opens_text (by decide) _)
      have hopen : isPlain (if negated then " not in (" else " in (") = true ∧
          parts (if negated then " not in (" else " in (") = true := by
        cases negated <;> decide
      have h := (c.phrase d).append (hlist.plain _ hopen.1) (opens_text hopen.2 _)
      simpa [fragments, boundValues, hflat] using h
  | isNull negated => cases negated <;> exact c.phrase_text d (by decide) (by decide)
  | datePart part op v =>
    obtain ⟨hbefore, hafter, hparts⟩ := d.datePart_texts part
    obtain ⟨hopen, hclose, hends⟩ := d.dateOperand_texts
    have hplain := isPlain_append (isPlain_append (isPlain_append (isPlain_append hafter
      (t := " ") (by decide)) op.isPlain_spelling) (t := " ") (by decide)) hopen
    have hv := ((Phrase.single_plain (d := d) _ hclose).value v hends).plain _ hplain
    have hc := (c.phrase d).append hv (opens_text (parts_append (parts_append (parts_append
      (parts_append hparts)))) _)
    exact hc.text hbefore

namespace Condition

theorem boundValues_of_isHollow : ∀ c : Condition, c.isHollow = true → c.boundValues = []
  | test .., h => by simp [isHollow] at h
  | group _ members, h => boundValuesAll_of_allHollow members h
where
  boundValuesAll_of_allHollow : ∀ cs : List Condition, allHollow cs = true → boundValuesAll cs = []
    | [], _ => rfl
    | c :: rest, h => by
      rw [allHollow, Bool.and_eq_true] at h
      rw [boundValuesAll, boundValues_of_isHollow c h.1, boundValuesAll_of_allHollow rest h.2]
      rfl

mutual

theorem phrase : ∀ c : Condition, Phrase d (c.fragments d) c.boundValues
  | test _ column t => t.phrase d column
  | group _ members => by
    have h := (level_phrase members true).1.append (.single_plain ")" (by decide))
      (opens_text (by decide) _)
    simpa [fragments, boundValues] using h.plain "(" (by decide)

theorem level_phrase : ∀ (cs : List Condition) (first : Bool),
    Phrase d (levelFragments d first cs) (boundValuesAll cs) ∧
      (first = false → Opens (levelFragments d first cs))
  | [], _ => ⟨.nil, fun _ => trivial⟩
  | c :: rest, first => by
    unfold levelFragments boundValuesAll
    split
    · next hc =>
      rw [boundValues_of_isHollow c hc, List.nil_append]
      exact level_phrase rest first
    · obtain ⟨hr, ho⟩ := level_phrase rest false
      have hcr := (phrase c).append hr (ho rfl)
      cases first with
      | true => exact ⟨by simpa using hcr, nofun⟩
      | false =>
        have hplain : isPlain (" " ++ c.connective.keyword ++ " ") = true := by
          cases c.connective <;> decide
        have hparts : parts (" " ++ c.connective.keyword ++ " ") = true :=
          parts_append (parts_append (by decide))
        have h := hcr.plain _ hplain
        exact ⟨by simpa using h, fun _ => by simpa using opens_text hparts _⟩

end

theorem whereFragments_phrase (cs : List Condition) :
    Phrase d (whereFragments d cs) (boundValuesAll cs) ∧ Opens (whereFragments d cs) := by
  unfold whereFragments
  split
  · next h =>
    rw [boundValues_of_isHollow.boundValuesAll_of_allHollow cs h]
    exact ⟨.nil, trivial⟩
  · exact ⟨(level_phrase d cs true).1.plain " where " (by decide), opens_text (by decide) _⟩

end Condition

theorem SortKey.phrase (k : SortKey) : Phrase d k.fragments [] := by
  have hkeyword : isPlain (" " ++ k.direction.keyword) = true ∧
      parts (" " ++ k.direction.keyword) = true := by
    cases k.direction <;> decide
  exact k.column.phrase_text d hkeyword.1 hkeyword.2

theorem SortKey.list_phrase (keys : List SortKey) :
    Phrase d (listFragments keys) [] ∧ Opens (listFragments keys) := by
  cases keys with
  | nil => exact ⟨.nil, trivial⟩
  | cons k rest =>
    have h := Phrase.intercalate_nil (d := d) ", " (by decide) (by decide) SortKey.fragments
      (k :: rest) fun k _ => k.phrase d
    exact ⟨h.plain " order by " (by decide), opens_text (by decide) _⟩

theorem isPlain_nat (n : Nat) : isPlain (String.ofList (Text.nat n)) = true := by
  unfold isPlain
  rw [String.toList_ofList, List.all_eq_true]
  intro c hc
  have hd := Dialect.isDigit_nat hc
  have hne : ∀ x : Char, x.isDigit = false → c ≠ x := by
    rintro x hx rfl
    exact absurd hd (by simp [hx])
  simp [hne]

theorem countFragments_phrase (keyword : String) (hs : isPlain keyword = true)
    (hp : parts keyword = true) (n : Option Nat) :
    Phrase d (countFragments keyword n) [] ∧ Opens (countFragments keyword n) := by
  cases n with
  | none => exact ⟨.nil, trivial⟩
  | some n =>
    exact ⟨.single_plain _ (isPlain_append hs (isPlain_nat n)), opens_text (parts_append hp) _⟩

namespace Select

theorem body_phrase (q : Select) : Phrase d (q.bodyFragments d)
    (q.joins.flatMap Join.boundValues ++ Condition.boundValuesAll q.conditions) := by
  have hitems := (SelectItem.list_phrase d q.items).plain "select " (by decide)
  have htable := (Phrase.single_name (d := d) q.table).plain " from " (by decide)
  have hjoins := Phrase.flatMap (d := d) Join.fragments Join.boundValues q.joins fun j _ => j.phrase d
  have hwhere := Condition.whereFragments_phrase d q.conditions
  have hkeys := SortKey.list_phrase d q.sortKeys
  have hlimit := countFragments_phrase d " limit " (by decide) (by decide) q.limit
  have hoffset := countFragments_phrase d " offset " (by decide) (by decide) q.offset
  have h := (((((hitems.append htable (opens_text (by decide) _)).append hjoins.1 hjoins.2).append
    hwhere.1 hwhere.2).append hkeys.1 hkeys.2).append hlimit.1 hlimit.2).append hoffset.1 hoffset.2
  simpa [bodyFragments] using h

mutual

theorem phrase : ∀ q : Select, Phrase d (q.fragments d) q.boundValues
  | ⟨dialect, table, items, joins, conditions, sortKeys, unionSortKeys, unions, limit, offset⟩ => by
    have hbody := body_phrase d ⟨dialect, table, items, joins, conditions, sortKeys, unionSortKeys,
      unions, limit, offset⟩
    unfold fragments boundValues
    split
    · next h =>
      obtain rfl := List.isEmpty_iff.mp h
      simpa [memberValues] using hbody
    · obtain ⟨hmembers, ho⟩ := member_phrase unions
      have hkeys := SortKey.list_phrase d unionSortKeys
      have hq := (hbody.append (.single_plain ")" (by decide)) (opens_text (by decide) _)).plain "("
        (by decide)
      have h := (hq.append hmembers ho).append hkeys.1 hkeys.2
      simpa using h

theorem member_phrase : ∀ members : List (UnionType × Select),
    Phrase d (memberFragments d members) (memberValues members) ∧ Opens (memberFragments d members)
  | [] => ⟨.nil, trivial⟩
  | (type, member) :: rest => by
    obtain ⟨hr, ho⟩ := member_phrase rest
    have hm := (phrase member).append (hr.plain ")" (by decide)) (opens_text (by decide) _)
    unfold memberFragments memberValues
    cases type with
    | distinct =>
      have h := hm.plain " union (" (by decide)
      exact ⟨by simpa using h, opens_text (by decide) _⟩
    | all =>
      have h := hm.plain " union all (" (by decide)
      exact ⟨by simpa using h, opens_text (by decide) _⟩

end

end Select

def Row.values (row : Row) : List Value := row.toList.map Prod.snd

theorem Row.phrase (columns : List String) (i : Nat) (row : Row) :
    Phrase d (row.fragments columns i) row.values := by
  unfold fragments
  split
  · have hcells := Phrase.intercalate (d := d) ", " (by decide) (by decide)
      (fun cell : String × Value => [Fragment.value cell.2]) (fun cell => [cell.2]) row.toList
      fun cell _ => .single_value cell.2
    have hvalues : row.toList.flatMap (fun cell => [cell.2]) = row.values := by
      rw [values, List.map_eq_flatMap]
    have h := (hcells.append (.single_plain ")" (by decide)) (opens_text (by decide) _)).plain "("
      (by decide)
    simpa [hvalues] using h
  · exact .fault _ trivial

theorem insertFragments_phrase (table : String) (first : Row) (rows : List Row) :
    Phrase d (insertFragments table first rows) ((first :: rows).flatMap Row.values) := by
  unfold insertFragments
  split
  · exact .fault _ trivial
  · have hcolumns := Phrase.intercalate_nil (d := d) ", " (by decide) (by decide)
      (fun column => [Fragment.name column]) first.keys fun column _ => .single_name column
    have hrows := Phrase.intercalate (d := d) ", " (by decide) (by decide)
      (fun p : Row × Nat => p.1.fragments first.keys p.2) (fun p => p.1.values)
      (first :: rows).zipIdx fun p _ => p.1.phrase d first.keys p.2
    have hvalues : (first :: rows).zipIdx.flatMap (fun p => p.1.values) =
        (first :: rows).flatMap Row.values := by
      rw [← List.flatMap_map Prod.fst, List.zipIdx_map_fst]
    have hbehind := (hcolumns.append (hrows.plain ") values " (by decide))
      (opens_text (by decide) _)).plain " (" (by decide)
    have h := (hbehind.name table (opens_text (by decide) _)).plain "insert into " (by decide)
    rw [hvalues] at h
    simpa [List.mapIdx_eq_zipIdx_map] using h

/-- The placeholders of a statement are those of its values. The values of a query are those of its
parts, those of rows stand row by row. -/
theorem placeholders_match_bindings :
    (∀ (q : Select) (st : Statement), q.statement = .ok st →
      st.bindings = q.boundValues ∧
        q.dialect.placeholders st.sql = q.dialect.markers st.bindings.length) ∧
    ∀ (d : Dialect) (table : String) (rows : List Row) (st : Statement),
      insertStatement d .placeholders table rows = .ok (some st) →
      st.bindings = rows.flatMap Row.values ∧
        d.placeholders st.sql = d.markers st.bindings.length := by
  constructor
  · intro q st hst
    obtain ⟨hb, hp⟩ := (q.phrase q.dialect).statement hst
    exact ⟨hb, hb ▸ hp⟩
  · intro d table rows st hst
    cases rows with
    | nil => simp [insertStatement] at hst
    | cons first rows =>
      cases hf : Statement.ofFragments d .placeholders (insertFragments table first rows) with
      | error e => simp [insertStatement, hf, Functor.map, Except.map] at hst
      | ok st' =>
        obtain rfl : st' = st := by
          simpa [insertStatement, hf, Functor.map, Except.map] using hst
        obtain ⟨hb, hp⟩ := (insertFragments_phrase d table first rows).statement hf
        exact ⟨hb, hb ▸ hp⟩

namespace Sample

/-- A query whose names look like placeholders, with a member in its union. -/
def union : Select where
  dialect := .postgres
  table := "products"
  items := [.column (.bare "a?") (some "$1")]
  joins := [{
    type := .left
    table := "varchars"
    tests := [.value (.bare "attribute_id") (.int 2)] }]
  conditions := [
    .test .and (.bare "color") (.compare .eq .null),
    .group .or [.group .and [], .test .or (.bare "color") (.compare .like (.string "r?"))]]
  unions := [(.all, {
    dialect := .mysql
    table := "more"
    conditions := [.test .and (.bare "size") (.oneOf [.int 1, .int 3] false)] })]

def rows : List Row :=
  [.ofList [("b", .int 1), ("a", .string "x")]]

end Sample

theorem placeholders_match_bindings_sample :
    (∃ st, Sample.union.statement = .ok st ∧
      st.bindings = [.int 2, .string "r?", .int 1, .int 3] ∧
      Dialect.postgres.placeholders st.sql =
        [.numbered ['1'], .numbered ['2'], .numbered ['3'], .numbered ['4']]) ∧
    ∃ st, insertStatement .sqlite .placeholders "products" Sample.rows = .ok (some st) ∧
      st.bindings = [.string "x", .int 1] ∧
      Dialect.sqlite.placeholders st.sql = [.mark, .mark] := by
  obtain ⟨hselect, hinsert⟩ := placeholders_match_bindings
  constructor
  · exact ⟨_, rfl, rfl, (hselect Sample.union _ rfl).2⟩
  · exact ⟨_, rfl, rfl, (hinsert .sqlite "products" Sample.rows _ rfl).2⟩

end EntityQuery
