import EntityQuery.Proofs.Words

namespace EntityQuery

open Fragment Word

variable {d : Dialect}

def links : List String :=
  [" as ", ", ", " = ", " on ", " and ", " or ", " from ", " inner join ", " left join ", " where ",
    " order by ", " limit ", " offset ", " union (", " union all (", " between ", " not between ",
    " in (", " not in ("]

theorem link_of_mem {w : String} (hw : w ∈ links) (d : Dialect) : Link (chars d (.text w)) := by
  have hall : ∀ w ∈ links, isPlain w = true ∧ Link (w.toList.map some) := by decide +kernel
  obtain ⟨hplain, hlink⟩ := hall w hw
  rwa [chars_of_isPlain hplain]

theorem opening_texts (d : Dialect) : ∀ w ∈ ["select ", "("], Opening (chars d (.text w)) := by
  cases d <;> decide

theorem trails_texts (d : Dialect) : ∀ w ∈ [")", " asc", " desc", d.dateOperand.2],
    Trails d [.text w] := by
  cases d <;> decide +kernel

theorem Column.stands_append (c : Column) {fs : List Fragment} (h : Whole (words d fs)) :
    Stands d (c.fragments ++ fs) := by
  have hchars : c.fragments.flatMap (chars d) = [none] ∨
      c.fragments.flatMap (chars d) = [none, some '.', none] := by
    obtain ⟨_ | table, name⟩ := c
    · exact .inl rfl
    · right
      cases d <;> rfl
  have hwords :
      words d (c.fragments ++ fs) = split [] (c.fragments.flatMap (chars d)) ++ words d fs := by
    unfold words
    rw [List.flatMap_append]
    refine split_append_of_getLast? ⟨none, ?_, rfl⟩ [] _
    obtain hc | hc := hchars <;> rw [hc] <;> rfl
  have hcolumn : Whole (split [] (c.fragments.flatMap (chars d))) ∧
      Starts (split [] (c.fragments.flatMap (chars d))) := by
    obtain hc | hc := hchars <;> rw [hc] <;> decide
  unfold Stands
  rw [hwords]
  exact ⟨hcolumn.1.append h, hcolumn.2.append _⟩

theorem Column.stands (c : Column) : Stands d c.fragments := by
  rw [← List.append_nil c.fragments]
  exact c.stands_append (Trails.nil (d := d)).1

theorem labelFragments_trails (label : Option String) : Trails d (labelFragments label) := by
  cases label with
  | none => exact .nil
  | some label => exact .text (link_of_mem (by decide) d) (.operand rfl)

theorem SelectItem.stands (item : SelectItem) : Stands d item.fragments := by
  cases item with
  | all => cases d <;> decide
  | allOf table =>
    have hwords : words d (fragments (.allOf table)) = [.operand, .letters ['.', '*']] := by
      cases d <;> rfl
    unfold Stands
    rw [hwords]
    decide
  | column c label =>
    rw [fragments_column]
    exact c.stands.append (labelFragments_trails label)
  | attributes => exact .operand rfl

theorem SelectItem.list_stands (items : List SelectItem) : Stands d (listFragments items) := by
  cases items with
  | nil => exact SelectItem.all.stands
  | cons item rest => exact .separated (link_of_mem (by decide) d) fun item _ => item.stands

theorem JoinTest.stands (t : JoinTest) : Stands d t.fragments := by
  have hoperand : Stands d (operandFragments t.operand) := by
    cases t with
    | columns l r => exact r.stands
    | value c v => exact .operand (chars_value v)
  rw [fragments_eq]
  exact t.column.stands.append (.text (link_of_mem (by decide) d) hoperand)

theorem Join.trails (j : Join) : Trails d j.fragments := by
  have htests : Trails d (sectionFragments " on " " and " JoinTest.fragments j.tests) :=
    .section (link_of_mem (by decide) d) (link_of_mem (by decide) d) fun t _ => t.stands
  have hopening : Link (chars d (.text (opening j.type))) :=
    link_of_mem (by cases j.type <;> decide) d
  rw [fragments_eq]
  exact .text hopening (((Stands.operand rfl).append (labelFragments_trails j.label)).append htests)

theorem SortKey.trails (keys : List SortKey) : Trails d (listFragments keys) := by
  rw [listFragments_eq]
  refine .section (link_of_mem (by decide) d) (link_of_mem (by decide) d) fun k _ => ?_
  exact k.column.stands.append (trails_texts d _ (by cases k.direction <;> simp [Direction.keyword]))

theorem stands_number (n : Nat) : Stands d [.text (String.ofList (Text.nat n))] := by
  have hdigits : (Text.nat n).all Char.isDigit = true :=
    List.all_eq_true.mpr fun _ hc => Dialect.isDigit_nat hc
  have hother (ws : List String) (h : ∀ w ∈ ws, w.toList.all Char.isDigit = false) :
      (ws.any fun w => w.toList = Text.nat n) = false := by
    rw [List.any_eq_false]
    intro w hw heq
    have hw := h w hw
    rw [of_decide_eq_true heq, hdigits] at hw
    cases hw
  have hopens : (Word.letters (Text.nat n)).opens = false :=
    hother ["where", "and", "or"] (by decide)
  have hcloses : (Word.letters (Text.nat n)).closes = false :=
    hother ["where", "and", "or", "order", "limit", "offset", "union"] (by decide)
  have hwords : words d [.text (String.ofList (Text.nat n))] = [.letters (Text.nat n)] := by
    unfold words
    rw [List.flatMap_singleton, chars_of_isPlain (isPlain_nat n), String.toList_ofList,
      split_map_some (fun c hc => isBreak_of_isDigit (Dialect.isDigit_nat hc)) []]
    exact if_neg Nat.toDigits_ne_nil
  unfold Stands
  rw [hwords]
  exact ⟨⟨.singleton _, by simpa using hopens⟩, _, rfl, hcloses⟩

theorem trails_count {keyword : String} (hk : Link (chars d (.text keyword)))
    (hplain : isPlain keyword = true) (n : Option Nat) : Trails d (countFragments keyword n) := by
  cases n with
  | none => exact .nil
  | some n =>
    unfold Trails words Parted
    rw [countFragments, flatMap_chars_append hplain (isPlain_nat n)]
    exact Trails.text hk (stands_number n)

namespace Form

theorem opening_before (d : Dialect) (part : DatePart) :
    (d.datePart part).1 = "" ∨ Opening (chars d (.text (d.datePart part).1)) := by
  cases d <;> cases part <;> decide +kernel

theorem link_compare (d : Dialect) (op : Operator) : Link (chars d (.text ((compare op).behind d))) := by
  have hall : ∀ w ∈ "is not distinct from" :: "is" :: Operator.all.map Operator.spelling,
      Link ((" " ++ w ++ " ").toList.map some) := by decide +kernel
  have hmem :
      d.comparison op ∈ "is not distinct from" :: "is" :: Operator.all.map Operator.spelling := by
    unfold Dialect.comparison
    split
    · simp
    · simp
    · exact List.mem_append_right ["is not distinct from", "is"] (List.mem_map_of_mem op.mem_all)
  rw [chars_of_isPlain (isPlain_behind d _)]
  exact hall _ hmem

theorem leading_datePart (d : Dialect) (part : DatePart) :
    Leading (chars d (.text ((datePart part).behind d))) := by
  cases d <;> cases part <;> decide +kernel

theorem opening_operator (d : Dialect) (op : Operator) :
    Opening (chars d (.text (op.spelling ++ " " ++ d.dateOperand.1))) := by
  have hall : ∀ op ∈ Operator.all, ∀ w ∈ ["", "cast("],
      Opening ((op.spelling ++ " " ++ w).toList.map some) := by decide +kernel
  have hplain : isPlain (op.spelling ++ " " ++ d.dateOperand.1) = true :=
    isPlain_append (isPlain_append op.isPlain_spelling (by decide)) d.dateOperand_texts.1
  rw [chars_of_isPlain hplain]
  exact hall op op.mem_all _ (by cases d <;> decide)

end Form

namespace Test

theorem stands_isNull (c : Column) (negated : Bool) : Stands d ((isNull negated).fragments d c) := by
  refine c.stands_append ?_
  cases d <;> cases negated <;> decide

theorem stands_compare (c : Column) (op : Operator) (v : Value) :
    Stands d ((compare op v).fragments d c) := by
  obtain h | ⟨negated, -, h⟩ := normal_compare op v
  · rw [fragments_compare h]
    exact c.stands_append (whole_text (Form.link_compare d op).1 (.operand (chars_value v)))
  · rw [h]
    exact stands_isNull c negated

theorem stands_between (c : Column) (low high : Value) (negated : Bool) :
    Stands d ((between low high negated).fragments d c) := by
  have hhigh : Trails d [.text " and ", .value high] :=
    .text (link_of_mem (by decide) d) (.operand (chars_value high))
  have hboth : Stands d [.value low, .text " and ", .value high] :=
    (Stands.operand (chars_value low)).append hhigh
  have hlink : Link (chars d (.text (if negated then " not between " else " between "))) :=
    link_of_mem (by cases negated <;> decide) d
  exact c.stands_append (whole_text hlink.1 hboth)

theorem stands_oneOf (c : Column) (vs : List Value) (negated : Bool) :
    Stands d ((oneOf vs negated).fragments d c) := by
  cases vs with
  | nil =>
    have hconstant : ∀ w ∈ ["0 = 1", "1 = 1"], Stands d [.text w] := by
      cases d <;> decide
    exact hconstant _ (by cases negated <;> decide)
  | cons v vs =>
    have hvalues : Stands d ([.text ", "].intercalate ((v :: vs).map fun v => [.value v])) :=
      .separated (link_of_mem (by decide) d) fun v _ => .operand (chars_value v)
    have hclosed := hvalues.append (trails_texts d ")" (by simp))
    have hlink : Link (chars d (.text (if negated then " not in (" else " in ("))) :=
      link_of_mem (by cases negated <;> decide) d
    rw [fragments_oneOf]
    exact c.stands_append (whole_text hlink.1 hclosed)

theorem stands_datePart (c : Column) (part : DatePart) (op : Operator) (v : Value) :
    Stands d ((datePart part op v).fragments d c) := by
  have hvalue : Stands d [.value v, .text d.dateOperand.2] :=
    (Stands.operand (chars_value v)).append (trails_texts d _ (by simp))
  have hcomparison := hvalue.text (Form.opening_operator d op)
  have hplain : isPlain (op.spelling ++ " " ++ d.dateOperand.1) = true :=
    isPlain_append (isPlain_append op.isPlain_spelling (by decide)) d.dateOperand_texts.1
  -- One text holds what closes the part of the date and the operator: it is cut between them.
  have hbehind : Whole (words d [.text ((Form.datePart part).behind d ++
      (op.spelling ++ " " ++ d.dateOperand.1)), .value v, .text d.dateOperand.2]) := by
    rw [words, flatMap_chars_append (Form.isPlain_behind d _) hplain]
    exact whole_text (Form.leading_datePart d part) hcomparison
  have hcolumn := c.stands_append hbehind
  rw [fragments_datePart]
  obtain h | h := Form.opening_before d part
  · rw [h]
    exact hcolumn
  · exact hcolumn.text h

theorem stands (c : Column) (t : Test) : Stands d (t.fragments d c) := by
  cases t with
  | compare op v => exact stands_compare c op v
  | between low high negated => exact stands_between c low high negated
  | oneOf vs negated => exact stands_oneOf c vs negated
  | isNull negated => exact stands_isNull c negated
  | datePart part op v => exact stands_datePart c part op v

end Test

theorem Fragment.Stands.inParentheses {fs : List Fragment} (h : Stands d fs) :
    Stands d (.text "(" :: fs ++ [.text ")"]) :=
  (h.append (trails_texts d ")" (by simp))).text (opening_texts d _ (by decide))

namespace Condition

mutual

theorem stands : ∀ c : Condition, c.isHollow = false → Stands d (c.fragments d)
  | test _ c t, _ => t.stands c
  | group _ members, h => (stands_level members h).inParentheses

theorem stands_level : ∀ cs : List Condition, allHollow cs = false →
    Stands d (levelFragments d true cs)
  | [], h => nomatch h
  | c :: rest, h => by
    rw [levelFragments]
    rw [allHollow] at h
    split
    · next hc =>
      rw [hc, Bool.true_and] at h
      exact stands_level rest h
    · next hc => exact (stands c (by simpa using hc)).append (trails_level rest)

theorem trails_level : ∀ cs : List Condition, Trails d (levelFragments d false cs)
  | [] => .nil
  | c :: rest => by
    have hrest := trails_level rest
    rw [levelFragments]
    split
    · exact hrest
    · next hc =>
      have hlink : Link (chars d (.text (" " ++ c.connective.keyword ++ " "))) :=
        link_of_mem (by cases c.connective <;> decide) d
      exact Trails.append (.text hlink (stands c (by simpa using hc))) hrest

end

theorem trails_where (cs : List Condition) : Trails d (whereFragments d cs) := by
  unfold whereFragments
  split
  · exact .nil
  · next h => exact .text (link_of_mem (by decide) d) (stands_level cs (by simpa using h))

end Condition

namespace Select

theorem stands_body (q : Select) : Stands d (q.bodyFragments d) := by
  have hitems : Stands d (.text "select " :: SelectItem.listFragments q.items) :=
    (SelectItem.list_stands q.items).text (opening_texts d _ (by decide))
  have htable : Trails d [.text " from ", .name q.table] :=
    .text (link_of_mem (by decide) d) (.operand rfl)
  have hjoins : Trails d (q.joins.flatMap Join.fragments) := .flatMap fun j _ => j.trails
  have hlimit : Trails d (countFragments " limit " q.limit) := 
    trails_count (link_of_mem (by decide) d) (by decide) q.limit
  have hoffset : Trails d (countFragments " offset " q.offset) := 
    trails_count (link_of_mem (by decide) d) (by decide) q.offset
  exact (((((hitems.append htable).append hjoins).append (Condition.trails_where q.conditions)).append
    (SortKey.trails q.sortKeys)).append hlimit).append hoffset

mutual

theorem stands : ∀ q : Select, Stands d (q.fragments d)
  | ⟨dialect, table, items, joins, conditions, sortKeys, unionSortKeys, unions, limit, offset⟩ => by
    have hbody := stands_body (d := d) ⟨dialect, table, items, joins, conditions, sortKeys,
      unionSortKeys, unions, limit, offset⟩
    have hmembers := trails_members unions
    unfold fragments
    split
    · exact hbody
    · exact (hbody.inParentheses.append hmembers).append (SortKey.trails unionSortKeys)

theorem trails_members : ∀ members : List (UnionType × Select), Trails d (memberFragments d members)
  | [] => .nil
  | (type, member) :: rest => by
    have hclosed := (stands member).append (trails_texts d ")" (by simp))
    have hlink : Link (chars d (.text (unionText type))) :=
      link_of_mem (by cases type <;> decide) d
    cases type <;> exact Trails.append (.text hlink hclosed) (trails_members rest)

end

end Select

end EntityQuery
