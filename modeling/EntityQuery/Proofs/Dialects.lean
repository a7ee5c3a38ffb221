import EntityQuery.Proofs.UnionTexts

namespace EntityQuery

namespace Fragment

def isOperand : Fragment → Bool
  | value _ | fault _ => true
  | text _ | name _ => false

/-- The values of fragments and the faults among them. -/
def operands (fs : List Fragment) : List Fragment := fs.filter isOperand

variable {fs : List Fragment}

@[simp] theorem operands_nil : operands [] = [] := rfl

@[simp] theorem operands_text (s : String) : operands (.text s :: fs) = operands fs := rfl

@[simp] theorem operands_name (s : String) : operands (.name s :: fs) = operands fs := rfl

@[simp] theorem operands_fault (e : RenderFault) : operands (.fault e :: fs) = .fault e :: operands fs :=
  rfl

@[simp] theorem operands_value (v : Value) : operands (.value v :: fs) = .value v :: operands fs := by
  cases v <;> rfl

@[simp] theorem operands_append (fs gs : List Fragment) :
    operands (fs ++ gs) = operands fs ++ operands gs := List.filter_append ..

theorem operands_flatMap {α : Type} (f : α → List Fragment) (xs : List α) :
    operands (xs.flatMap f) = xs.flatMap fun x => operands (f x) := by
  induction xs with
  | nil => rfl
  | cons x rest ih => rw [List.flatMap_cons, operands_append, ih, List.flatMap_cons]

theorem operands_intercalate {α : Type} (s : String) (f : α → List Fragment) (xs : List α) :
    operands ([.text s].intercalate (xs.map f)) = xs.flatMap fun x => operands (f x) := by
  cases xs with
  | nil => rfl
  | cons x rest =>
    rw [intercalate_map_cons, operands_append, operands_flatMap, List.flatMap_cons]
    rfl

theorem operands_section {α : Type} (opening s : String) (f : α → List Fragment) (xs : List α) :
    operands (sectionFragments opening s f xs) = xs.flatMap fun x => operands (f x) := by
  cases xs with
  | nil => rfl
  | cons x rest => exact operands_intercalate s f (x :: rest)

/-- The first fault of a list of fragments, or the values that they bind. -/
def outcome (fs : List Fragment) : Except RenderFault (List Value) :=
  match fs.findSome? fault? with
  | some e => .error e
  | none => .ok ((fs.filterMap scalar?).map .scalar)

theorem findSome?_operands (fs : List Fragment) :
    (operands fs).findSome? fault? = fs.findSome? fault? := by
  induction fs with
  | nil => rfl
  | cons f rest ih =>
    match f with
    | .fault e | .value (.list _) => rfl
    | .text _ | .name _ | .value (.scalar _) => exact ih

theorem scalars_operands (fs : List Fragment) :
    (operands fs).filterMap scalar? = fs.filterMap scalar? := by
  induction fs with
  | nil => rfl
  | cons f rest ih =>
    match f with
    | .value (.scalar s) => exact congrArg (s :: ·) ih
    | .fault _ | .value (.list _) | .text _ | .name _ => exact ih

theorem outcome_operands (fs : List Fragment) : outcome (operands fs) = outcome fs := by
  unfold outcome
  rw [findSome?_operands, scalars_operands]

end Fragment

open Fragment

theorem Statement.bindings_ofFragments (d : Dialect) (fs : List Fragment) :
    (ofFragments d .placeholders fs).map bindings = outcome fs := by
  unfold outcome
  cases hfault : fs.findSome? fault? with
  | some e => rw [ofFragments_of_fault hfault]; rfl
  | none => rw [ofFragments_of_sound hfault]; rfl

theorem Column.operands_fragments (c : Column) : operands c.fragments = [] := by
  obtain ⟨_ | table, name⟩ := c <;> rfl

def SelectItem.operands : SelectItem → List Fragment
  | attributes => [.fault .unresolvedAttributes]
  | all | allOf _ | column .. => []

theorem SelectItem.operands_fragments (item : SelectItem) :
    Fragment.operands item.fragments = item.operands := by
  cases item with
  | column c label =>
    cases label with
    | none => exact c.operands_fragments
    | some label =>
      rw [fragments, operands_append, c.operands_fragments]
      rfl
  | _ => rfl

theorem SelectItem.operands_list (items : List SelectItem) :
    Fragment.operands (listFragments items) = items.flatMap SelectItem.operands := by
  cases items with
  | nil => rfl
  | cons item rest =>
    have hlist := operands_intercalate ", " fragments (item :: rest)
    exact hlist.trans (List.flatMap_congr fun item _ => item.operands_fragments)

theorem JoinTest.operands_fragments (t : JoinTest) :
    operands t.fragments = t.boundValues.map .value := by
  cases t with
  | columns l r => simp [fragments, boundValues, Column.operands_fragments]
  | value c v => simp [fragments, boundValues, Column.operands_fragments]

theorem Join.operands_fragments (j : Join) : operands j.fragments = j.boundValues.map .value := by
  have hlabel : operands (labelFragments j.label) = [] := by
    cases j.label <;> rfl
  have htests : j.tests.flatMap (fun t => operands t.fragments) = j.boundValues.map .value := by
    unfold boundValues
    rw [List.map_flatMap]
    exact List.flatMap_congr fun t _ => t.operands_fragments
  rw [fragments_eq, operands_text, operands_append, operands_append, hlabel, operands_section, htests]
  rfl

variable (d : Dialect)

theorem Test.operands_compare (c : Column) (op : Operator) (v : Value) :
    operands ((compare op v).fragments d c) = (compare op v).boundValues.map .value := by
  unfold fragments boundValues
  split
  -- The other kinds of tests are no comparisons.
  all_goals try contradiction
  · next h =>
    cases h
    simp [Column.operands_fragments]
  · next h =>
    cases h
    simp [Column.operands_fragments]
  · next h =>
    cases h
    simp [Column.operands_fragments]
  · next h =>
    cases h
    split <;> simp_all [Column.operands_fragments]

theorem Test.operands_fragments (c : Column) (t : Test) :
    operands (t.fragments d c) = t.boundValues.map .value := by
  cases t with
  | compare op v => exact operands_compare d c op v
  | between low high negated => simp [fragments, boundValues, c.operands_fragments]
  | oneOf vs negated =>
    cases vs with
    | nil => rfl
    | cons v rest =>
      have hvalues : operands ([.text ", "].intercalate ((v :: rest).map fun v => [.value v])) =
          (v :: rest).map .value := by
        rw [operands_intercalate, List.map_eq_flatMap]
        exact List.flatMap_congr fun v _ => operands_value v
      unfold fragments boundValues
      rw [operands_append, operands_append, operands_append, c.operands_fragments, hvalues]
      exact List.append_nil _
  | isNull negated => simp [fragments, boundValues, c.operands_fragments]
  | datePart part op v => simp [fragments, boundValues, c.operands_fragments]

namespace Condition

mutual

theorem operands_fragments : ∀ c : Condition,
    operands (c.fragments d) = c.boundValues.map .value
  | test _ column t => t.operands_fragments d column
  | group _ members => by
    have hmembers := operands_level members true
    simpa [fragments, boundValues] using hmembers

theorem operands_level : ∀ (cs : List Condition) (first : Bool),
    operands (levelFragments d first cs) = (boundValuesAll cs).map .value
  | [], _ => rfl
  | c :: rest, first => by
    have hc := operands_fragments c
    have hrest (first : Bool) := operands_level rest first
    unfold levelFragments boundValuesAll
    split
    · next hhollow => rw [hrest, boundValues_of_isHollow c hhollow, List.nil_append]
    · rw [operands_append, operands_append, hc, hrest, List.map_append]
      cases first <;> rfl

end

theorem operands_where (cs : List Condition) :
    operands (whereFragments d cs) = (boundValuesAll cs).map .value := by
  unfold whereFragments
  split
  · next h => rw [boundValues_of_isHollow.boundValuesAll_of_allHollow cs h]; rfl
  · exact operands_level d cs true

end Condition

theorem SortKey.operands_list (keys : List SortKey) : operands (listFragments keys) = [] := by
  rw [listFragments_eq, operands_section]
  refine List.flatMap_eq_nil_iff.mpr fun k _ => ?_
  rw [fragments, operands_append, k.column.operands_fragments]
  rfl

theorem operands_count (keyword : String) (n : Option Nat) :
    operands (countFragments keyword n) = [] := by
  cases n <;> rfl

namespace Select

def bodyOperands (q : Select) : List Fragment :=
  q.items.flatMap SelectItem.operands ++
    (q.joins.flatMap Join.boundValues ++ Condition.boundValuesAll q.conditions).map .value

mutual

def operands : Select → List Fragment
  | q@{ unions, .. } => q.bodyOperands ++ memberOperands unions

def memberOperands : List (UnionType × Select) → List Fragment
  | [] => []
  | (_, member) :: rest => operands member ++ memberOperands rest

end

theorem operands_body (q : Select) : Fragment.operands (q.bodyFragments d) = q.bodyOperands := by
  have hjoins : Fragment.operands (q.joins.flatMap Join.fragments) =
      (q.joins.flatMap Join.boundValues).map .value := by
    rw [operands_flatMap, List.map_flatMap]
    exact List.flatMap_congr fun j _ => j.operands_fragments
  unfold bodyFragments bodyOperands
  simp [SelectItem.operands_list, hjoins, Condition.operands_where, SortKey.operands_list,
    operands_count]

mutual

/-- Every dialect writes the operands of a query in their order, among its own texts. -/
theorem operands_fragments : ∀ q : Select, Fragment.operands (q.fragments d) = q.operands
  | ⟨dialect, table, items, joins, conditions, sortKeys, unionSortKeys, unions, limit, offset⟩ => by
    have hbody := operands_body d ⟨dialect, table, items, joins, conditions, sortKeys,
      unionSortKeys, unions, limit, offset⟩
    have hmembers := operands_members unions
    unfold fragments operands
    split
    · next h =>
      obtain rfl := List.isEmpty_iff.mp h
      rw [hbody, memberOperands, List.append_nil]
    · simp [hbody, hmembers, SortKey.operands_list]

theorem operands_members : ∀ members : List (UnionType × Select),
    Fragment.operands (memberFragments d members) = memberOperands members
  | [] => rfl
  | (type, member) :: rest => by
    have hmember := operands_fragments member
    have hrest := operands_members rest
    unfold memberFragments memberOperands
    simp [hmember, hrest]

end

mutual

/-- The query with one dialect in the place of its own and of those of all members. -/
def recast (d : Dialect) : Select → Select
  | q@{ unions, .. } => { q with dialect := d, unions := recastMembers d unions }

def recastMembers (d : Dialect) : List (UnionType × Select) → List (UnionType × Select)
  | [] => []
  | (type, member) :: rest => (type, recast d member) :: recastMembers d rest

end

theorem bodyFragments_recast (e : Dialect) (q : Select) :
    (q.recast e).bodyFragments d = q.bodyFragments d := by
  cases q
  rfl

mutual

theorem fragments_recast (e : Dialect) : ∀ q : Select, (q.recast e).fragments d = q.fragments d
  | ⟨dialect, table, items, joins, conditions, sortKeys, unionSortKeys, unions, limit, offset⟩ => by
    have hbody := bodyFragments_recast d e ⟨dialect, table, items, joins, conditions, sortKeys,
      unionSortKeys, unions, limit, offset⟩
    have hmembers := memberFragments_recast e unions
    rw [recast] at hbody ⊢
    unfold fragments
    rw [hbody, hmembers]
    cases unions <;> rfl

theorem memberFragments_recast (e : Dialect) : ∀ members : List (UnionType × Select),
    memberFragments d (recastMembers e members) = memberFragments d members
  | [] => rfl
  | (type, member) :: rest => by
    have hmember := fragments_recast e member
    have hrest := memberFragments_recast e rest
    simp only [recastMembers, memberFragments, hmember, hrest]

end

theorem bindings_statement (q : Select) :
    (q.writtenIn d).statement.map Statement.bindings = outcome q.operands := by
  rw [statement_writtenIn, Statement.bindings_ofFragments, ← outcome_operands, operands_fragments]

/-- Two queries that differ in dialects only, their own and those of the members at any depth: written in
one dialect they make the same statement or have the same fault, and written in two they have the same
bindings or the same fault. -/
theorem dialects_agree {q q' : Select} (h : q.recast .mysql = q'.recast .mysql) :
    (∀ d, (q.writtenIn d).statement = (q'.writtenIn d).statement) ∧
      ∀ d d', (q.writtenIn d).statement.map Statement.bindings =
        (q'.writtenIn d').statement.map Statement.bindings := by
  have hsame (d : Dialect) : (q.writtenIn d).statement = (q'.writtenIn d).statement := by
    rw [statement_writtenIn, statement_writtenIn, ← fragments_recast d .mysql q, h,
      fragments_recast]
  refine ⟨hsame, fun d d' => ?_⟩
  rw [hsame d, bindings_statement, bindings_statement]

end Select

theorem Select.dialects_agree_sample :
    Sample.archived.recast .mysql = (Sample.archived.recast .sqlite).recast .mysql ∧
      (Sample.archived.writtenIn .postgres).statement =
        ((Sample.archived.recast .sqlite).writtenIn .postgres).statement ∧
      ∃ st st', Sample.archived.statement = .ok st ∧
        (Sample.archived.recast .sqlite).statement = .ok st' ∧
        st.sql ≠ st'.sql ∧ st.bindings = st'.bindings := by
  have hrecast : Sample.archived.recast .mysql = (Sample.archived.recast .sqlite).recast .mysql := rfl
  obtain ⟨hsame, hbindings⟩ := Select.dialects_agree hrecast
  exact ⟨hrecast, hsame .postgres, _, _, rfl, rfl, by decide +kernel,
    Except.ok.inj (hbindings .postgres .sqlite)⟩

end EntityQuery
