import EntityQuery.Error
import EntityQuery.Proofs.Dialects

namespace EntityQuery

inductive Offence where
  | marker
  | list
  deriving DecidableEq

def Offence.fault : Offence → RenderFault
  | marker => .unresolvedAttributes
  | list => .listParameter

theorem mapError_eq_error {ε ε' α : Type} {x : Except ε α} {f : ε → ε'} {e : ε'} :
    x.mapError f = .error e ↔ ∃ fault, x = .error fault ∧ f fault = e := by
  cases x <;> simp [Except.mapError]

theorem Offence.fault_injective : Function.Injective fault := by
  rintro (_ | _) (_ | _) h
  all_goals first | rfl | cases h

def SelectItem.offence? : SelectItem → Option Offence
  | attributes => some .marker
  | all | allOf _ | column .. => none

def Value.offence? : Value → Option Offence
  | .list _ => some .list
  | .scalar _ => none

/-- The values that a test names, whether it binds them or not. -/
def Test.values : Test → List Value
  | compare _ v | datePart _ _ v => [v]
  | between low high _ => [low, high]
  | oneOf vs _ => vs
  | isNull _ => []

namespace Condition

mutual

def tests : Condition → List Test
  | test _ _ t => [t]
  | group _ members => testsAll members

def testsAll : List Condition → List Test
  | [] => []
  | c :: rest => tests c ++ testsAll rest

end

end Condition

namespace Select

mutual

/-- A query and the members of its union, at any depth, in the order of the text. -/
def withMembers : Select → List Select
  | q@{ unions, .. } => q :: withMembersAll unions

def withMembersAll : List (UnionType × Select) → List Select
  | [] => []
  | (_, member) :: rest => withMembers member ++ withMembersAll rest

end

/-- What cannot be written of a query without its union, from left to right: of its select list, of its
joins, and of its where clause. -/
def offences (q : Select) : List Offence :=
  q.items.filterMap SelectItem.offence? ++
    ((q.joins.flatMap Join.boundValues).filterMap Value.offence? ++
      ((Condition.testsAll q.conditions).flatMap Test.values).filterMap Value.offence?)

end Select

inductive Test.HoldsList : Test → Prop
  | compare (op : Operator) (vs : List Value) : HoldsList (.compare op (.list vs))
  | datePart (part : DatePart) (op : Operator) (vs : List Value) :
    HoldsList (.datePart part op (.list vs))
  | low (vs : List Value) (high : Value) (negated : Bool) : HoldsList (.between (.list vs) high negated)
  | high (low : Value) (vs : List Value) (negated : Bool) : HoldsList (.between low (.list vs) negated)
  | element {values vs : List Value} (negated : Bool) (h : .list vs ∈ values) :
    HoldsList (.oneOf values negated)

def Select.Offends (q : Select) : Prop :=
  .attributes ∈ q.items ∨
  (∃ j ∈ q.joins, ∃ column vs, .value column (.list vs) ∈ j.tests) ∨
  ∃ t ∈ Condition.testsAll q.conditions, t.HoldsList

theorem SelectItem.offence?_eq_some {item : SelectItem} {o : Offence} :
    item.offence? = some o ↔ item = .attributes ∧ o = .marker := by
  cases item <;> simp [offence?, eq_comm]

theorem Value.offence?_eq_some {v : Value} {o : Offence} :
    v.offence? = some o ↔ (∃ vs, v = .list vs) ∧ o = .list := by
  cases v <;> simp [offence?, eq_comm]

theorem Test.holdsList_iff {t : Test} : t.HoldsList ↔ ∃ vs, .list vs ∈ t.values := by
  constructor
  · rintro (⟨_, vs⟩ | ⟨_, _, vs⟩ | ⟨vs⟩ | ⟨_, vs⟩ | @⟨_, vs, _, h⟩)
    case element => exact ⟨vs, h⟩
    all_goals exact ⟨vs, by simp [values]⟩
  · rintro ⟨vs, h⟩
    cases t with
    | compare op v =>
      obtain rfl := List.mem_singleton.mp h
      exact .compare op vs
    | between low high negated =>
      obtain rfl | h := List.mem_cons.mp h
      · exact .low vs high negated
      · obtain rfl := List.mem_singleton.mp h
        exact .high low vs negated
    | oneOf values negated => exact .element negated h
    | isNull negated => cases h
    | datePart part op v =>
      obtain rfl := List.mem_singleton.mp h
      exact .datePart part op vs

theorem Select.offends_iff (q : Select) : q.Offends ↔ ∃ o, o ∈ q.offences := by
  have hitems : .attributes ∈ q.items ↔ ∃ o, o ∈ q.items.filterMap SelectItem.offence? := by
    simp [SelectItem.offence?_eq_some]
  have hjoins : (∃ j ∈ q.joins, ∃ column vs, .value column (.list vs) ∈ j.tests) ↔
      ∃ o, o ∈ (q.joins.flatMap Join.boundValues).filterMap Value.offence? := by
    simp only [List.mem_filterMap, List.mem_flatMap, Value.offence?_eq_some]
    constructor
    · rintro ⟨j, hj, column, vs, ht⟩
      exact ⟨.list, .list vs, ⟨j, hj, List.mem_flatMap.mpr ⟨_, ht, List.mem_singleton_self _⟩⟩,
        ⟨vs, rfl⟩, rfl⟩
    · rintro ⟨-, -, ⟨j, hj, hv⟩, ⟨vs, rfl⟩, -⟩
      obtain ⟨t, ht, hv⟩ := List.mem_flatMap.mp hv
      cases t with
      | columns l r => cases hv
      | value column v =>
        obtain rfl := List.mem_singleton.mp hv
        exact ⟨j, hj, column, vs, ht⟩
  have htests : (∃ t ∈ Condition.testsAll q.conditions, t.HoldsList) ↔
      ∃ o, o ∈ ((Condition.testsAll q.conditions).flatMap Test.values).filterMap Value.offence? := by
    simp only [List.mem_filterMap, List.mem_flatMap, Value.offence?_eq_some, Test.holdsList_iff]
    constructor
    · rintro ⟨t, ht, vs, hv⟩
      exact ⟨.list, .list vs, ⟨t, ht, hv⟩, ⟨vs, rfl⟩, rfl⟩
    · rintro ⟨-, -, ⟨t, ht, hv⟩, ⟨vs, rfl⟩, -⟩
      exact ⟨t, ht, vs, hv⟩
  unfold Offends offences
  simp only [hitems, hjoins, htests, List.mem_append, exists_or]

open Fragment

theorem SelectItem.faults_operands (items : List SelectItem) :
    (items.flatMap operands).filterMap fault? = (items.filterMap offence?).map Offence.fault := by
  induction items with
  | nil => rfl
  | cons item rest ih =>
    rw [List.flatMap_cons, List.filterMap_append, ih]
    cases item <;> rfl

theorem Value.faults_value (vs : List Value) :
    (vs.map Fragment.value).filterMap fault? = (vs.filterMap offence?).map Offence.fault := by
  induction vs with
  | nil => rfl
  | cons v rest ih =>
    cases v with
    | scalar s => exact ih
    | list values => exact congrArg (.listParameter :: ·) ih

theorem Test.offences_boundValues (t : Test) :
    t.boundValues.filterMap Value.offence? = t.values.filterMap Value.offence? := by
  unfold boundValues
  split <;> rfl

namespace Condition

mutual

theorem offences_boundValues : ∀ c : Condition,
    c.boundValues.filterMap Value.offence? = (c.tests.flatMap Test.values).filterMap Value.offence?
  | test _ _ t => by
    rw [boundValues, tests, List.flatMap_singleton, t.offences_boundValues]
  | group _ members => offences_boundValuesAll members

theorem offences_boundValuesAll : ∀ cs : List Condition,
    (boundValuesAll cs).filterMap Value.offence? =
      ((testsAll cs).flatMap Test.values).filterMap Value.offence?
  | [] => rfl
  | c :: rest => by
    rw [boundValuesAll, testsAll, List.flatMap_append, List.filterMap_append, List.filterMap_append,
      offences_boundValues c, offences_boundValuesAll rest]

end

end Condition

namespace Select

theorem faults_bodyOperands (q : Select) :
    q.bodyOperands.filterMap fault? = q.offences.map Offence.fault := by
  unfold bodyOperands offences
  rw [List.filterMap_append, SelectItem.faults_operands, Value.faults_value, List.filterMap_append,
    Condition.offences_boundValuesAll, ← List.map_append]

mutual

theorem faults_operands : ∀ q : Select,
    q.operands.filterMap fault? = (q.withMembers.flatMap offences).map Offence.fault
  | ⟨dialect, table, items, joins, conditions, sortKeys, unionSortKeys, unions, limit, offset⟩ => by
    have hmembers := faults_memberOperands unions
    rw [operands, withMembers, List.filterMap_append, faults_bodyOperands, hmembers,
      List.flatMap_cons, List.map_append]

theorem faults_memberOperands : ∀ members : List (UnionType × Select),
    (memberOperands members).filterMap fault? =
      ((withMembersAll members).flatMap offences).map Offence.fault
  | [] => rfl
  | (_, member) :: rest => by
    rw [memberOperands, withMembersAll, List.filterMap_append, faults_operands member,
      faults_memberOperands rest, List.flatMap_append, List.map_append]

end

theorem statement_eq_error {q : Select} {d : Dialect} {e : RenderFault} :
    (q.writtenIn d).statement = .error e ↔
      ∃ o, (q.withMembers.flatMap offences).head? = some o ∧ o.fault = e := by
  have hfirst : (q.fragments d).findSome? fault? =
      (q.withMembers.flatMap offences).head?.map Offence.fault := by
    rw [← findSome?_operands, operands_fragments, ← List.head?_filterMap, faults_operands,
      List.head?_map]
  rw [statement_writtenIn]
  cases hoffences : (q.withMembers.flatMap offences).head? with
  | some o =>
    rw [Statement.ofFragments_of_fault (hfirst.trans (congrArg (Option.map Offence.fault) hoffences))]
    simp
  | none =>
    rw [Statement.ofFragments_of_sound (hfirst.trans (congrArg (Option.map Offence.fault) hoffences))]
    simp

/-- A query cannot be written in a dialect exactly if it or a member of its union offends. The error is
the one for the first offence, and so the marker is reported just where no list comes before it. -/
theorem statement_fails (q : Select) (d : Dialect) :
    ((∃ e, (q.writtenIn d).statement.mapError QueryError.render = .error e) ↔
      ∃ p ∈ q.withMembers, p.Offends) ∧
    (∀ e, (q.writtenIn d).statement.mapError QueryError.render = .error e ↔
      ∃ o, (q.withMembers.flatMap offences).head? = some o ∧ e = .render o.fault) ∧
    ((q.writtenIn d).statement.mapError QueryError.render = .error (.render .unresolvedAttributes) ↔
      (q.withMembers.flatMap offences).head? = some .marker) := by
  have herror (e : QueryError) : (q.writtenIn d).statement.mapError QueryError.render = .error e ↔
      ∃ o, (q.withMembers.flatMap offences).head? = some o ∧ e = .render o.fault := by
    rw [mapError_eq_error]
    simp only [statement_eq_error]
    constructor
    · rintro ⟨-, ⟨o, ho, rfl⟩, rfl⟩
      exact ⟨o, ho, rfl⟩
    · rintro ⟨o, ho, rfl⟩
      exact ⟨o.fault, ⟨o, ho, rfl⟩, rfl⟩
  refine ⟨?_, herror, ?_⟩
  · simp only [herror, offends_iff]
    constructor
    · rintro ⟨-, o, ho, -⟩
      obtain ⟨p, hp, ho⟩ := List.mem_flatMap.mp (List.mem_of_head? ho)
      exact ⟨p, hp, o, ho⟩
    · rintro ⟨p, hp, o, ho⟩
      have hne := List.ne_nil_of_mem (List.mem_flatMap.mpr ⟨p, hp, ho⟩)
      exact ⟨_, _, List.head?_eq_some_head hne, rfl⟩
  · rw [herror]
    constructor
    · rintro ⟨o, ho, he⟩
      rw [ho]
      exact congrArg some (Offence.fault_injective (QueryError.render.inj he).symm)
    · exact fun ho => ⟨.marker, ho, rfl⟩

end Select

namespace Sample

def unwritable : Select where
  dialect := .sqlite
  table := "products"
  conditions := [.group .and [.test .and (.bare "size") (.between (.int 1) (.list []) false)]]
  unions := [(.all, { dialect := .mysql, table := "more", items := [.all, .attributes] })]

end Sample

/-- The bound comes before the marker of the member, and a marker of the query before the bound. -/
theorem Select.statement_fails_sample :
    (Sample.unwritable.writtenIn .postgres).statement.mapError QueryError.render =
        .error (.render .listParameter) ∧
      (Select.writtenIn .mysql { Sample.unwritable with items := [.attributes] }).statement.mapError
          QueryError.render =
        .error (.render .unresolvedAttributes) := by
  obtain ⟨-, hunwritable, -⟩ := Select.statement_fails Sample.unwritable .postgres
  obtain ⟨-, -, hmarker⟩ :=
    Select.statement_fails { Sample.unwritable with items := [.attributes] } .mysql
  exact ⟨(hunwritable _).mpr ⟨.list, rfl, rfl⟩, hmarker.mpr rfl⟩

end EntityQuery
