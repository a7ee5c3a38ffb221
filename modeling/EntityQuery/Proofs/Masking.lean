import EntityQuery.Proofs.Runs

namespace EntityQuery

def Scalar.masked : Scalar → Scalar
  | null => null
  | _ => bool true

/-- A value of which only its kind is known: null, another scalar, or a list. -/
def Value.masked : Value → Value
  | .scalar s => .scalar s.masked
  | .list _ => .list []

theorem Value.masked_eq_iff {v w : Value} :
    v.masked = w.masked ↔ v.isNull = w.isNull ∧ v.isScalar = w.isScalar := by
  obtain s | vs := v <;> obtain t | ws := w
  · cases s <;> cases t <;> simp [masked, Scalar.masked, isNull, isScalar]
  · cases s <;> simp [masked, Scalar.masked, isScalar]
  · cases t <;> simp [masked, Scalar.masked, isScalar]
  · simp [masked, isNull, isScalar]

theorem Value.isNull_masked (v : Value) : v.masked.isNull = v.isNull := by
  obtain s | vs := v
  · cases s <;> rfl
  · rfl

theorem Value.isScalar_masked (v : Value) : v.masked.isScalar = v.isScalar := by
  obtain s | vs := v
  · cases s <;> rfl
  · rfl

def Test.masked : Test → Test
  | compare op v => .compare op v.masked
  | between low high negated => .between low.masked high.masked negated
  | oneOf vs negated => .oneOf (vs.map Value.masked) negated
  | isNull negated => .isNull negated
  | datePart part op v => .datePart part op v.masked

theorem Test.needsValue_masked (t : Test) : t.masked.needsValue = t.needsValue := by
  cases t with
  | compare op v =>
    obtain s | vs := v
    · cases s <;> cases op <;> rfl
    · cases op <;> rfl
  | _ => rfl

namespace Condition

mutual

def masked : Condition → Condition
  | test k c t => .test k c t.masked
  | group k members => .group k (maskedAll members)

def maskedAll : List Condition → List Condition
  | [] => []
  | c :: rest => masked c :: maskedAll rest

end

theorem maskedAll_eq_map (cs : List Condition) : maskedAll cs = cs.map masked := by
  induction cs with
  | nil => rfl
  | cons c rest ih => rw [maskedAll, ih, List.map_cons]

theorem maskedAll_append (cs ds : List Condition) :
    maskedAll (cs ++ ds) = maskedAll cs ++ maskedAll ds := by
  simp only [maskedAll_eq_map, List.map_append]

theorem isEmpty_maskedAll (cs : List Condition) : (maskedAll cs).isEmpty = cs.isEmpty := by
  cases cs <;> rfl

theorem connective_masked (c : Condition) : c.masked.connective = c.connective := by
  cases c <;> rfl

theorem connectives_maskedAll (cs : List Condition) :
    (maskedAll cs).map connective = cs.map connective := by
  rw [maskedAll_eq_map, List.map_map]
  exact List.map_congr_left fun c _ => connective_masked c

end Condition

mutual

def Select.masked : Select → Select
  | { dialect, table, items, joins, conditions, sortKeys, unionSortKeys, unions, limit, offset } =>
    { dialect, table, items, joins, conditions := Condition.maskedAll conditions, sortKeys,
      unionSortKeys, unions := Select.maskedMembers unions, limit, offset }

def Select.maskedMembers : List (UnionType × Select) → List (UnionType × Select)
  | [] => []
  | (type, member) :: rest => (type, member.masked) :: Select.maskedMembers rest

end

namespace Select

variable (q : Select)

theorem maskedMembers_append (ms ns : List (UnionType × Select)) :
    maskedMembers (ms ++ ns) = maskedMembers ms ++ maskedMembers ns := by
  induction ms with
  | nil => rfl
  | cons m rest ih =>
    rw [List.cons_append, maskedMembers, maskedMembers, ih, List.cons_append]

@[simp] theorem items_masked : q.masked.items = q.items := by cases q; rfl

@[simp] theorem table_masked : q.masked.table = q.table := by cases q; rfl

@[simp] theorem dialect_masked : q.masked.dialect = q.dialect := by cases q; rfl

@[simp] theorem conditions_masked : q.masked.conditions = Condition.maskedAll q.conditions := by
  cases q; rfl

@[simp] theorem sortScope_masked : q.masked.sortScope = q.sortScope := by
  obtain ⟨d, t, items, joins, cs, ks, us, ms, l, o⟩ := q
  cases ms <;> rfl

theorem addJoin_masked (j : Join) : (q.addJoin j).masked = q.masked.addJoin j := by cases q; rfl

theorem addCondition_masked (c : Condition) :
    (q.addCondition c).masked = q.masked.addCondition c.masked := by
  cases q
  simp only [addCondition, masked, Condition.maskedAll_append]
  rfl

theorem addSortKey_masked (scope : SortScope) (key : SortKey) :
    (q.addSortKey scope key).masked = q.masked.addSortKey scope key := by
  cases q
  cases scope <;> rfl

theorem addUnion_masked (type : UnionType) (member : Select) :
    (q.addUnion type member).masked = q.masked.addUnion type member.masked := by
  cases q
  simp only [addUnion, masked, maskedMembers_append]
  rfl

end Select

namespace Request

mutual

def masked : Request → Request
  | test k code t => .test k code t.masked
  | group k codes ⟨base, entity, ⟨hasConditions, referenced, requests, sorts⟩, index, phase, naming⟩ =>
    .group k codes ⟨base.masked, entity, ⟨hasConditions, referenced, maskedAll requests, sorts⟩, index,
      phase, naming⟩

def maskedAll : List Request → List Request
  | [] => []
  | r :: rest => r.masked :: maskedAll rest

end

end Request

def Buffer.masked (b : Buffer) : Buffer := { b with requests := Request.maskedAll b.requests }

def Builder.masked (b : Builder) : Builder :=
  { b with base := b.base.masked, buffer := b.buffer.masked }

namespace Request

theorem masked_group (k : Connective) (codes : CodeSet) (q : Builder) :
    (group k codes q).masked = .group k codes q.masked := by
  obtain ⟨_, _, ⟨⟩⟩ := q
  rfl

theorem maskedAll_eq_map (rs : List Request) : maskedAll rs = rs.map masked := by
  induction rs with
  | nil => rfl
  | cons r rest ih => rw [maskedAll, ih, List.map_cons]

theorem maskedAll_append (rs rs' : List Request) :
    maskedAll (rs ++ rs') = maskedAll rs ++ maskedAll rs' := by
  simp only [maskedAll_eq_map, List.map_append]

theorem connectives_maskedAll (rs : List Request) :
    (maskedAll rs).map connective = rs.map connective := by
  rw [maskedAll_eq_map, List.map_map]
  apply List.map_congr_left
  intro r _
  cases r with
  | test => rfl
  | group k codes q =>
    rw [Function.comp_apply, masked_group]
    rfl

mutual

/-- The joins that a predicate needs are the same behind a mask: null is what they go by. -/
theorem demand_masked (required : Bool) (types : JoinTypes) :
    ∀ r : Request, demand required types r.masked = demand required types r
  | .test k code t => by
    rw [masked, demand, demand, t.needsValue_masked]
  | .group k codes { buffer := { requests, .. }, .. } => by
    rw [masked, demand, demand, Select.conditions_masked, Condition.connectives_maskedAll,
      connectives_maskedAll]
    exact demandAll_masked _ types requests

theorem demandAll_masked (required : Bool) (types : JoinTypes) :
    ∀ rs : List Request, demandAll required types (maskedAll rs) = demandAll required types rs
  | [] => rfl
  | r :: rest => by
    rw [maskedAll, demandAll, demandAll, demand_masked required types r]
    exact demandAll_masked required _ rest

end

mutual

theorem compile_masked (schema : Schema) (rules : JoinRules) (s : JoinStage) :
    ∀ r : Request, compile schema rules s r.masked =
      (compile schema rules s r).map fun out => (out.1.masked, out.2)
  | .test k code t => by
    rw [masked, compile, compile]
    cases schema.column rules code s <;> rfl
  | .group k codes { buffer := { requests, .. }, .. } => by
    rw [masked, compile, compile, Select.conditions_masked,
      compileAll_masked schema rules s requests]
    cases compileAll schema rules s requests with
    | error e => rfl
    | ok out =>
      change Except.ok (Condition.group k (_ ++ _), out.2) = .ok (.group k _, out.2)
      rw [Condition.maskedAll_append]

theorem compileAll_masked (schema : Schema) (rules : JoinRules) (s : JoinStage) :
    ∀ rs : List Request, compileAll schema rules s (maskedAll rs) =
      (compileAll schema rules s rs).map fun out => (Condition.maskedAll out.1, out.2)
  | [] => rfl
  | r :: rest => by
    rw [maskedAll, compileAll, compileAll, compile_masked schema rules s r]
    cases compile schema rules s r with
    | error e => rfl
    | ok out =>
      change (compileAll schema rules out.2 (maskedAll rest) >>= _) = _
      rw [compileAll_masked schema rules out.2 rest]
      change _ = Except.map _ (compileAll schema rules out.2 rest >>= _)
      cases compileAll schema rules out.2 rest <;> rfl

end

end Request

def Staged.masked (staged : Staged) : Staged :=
  { staged with conditions := Condition.maskedAll staged.conditions }

namespace Buffer

variable (b : Buffer)

theorem hasConditions_masked : b.masked.hasConditions = b.hasConditions := rfl

theorem referenced_masked : b.masked.referenced = b.referenced := rfl

theorem requests_masked : b.masked.requests = Request.maskedAll b.requests := rfl

theorem sorts_masked : b.masked.sorts = b.sorts := rfl

theorem demand_masked (conditions : List Condition) :
    b.masked.demand (Condition.maskedAll conditions) = b.demand conditions := by
  unfold demand
  rw [requests_masked, Condition.connectives_maskedAll, Request.connectives_maskedAll,
    Request.demandAll_masked]

theorem addTest_masked (k : Connective) (code : String) (t : Test) :
    (b.addTest k code t).masked = b.masked.addTest k code t.masked := by
  simp only [addTest, masked, Request.maskedAll_append]
  rfl

theorem addGroup_masked (k : Connective) (q : Builder) :
    (b.addGroup k q).masked = b.masked.addGroup k q.masked := by
  simp only [addGroup, masked, Request.maskedAll_append, Request.maskedAll, Request.masked_group]
  rfl

theorem addSort_masked (sort : SortRequest) : (b.addSort sort).masked = b.masked.addSort sort := rfl

end Buffer

namespace Builder

variable (b : Builder)

theorem addGroup_masked (k : Connective) (child : Builder) :
    (b.addGroup k child).masked = b.masked.addGroup k child.masked := by
  unfold addGroup
  have hasked : child.masked.buffer.hasConditions = child.buffer.hasConditions :=
    child.buffer.hasConditions_masked
  have hconditions : child.masked.base.conditions = Condition.maskedAll child.base.conditions :=
    child.base.conditions_masked
  rw [hasked, hconditions, Condition.isEmpty_maskedAll]
  split
  · simp only [masked, Buffer.addGroup_masked]
  · split
    · rfl
    · simp only [masked, Select.addCondition_masked]
      rfl

theorem isPlain_masked : b.masked.isPlain = b.isPlain := by
  unfold isPlain masked
  simp only [Buffer.hasConditions_masked, Select.items_masked]

theorem neededCodes_masked (x : Expansion) : b.masked.neededCodes x = b.neededCodes x := by
  unfold neededCodes masked
  rw [Buffer.referenced_masked]

theorem joinTypes_masked (x : Expansion) (attributes : Attributes) :
    b.masked.joinTypes x attributes = b.joinTypes x attributes := by
  unfold joinTypes masked
  simp only [Select.conditions_masked, Buffer.demand_masked, Buffer.sorts_masked]

theorem stageWith_masked (x : Expansion) (schema : Schema) :
    b.masked.stageWith x schema = (b.stageWith x schema).map Staged.masked := by
  unfold stageWith
  rw [neededCodes_masked, joinTypes_masked]
  have hrequests : b.masked.buffer.requests = Request.maskedAll b.buffer.requests :=
    b.buffer.requests_masked
  have hsorts : b.masked.buffer.sorts = b.buffer.sorts := b.buffer.sorts_masked
  have hreferenced : b.masked.buffer.referenced = b.buffer.referenced := b.buffer.referenced_masked
  have hindex : b.masked.index = b.index := rfl
  have hnaming : b.masked.naming = b.naming := rfl
  rw [hrequests, hsorts, hreferenced, hindex, hnaming]
  split
  · rfl
  · simp only [Request.compileAll_masked]
    generalize Request.compileAll _ _ _ b.buffer.requests = compiled
    cases compiled with
    | error e => rfl
    | ok out =>
      change (SortRequest.compileAll _ _ out.2 b.buffer.sorts >>= _) =
        Except.map _ (SortRequest.compileAll _ _ out.2 b.buffer.sorts >>= _)
      cases SortRequest.compileAll _ _ out.2 b.buffer.sorts <;> rfl

theorem stage_masked (c : Catalogs) :
    b.masked.stage c = ((b.stage c).1.map (Option.map Staged.masked), (b.stage c).2) := by
  unfold stage
  have hitems : b.masked.base.items = b.base.items := b.base.items_masked
  have hentity : b.masked.entity = b.entity := rfl
  rw [isPlain_masked, hentity, hitems]
  split
  · rfl
  · cases b.entity with
    | none => rfl
    | some e =>
      simp only [neededCodes_masked, stageWith_masked]
      generalize c.load e _ = out
      obtain ⟨_ | schema, c'⟩ := out
      · rfl
      · refine congrArg (Prod.mk · c') ?_
        change some <$> Except.map Staged.masked _ = Except.map _ (some <$> _)
        cases b.stageWith _ schema <;> rfl

theorem commit_masked (staged : Staged) :
    (b.commit staged).masked = b.masked.commit staged.masked := by
  have hjoins (q : Select) (joins : List Join) :
      (joins.foldl Select.addJoin q).masked = joins.foldl Select.addJoin q.masked := by
    induction joins generalizing q with
    | nil => rfl
    | cons j rest ih => rw [List.foldl_cons, ih, Select.addJoin_masked, List.foldl_cons]
  have hconditions (q : Select) (cs : List Condition) :
      (cs.foldl Select.addCondition q).masked =
        (Condition.maskedAll cs).foldl Select.addCondition q.masked := by
    induction cs generalizing q with
    | nil => rfl
    | cons c rest ih =>
      rw [List.foldl_cons, ih, Select.addCondition_masked, Condition.maskedAll, List.foldl_cons]
  have hkeys (q : Select) (keys : List (SortScope × SortKey)) :
      (keys.foldl (fun q key => q.addSortKey key.1 key.2) q).masked =
        keys.foldl (fun q key => q.addSortKey key.1 key.2) q.masked := by
    induction keys generalizing q with
    | nil => rfl
    | cons key rest ih => rw [List.foldl_cons, ih, Select.addSortKey_masked, List.foldl_cons]
  have hitems : Select.masked { b.base with items := staged.items.getD b.base.items } =
      { b.base.masked with items := staged.items.getD b.base.masked.items } := by
    cases b.base
    rfl
  unfold commit
  simp only [masked, hkeys, hconditions, hjoins, hitems]
  rfl

theorem process_masked (c : Catalogs) :
    b.masked.process c = ((b.process c).1, (b.process c).2.1.masked, (b.process c).2.2) := by
  have hphase : b.masked.phase = b.phase := rfl
  unfold process
  rw [hphase, stage_masked]
  split
  · rfl
  · generalize b.stage c = out
    obtain ⟨_ | _ | staged, c'⟩ := out
    · rfl
    · rfl
    · have hcommit := congrArg (fun d : Builder => { d with phase := Phase.processed })
        (b.commit_masked staged).symm
      exact Prod.ext rfl (Prod.ext hcommit rfl)

theorem union_masked (type : UnionType) (member : Builder) (c : Catalogs) :
    b.masked.union type member.masked c =
      ((b.union type member c).1.map masked, (b.union type member c).2) := by
  unfold union
  rw [process_masked]
  generalize member.process c = out
  obtain ⟨_ | _, m, c'⟩ := out
  · rfl
  · simp only [Except.map, masked, Select.addUnion_masked]

end Builder

def Session.masked (s : Session) : Session := ⟨s.builder.masked, s.catalogs⟩

end EntityQuery
