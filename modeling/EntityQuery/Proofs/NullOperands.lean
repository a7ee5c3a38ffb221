import EntityQuery.Proofs.Passes
import EntityQuery.Proofs.Placeholders
import EntityQuery.Proofs.RenderFaults
import EntityQuery.Proofs.Runs

namespace EntityQuery

namespace Test

/-- Null is compared in the family of equality, which compares single values, and a part of a date is
compared with a single value that is not null. -/
def WellPosed : Test → Prop
  | compare op v =>
    (v = .null → op ∈ [.eq, .ne, .bangNe, .nullSafeEq]) ∧
      (op ∈ [.eq, .ne, .bangNe, .nullSafeEq] → v.isScalar = true)
  | datePart _ _ v => v ≠ .null ∧ v.isScalar = true
  | _ => True

/-- Of the comparisons only the null-safe equality binds a null. -/
def BindsNullSafely : Test → Prop
  | compare op v => .null ∈ (compare op v).boundValues → op = .nullSafeEq
  | datePart part op v => .null ∉ (datePart part op v).boundValues
  | _ => True

theorem mem_equality {op : Operator} :
    op ∈ [.eq, .ne, .bangNe, .nullSafeEq] ↔ op.isEquality = true := by
  cases op <;> decide

theorem comparison_eq_ok {op : Operator} {v : Value} {t : Test} (h : comparison op v = .ok t) :
    t = compare op v ∧ t.WellPosed := by
  unfold comparison at h
  split at h
  · cases h
  · next hnull =>
    split at h
    · cases h
    · next hlist =>
      cases h
      refine ⟨rfl, ?_, ?_⟩
      · rintro rfl
        exact mem_equality.mpr (by simpa [Value.isNull] using hnull)
      · intro hop
        simpa [mem_equality.mp hop] using hlist

theorem wellPosed_of_filter {f : Filter} {t : Test} (h : f.test = .ok t) : t.WellPosed := by
  have h := mapError_eq_ok.mp h
  cases f with
  | compare text v =>
    rw [Filter.resolve] at h
    split at h <;> exact (comparison_eq_ok h).2
  | between low high negated => cases h; trivial
  | oneOf values negated => cases h; trivial
  | isNull negated => cases h; trivial
  | datePart part text v =>
    rw [Filter.resolve] at h
    split at h
    · cases h
    · split at h
      · cases h
      · next hv =>
        cases h
        refine ⟨?_, by simp_all⟩
        rintro rfl
        exact hv rfl

theorem WellPosed.bindsNullSafely {t : Test} (h : t.WellPosed) : t.BindsNullSafely := by
  cases t with
  | compare op v =>
    intro hbound
    have hv : v = .null := by
      unfold boundValues at hbound
      split at hbound <;> simp_all
    subst hv
    have hop := h.1 rfl
    simp only [List.mem_cons, List.not_mem_nil, or_false] at hop
    obtain rfl | rfl | rfl | rfl := hop
    · cases hbound
    · cases hbound
    · cases hbound
    · rfl
  | datePart part op v => simpa [BindsNullSafely, boundValues, eq_comm] using h.1
  | between low high negated => trivial
  | oneOf values negated => trivial
  | isNull negated => trivial

end Test

theorem Builder.filter_of_no_operator (b : Builder) (k : Connective) (code : String) {text : String}
    (h : Operator.parse? text = none) (v : Value) :
    b.filter k code (.compare text v) =
      .ok { b with buffer := b.buffer.addTest k code (.compare .eq (.string text)) } := by
  have htest : (Filter.compare text v).test = .ok (.compare .eq (.string text)) := by
    rw [Filter.test, Filter.resolve, h]
    rfl
  rw [Builder.filter, htest]
  rfl

/-- The statement of a query is that of the base query that the pass leaves. -/
theorem Builder.base_statement_of_statement {b : Builder} {catalogs : Catalogs} {st : Statement}
    (h : (b.statement catalogs).1 = .ok st) : (b.process catalogs).2.1.base.statement = .ok st := by
  unfold statement at h
  generalize b.process catalogs = out at h ⊢
  obtain ⟨_ | _, b', c⟩ := out
  · cases h
  · exact mapError_eq_ok.mp h

namespace Condition

mutual

def leaves : Condition → List (Connective × Column × Test)
  | test k c t => [(k, c, t)]
  | group _ members => leavesAll members

def leavesAll : List Condition → List (Connective × Column × Test)
  | [] => []
  | c :: rest => leaves c ++ leavesAll rest

end

theorem leavesAll_group (k : Connective) (members : List Condition) :
    leavesAll [.group k members] = leavesAll members := List.append_nil _

theorem leavesAll_append (cs cs' : List Condition) :
    leavesAll (cs ++ cs') = leavesAll cs ++ leavesAll cs' := by
  induction cs with
  | nil => rfl
  | cons c rest ih => rw [List.cons_append, leavesAll, leavesAll, ih, List.append_assoc]

end Condition

namespace Select

def leaves (q : Select) : List (Connective × Column × Test) :=
  q.withMembers.flatMap fun p => Condition.leavesAll p.conditions

theorem leaves_eq (q : Select) : q.leaves = Condition.leavesAll q.conditions ++
    (withMembersAll q.unions).flatMap fun p => Condition.leavesAll p.conditions := by
  cases q
  rw [leaves, withMembers, List.flatMap_cons]

theorem withMembersAll_append (members members' : List (UnionType × Select)) :
    withMembersAll (members ++ members') = withMembersAll members ++ withMembersAll members' := by
  induction members with
  | nil => rfl
  | cons member rest ih => rw [List.cons_append, withMembersAll, withMembersAll, ih, List.append_assoc]

theorem mem_leaves_addUnion {q member : Select} {type : UnionType}
    {leaf : Connective × Column × Test} :
    leaf ∈ (q.addUnion type member).leaves ↔ leaf ∈ q.leaves ∨ leaf ∈ member.leaves := by
  have hmember : member.leaves =
      (withMembersAll [(type, member)]).flatMap fun p => Condition.leavesAll p.conditions := by
    simp [leaves, withMembersAll]
  rw [hmember, leaves_eq, leaves_eq, addUnion, withMembersAll_append, List.flatMap_append]
  simp only [List.mem_append, or_assoc]

end Select

mutual

def Step.leaves : Step → List (Connective × Column × Test)
  | .filterColumn k column f =>
    match Column.parse column, f.test with
    | .ok c, .ok t => [(k, c, t)]
    | _, _ => []
  | .group _ body | .fold _ _ _ body | .union _ _ _ body => leavesAll body
  | _ => []

def Step.leavesAll : List Step → List (Connective × Column × Test)
  | [] => []
  | x :: rest => Step.leaves x ++ leavesAll rest

end

namespace Request

mutual

/-- The tests that a request asks for, at any depth. The clauses that a group has of its own are not
among them. -/
def asked : Request → List Test
  | test _ _ t => [t]
  | group _ _ { buffer := { requests, .. }, .. } => askedAll requests

def askedAll : List Request → List Test
  | [] => []
  | r :: rest => asked r ++ askedAll rest

end

theorem askedAll_append (rs rs' : List Request) :
    askedAll (rs ++ rs') = askedAll rs ++ askedAll rs' := by
  induction rs with
  | nil => rfl
  | cons r rest ih => rw [List.cons_append, askedAll, askedAll, ih, List.append_assoc]

theorem askedAll_group (k : Connective) (codes : CodeSet) (q : Builder) :
    askedAll [.group k codes q] = askedAll q.buffer.requests := by
  obtain ⟨_, _, ⟨⟩⟩ := q
  exact List.append_nil _

end Request

/-- Where the clauses of a query come from, `P` being a property of clauses that what may be asked has:
what it asks may be asked, and the clauses that it has, or would have after a pass, have the property. -/
structure Builder.Written (P : Connective × Column × Test → Prop) (b : Builder) : Prop where
  base : ∀ leaf ∈ b.base.leaves, P leaf
  asked : ∀ t ∈ Request.askedAll b.buffer.requests, t.WellPosed
  requests : ∀ col, ∀ leaf ∈ Condition.leavesAll (Request.imageAll col b.buffer.requests), P leaf

namespace Builder

variable {P : Connective × Column × Test → Prop} {b b' child : Builder}

theorem Written.of_eq (h : b.Written P) (hconditions : b'.base.conditions = b.base.conditions)
    (hunions : b'.base.unions = b.base.unions)
    (hrequests : b'.buffer.requests = b.buffer.requests) : b'.Written P where
  base leaf hleaf := h.base leaf
    (by rwa [Select.leaves_eq, ← hconditions, ← hunions, ← Select.leaves_eq])
  asked := hrequests ▸ h.asked
  requests := hrequests ▸ h.requests

theorem Written.conditions (h : b.Written P) :
    ∀ leaf ∈ Condition.leavesAll b.base.conditions, P leaf :=
  fun leaf hleaf => h.base leaf (by rw [Select.leaves_eq]; exact List.mem_append_left _ hleaf)

theorem Written.add (h : b.Written P) (added : List Condition)
    (hadded : ∀ leaf ∈ Condition.leavesAll added, P leaf)
    (hconditions : b'.base.conditions = b.base.conditions ++ added)
    (hunions : b'.base.unions = b.base.unions)
    (hrequests : b'.buffer.requests = b.buffer.requests) : b'.Written P where
  base leaf hleaf := by
    rw [Select.leaves_eq, hconditions, hunions, Condition.leavesAll_append] at hleaf
    have hbase := h.base leaf
    rw [Select.leaves_eq] at hbase
    grind
  asked := hrequests ▸ h.asked
  requests := hrequests ▸ h.requests

theorem Written.ask (h : b.Written P) {r : Request}
    (hasked : ∀ t ∈ Request.askedAll [r], t.WellPosed)
    (hleaves : ∀ col, ∀ leaf ∈ Condition.leavesAll (Request.imageAll col [r]), P leaf)
    (hbase : b'.base = b.base) (hrequests : b'.buffer.requests = b.buffer.requests ++ [r]) :
    b'.Written P where
  base := hbase ▸ h.base
  asked t ht := by
    rw [hrequests, Request.askedAll_append] at ht
    exact (List.mem_append.mp ht).elim (h.asked t) (hasked t)
  requests col leaf hleaf := by
    rw [hrequests, Request.imageAll_append, Condition.leavesAll_append] at hleaf
    exact (List.mem_append.mp hleaf).elim (h.requests col leaf) (hleaves col leaf)

theorem Written.filter (hP : ∀ k c t, t.WellPosed → P (k, c, t)) (h : b.Written P) {k : Connective}
    {code : String} {f : Filter} (hb : b.filter k code f = .ok b') : b'.Written P := by
  obtain ⟨t, ht, rfl⟩ := filter_eq_ok hb
  have ht := Test.wellPosed_of_filter ht
  refine h.ask (r := .test k code t) (fun t' ht' => ?_) (fun col leaf hleaf => ?_) rfl rfl
  · obtain rfl := List.mem_singleton.mp ht'
    exact ht
  · obtain rfl := List.mem_singleton.mp hleaf
    exact hP k (col code) t ht

theorem Written.addGroup (h : b.Written P) (hchild : child.Written P) (k : Connective) :
    (b.addGroup k child).Written P := by
  unfold Builder.addGroup
  split
  · refine h.ask (r := .group k child.buffer.referenced child) ?_
      (fun col leaf hleaf => ?_) rfl rfl
    · rw [Request.askedAll_group]
      exact hchild.asked
    · rw [Request.imageAll, Request.imageAll, Request.image_group, Condition.leavesAll_group,
        Condition.leavesAll_append] at hleaf
      exact (List.mem_append.mp hleaf).elim (hchild.conditions leaf) (hchild.requests col leaf)
  · split
    · exact h
    · refine h.add [.group k child.base.conditions] ?_ rfl rfl rfl
      rw [Condition.leavesAll_group]
      exact hchild.conditions

theorem Written.addSortKey (h : b.Written P) (scope : SortScope) (key : SortKey) :
    Written P { b with base := b.base.addSortKey scope key } := by
  cases scope <;> exact h.of_eq rfl rfl rfl

theorem Written.process (h : b.Written P) (catalogs : Catalogs) :
    (b.process catalogs).2.1.Written P := by
  unfold Builder.process
  split
  · exact h
  · cases hs : b.stage catalogs with
    | mk out catalogs' =>
      obtain e | _ | staged := out
      · exact h.of_eq rfl rfl rfl
      · exact h.of_eq rfl rfl rfl
      · obtain ⟨e, attributes, -, -, hstages⟩ := stages_of_stage (congrArg Prod.fst hs)
        have hleaves : ∀ leaf ∈ Condition.leavesAll staged.conditions, P leaf := by
          rw [hstages.conditions]
          exact h.requests _
        have hunions : (b.commit staged).base.unions = b.base.unions := by rw [base_commit]
        exact h.add _ hleaves (conditions_commit b staged) hunions rfl

theorem Written.union (h : b.Written P) {member : Builder} (hmember : member.Written P)
    {type : UnionType} {catalogs : Catalogs} (hb : (b.union type member catalogs).1 = .ok b') :
    b'.Written P := by
  obtain rfl := union_eq_ok hb
  refine ⟨fun leaf hleaf => ?_, h.asked, h.requests⟩
  obtain hleaf | hleaf := Select.mem_leaves_addUnion.mp hleaf
  · exact h.base leaf hleaf
  · exact (hmember.process catalogs).base leaf hleaf

theorem written_blank {q : Select} {entity : Option EntityContext} {naming : Naming}
    (h : ∀ leaf ∈ q.leaves, P leaf) : Written P { base := q, entity, buffer := {}, naming } :=
  ⟨h, by simp [Request.askedAll], by simp [Request.imageAll, Condition.leavesAll]⟩

theorem written_empty {d : Dialect} {table : String} {entity : Option EntityContext} {naming : Naming} :
    Written P { base := { dialect := d, table }, entity, buffer := {}, naming } :=
  written_blank (by simp [Select.leaves, Select.withMembers, Select.withMembersAll, Condition.leavesAll])

end Builder

namespace Session

variable {P : Connective × Column × Test → Prop}

theorem written_origin (origin : Origin) (naming : Option Naming) (b : Builder) :
    (origin.builder naming b).Written P := by
  cases origin <;> exact Builder.written_empty

mutual

theorem written_step (hP : ∀ k c t, t.WellPosed → P (k, c, t)) {s t : Session}
    (h : s.builder.Written P) :
    ∀ x : Step, (∀ leaf ∈ x.leaves, P leaf) → (step s x).after = .ok t → t.builder.Written P
  | .filter k code f, _, ht => h.filter hP (filter_of_step ht)
  | .filterColumn k column f, hx, ht => by
    obtain ⟨c, test, hc, htest, hb⟩ := Builder.filterColumn_eq_ok (filterColumn_of_step ht)
    have hleaf : P (k, c, test) := hx _ (by simp [Step.leaves, hc, htest])
    rw [hb]
    exact h.add [.test k c test] (by simpa [Condition.leavesAll, Condition.leaves]) rfl rfl rfl
  | .group k body, hx, ht => by
    obtain ⟨u, hu, rfl⟩ := eq_ok_of_map ht
    exact h.addGroup (written_run hP Builder.written_empty body hx hu) k
  | .fold k origin naming body, hx, ht => by
    obtain ⟨u, hu, rfl⟩ := eq_ok_of_map ht
    exact h.addGroup (written_run hP (written_origin origin naming s.builder) body hx hu) k
  | .union type origin naming body, hx, ht => by
    obtain ⟨u, hu, hb, -⟩ := union_of_step ht
    have hmember := written_run hP (written_origin origin naming s.builder) body hx hu
    exact h.union hmember hb
  | .sortByAttribute code direction, _, ht => by cases ht; exact h.of_eq rfl rfl rfl
  | .sortBy column direction, _, ht => by
    obtain ⟨c, hb⟩ := Builder.sortBy_eq_ok (sortBy_of_step ht)
    exact hb ▸ h.addSortKey _ _
  | .sortByTimestamp direction, _, ht => by
    obtain ⟨c, hb⟩ := Builder.sortByTimestamp_eq_ok (sortByTimestamp_of_step ht)
    exact hb ▸ h.addSortKey _ _
  | .select columns, _, ht => by
    obtain ⟨items, hb⟩ := Builder.select_eq_ok (select_of_step ht)
    rw [hb]
    exact h.of_eq rfl rfl rfl
  | .selectAttributes codes, _, ht => by cases ht; exact h.of_eq rfl rfl rfl
  | .limit n, _, ht => by cases ht; exact h.of_eq rfl rfl rfl
  | .offset n, _, ht => by cases ht; exact h.of_eq rfl rfl rfl
  | .restart, _, ht => by cases ht; exact Builder.written_empty
  | .rewrap, _, ht => by cases ht; exact Builder.written_blank h.base
  | .withEntity e, _, ht => by cases ht; exact h.of_eq rfl rfl rfl
  | .withNaming naming, _, ht => by cases ht; exact h.of_eq rfl rfl rfl
  | .register e a, _, ht => by cases ht; exact h
  | .process, _, ht => by cases ht; exact h.process s.catalogs
  | .statement, _, ht => by
    rw [builder_of_statement ht]
    exact h.process s.catalogs
  | .preview, _, ht => by cases ht; exact h
  | .insert rows, _, ht => by cases ht; exact h

theorem written_run (hP : ∀ k c t, t.WellPosed → P (k, c, t)) {s t : Session}
    (h : s.builder.Written P) :
    ∀ steps : List Step, (∀ leaf ∈ Step.leavesAll steps, P leaf) → (run s steps).2 = .ok t →
      t.builder.Written P
  | [], _, ht => by cases ht; exact h
  | x :: rest, hsteps, ht => by
    obtain ⟨u, hx, ht⟩ := run_cons_eq_ok.mp ht
    obtain ⟨hfirst, hrest⟩ := List.forall_mem_append.mp hsteps
    exact written_run hP (written_step hP h x hfirst hx) rest hrest ht

end

/-- Null is an operand only where a comparison with it was meant. Every predicate that is asked of an
attribute, at any depth of the groups, is one that may be asked, and a pass compiles it as it is; a text
that is no operator is a value, compared by equality. In the statement that a query makes, the clauses of
the query and of the members of its union are the clauses that the query began with, those that its script
writes for columns, or such compiled predicates: of the latter, only null-safe equalities bind a null. -/
theorem null_operands_of_run {q : Select} {entity : Option EntityContext} {naming : Naming} {c : Catalogs}
    {steps : List Step} {t : Session}
    (h : (run ⟨{ base := q, entity, buffer := {}, naming }, c⟩ steps).2 = .ok t) :
    (∀ test ∈ Request.askedAll t.builder.buffer.requests, test.WellPosed ∧ test.BindsNullSafely) ∧
    (∀ catalogs staged, (t.builder.stage catalogs).1 = .ok (some staged) →
      ∃ col, staged.conditions = Request.imageAll col t.builder.buffer.requests) ∧
    (∀ catalogs st, (t.builder.statement catalogs).1 = .ok st →
      st.bindings = (t.builder.process catalogs).2.1.base.boundValues ∧
      ∀ leaf ∈ (t.builder.process catalogs).2.1.base.leaves,
        leaf ∈ q.leaves ++ Step.leavesAll steps ∨
          leaf.2.2.WellPosed ∧ leaf.2.2.BindsNullSafely) ∧
    ∀ k code text v, Operator.parse? text = none →
      t.builder.filter k code (.compare text v) =
        .ok { t.builder with
          buffer := t.builder.buffer.addTest k code (.compare .eq (.string text)) } := by
  have hwritten : t.builder.Written fun leaf =>
      leaf ∈ q.leaves ++ Step.leavesAll steps ∨ leaf.2.2.WellPosed ∧ leaf.2.2.BindsNullSafely := by
    refine written_run (fun k c test htest => .inr ⟨htest, htest.bindsNullSafely⟩)
      (Builder.written_blank fun leaf hleaf => ?_) steps (fun leaf hleaf => ?_) h
    · exact .inl (List.mem_append_left _ hleaf)
    · exact .inl (List.mem_append_right _ hleaf)
  refine ⟨fun test htest => ?_, fun catalogs staged hstaged => ?_, fun catalogs st hst => ?_,
    fun k code text v htext => t.builder.filter_of_no_operator k code htext v⟩
  · exact ⟨hwritten.asked test htest, (hwritten.asked test htest).bindsNullSafely⟩
  · obtain ⟨e, attributes, -, -, hstages⟩ := Builder.stages_of_stage hstaged
    exact ⟨_, hstages.conditions⟩
  · have hbase := Builder.base_statement_of_statement hst
    exact ⟨((Select.phrase _ _).statement hbase).1, (hwritten.process catalogs).base⟩

end Session

namespace Sample

def comparing : List Step :=
  [.filter .and "color" (.compare "<=>" .null),
    .group .or [.filter .and "size" (.compare "L" .null), .filter .or "color" (.compare "<>" .null),
      .filterColumn .and "price" (.compare ">" .null)]]

end Sample

theorem Session.null_operands_of_run_sample :
    ∃ t st, (run ⟨.ofEntity .sqlite Sample.entity, Sample.catalogs⟩ Sample.comparing).2 = .ok t ∧
      (t.builder.statement Sample.catalogs).1 = .ok st ∧
      st.bindings = [.int 2, .int 3, .null, .null, .string "L"] ∧
      Step.leavesAll Sample.comparing = [(.and, .bare "price", .compare .gt .null)] ∧
      Operator.parse? "L" = none ∧
      (∀ test ∈ Request.askedAll t.builder.buffer.requests, test.WellPosed ∧ test.BindsNullSafely) ∧
      ∀ leaf ∈ (t.builder.process Sample.catalogs).2.1.base.leaves,
        leaf ∈ Select.leaves { dialect := .sqlite, table := "products" } ++
            Step.leavesAll Sample.comparing ∨
          leaf.2.2.WellPosed ∧ leaf.2.2.BindsNullSafely := by
  obtain ⟨t, ht⟩ : ∃ t, (run ⟨.ofEntity .sqlite Sample.entity, Sample.catalogs⟩ Sample.comparing).2 =
    .ok t := ⟨_, rfl⟩
  obtain ⟨hasked, -, hstatement, -⟩ := null_operands_of_run ht
  have hbindings : (t.builder.statement Sample.catalogs).1.toOption.map Statement.bindings =
      some [.int 2, .int 3, .null, .null, .string "L"] := by
    cases ht
    decide +kernel
  cases hst : (t.builder.statement Sample.catalogs).1 with
  | error e =>
    rw [hst] at hbindings
    cases hbindings
  | ok st =>
    rw [hst] at hbindings
    exact ⟨t, st, ht, hst, Option.some.inj hbindings, rfl, by decide +kernel, hasked,
      (hstatement _ st hst).2⟩

end EntityQuery
