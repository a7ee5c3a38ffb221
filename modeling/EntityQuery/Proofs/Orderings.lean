import EntityQuery.Proofs.FailedPasses
import EntityQuery.Proofs.PassOutcomes
import Mathlib.Data.List.TakeWhile

namespace EntityQuery

/-- What bears on the orderings of a query: a call for one, or a member of the union. A call for the
timestamp column comes with the text that stands for the column when the call is made. -/
inductive SortEvent where
  | byColumn (text : String) (direction : Direction)
  | byTimestamp (text : String) (direction : Direction)
  | byAttribute (code : String) (direction : Direction)
  | union

namespace Step

def sortEvent? (n : Naming) : Step → Option SortEvent
  | .sortBy text direction => some (.byColumn text direction)
  | .sortByTimestamp direction => some (.byTimestamp n.timestampColumn direction)
  | .sortByAttribute code direction => some (.byAttribute code direction)
  | .union .. => some .union
  | _ => none

def namingFrom (n : Naming) : Step → Naming
  | .withNaming m => m
  | _ => n

def sortEvents (n : Naming) : List Step → List SortEvent
  | [] => []
  | x :: rest => (x.sortEvent? n).toList ++ sortEvents (x.namingFrom n) rest

end Step

namespace SortEvent

def isUnion : SortEvent → Bool
  | union => true
  | _ => false

@[simp] theorem isUnion_union : union.isUnion = true := rfl

def onColumn : SortEvent → Bool
  | byColumn .. | byTimestamp .. => true
  | _ => false

def onAttribute : SortEvent → Bool
  | byAttribute .. => true
  | _ => false

/-- The calls that apply to a query itself are those before the first member of its union; the others
apply to the union. -/
def calls : SortScope → List SortEvent → List SortEvent
  | .own, events => events.takeWhile (!·.isUnion)
  | .union, events => (events.dropWhile (!·.isUnion)).filter (!·.isUnion)

/-- Calls in the order of their keys in the end: those for columns first. -/
def arrange (calls : List SortEvent) : List SortEvent :=
  calls.filter onColumn ++ calls.filter onAttribute

/-- The key that a call stands for, on a query on a table and with the given columns for attributes.
The timestamp column of the query's own rows is qualified, that of a union is as it was named. -/
def key? (scope : SortScope) (table : String) (col : String → Column) : SortEvent → Option SortKey
  | byColumn text direction => (Column.parse text).toOption.map (⟨·, direction⟩)
  | byTimestamp text direction =>
    (Column.parse text).toOption.map fun c =>
      match scope with
      | .own => ⟨.qualified (c.table.getD table) c.name, direction⟩
      | .union => ⟨c, direction⟩
  | byAttribute code direction => some ⟨col code, direction⟩
  | union => none

def request? (scope : SortScope) : SortEvent → Option SortRequest
  | byAttribute code direction => some { code, direction, scope }
  | _ => none

theorem calls_append (scope : SortScope) (l m : List SortEvent) :
    calls scope (l ++ m) = calls scope l ++ calls scope (l.filter isUnion ++ m) := by
  induction l with
  | nil => cases scope <;> simp [calls]
  | cons e rest ih =>
    cases he : e.isUnion with
    | true => cases scope <;> simp [calls, he]
    | false => cases scope <;> simpa [calls, he] using ih

theorem exists_mem_calls {e : SortEvent} {l : List SortEvent} (h : e ∈ l) (he : e.isUnion = false) :
    ∃ scope, e ∈ calls scope l := by
  rw [← List.takeWhile_append_dropWhile (p := (!·.isUnion)) (l := l)] at h
  obtain h | h := List.mem_append.mp h
  · exact ⟨.own, h⟩
  · exact ⟨.union, List.mem_filter.mpr ⟨h, by simp [he]⟩⟩

theorem filterMap_request? (scope : SortScope) (table : String) (col : String → Column)
    (l : List SortEvent) :
    (l.filterMap (request? scope)).map (fun r => some (SortRequest.image col r).2) =
      (l.filter onAttribute).map (key? scope table col) := by
  induction l with
  | nil => rfl
  | cons e rest ih =>
    cases e with
    | byAttribute code direction =>
      have hrequest : (byAttribute code direction).request? scope = some ⟨code, direction, scope⟩ := rfl
      rw [List.filterMap_cons_some hrequest, List.filter_cons_of_pos rfl, List.map_cons, List.map_cons,
        ih]
      rfl
    | byColumn | byTimestamp | union => exact ih

end SortEvent

namespace Select

def keysIn (q : Select) : SortScope → List SortKey
  | .own => q.sortKeys
  | .union => q.unionSortKeys

theorem keysIn_addSortKey (q : Select) (scope scope' : SortScope) (key : SortKey) :
    (q.addSortKey scope key).keysIn scope' =
      q.keysIn scope' ++ if scope' = scope then [key] else [] := by
  cases scope <;> cases scope' <;> simp [addSortKey, keysIn]

def sortEvents (q : Select) : List SortEvent := q.unions.map fun _ => .union

theorem filter_isUnion_sortEvents (q : Select) :
    q.sortEvents.filter SortEvent.isUnion = q.sortEvents := by
  rw [sortEvents, List.filter_eq_self]
  intro e he
  obtain ⟨member, -, rfl⟩ := List.mem_map.mp he
  rfl

theorem calls_sortEvents (q : Select) (scope : SortScope) (l : List SortEvent)
    (h : ∀ e ∈ l, e.isUnion = true) : SortEvent.calls scope (q.sortEvents ++ l) = [] := by
  have hall : ∀ e ∈ q.sortEvents ++ l, e.isUnion = true := by
    intro e he
    obtain he | he := List.mem_append.mp he
    · obtain ⟨member, -, rfl⟩ := List.mem_map.mp he
      rfl
    · exact h e he
  generalize q.sortEvents ++ l = events at hall
  cases scope with
  | own =>
    cases events with
    | nil => rfl
    | cons e rest => simp [SortEvent.calls, hall e]
  | union =>
    rw [SortEvent.calls, List.filter_eq_nil_iff]
    intro e he
    simp [hall e ((List.dropWhile_sublist _).mem he)]

theorem calls_sortEvents_call (q : Select) (scope : SortScope) {e : SortEvent}
    (h : e.isUnion = false) :
    SortEvent.calls scope (q.sortEvents ++ [e]) = if scope = q.sortScope then [e] else [] := by
  unfold sortEvents sortScope
  cases hu : q.unions with
  | nil => cases scope <;> simp [SortEvent.calls, h]
  | cons member rest =>
    cases scope with
    | own => rfl
    | union =>
      have hmarks : ((member :: rest).map fun _ => SortEvent.union).filter (!·.isUnion) = [] :=
        List.filter_eq_nil_iff.mpr fun e he => by
          obtain ⟨_, _, rfl⟩ := List.mem_map.mp he
          exact Bool.false_ne_true
      have hdrop : SortEvent.calls .union (((member :: rest).map fun _ => SortEvent.union) ++ [e]) =
          (((member :: rest).map fun _ => SortEvent.union) ++ [e]).filter (!·.isUnion) := rfl
      rw [hdrop, List.filter_append, hmarks, List.filter_cons_of_pos (by rw [h]; rfl)]
      rfl

end Select

/-- What events have done to the orderings of a query. Its union is such that later calls are seen alike
by the query and by the list of events. -/
structure Builder.Sorted (b : Builder) (events : List SortEvent) (t : Builder) : Prop where
  table : t.base.table = b.base.table
  phase : b.phase = .processed → t.phase = .processed
  unions : t.base.sortEvents = b.base.sortEvents ++ events.filter SortEvent.isUnion
  keys : ∀ scope col, (t.base.keysIn scope).map some = (b.base.keysIn scope).map some ++
    ((SortEvent.calls scope (b.base.sortEvents ++ events)).filter SortEvent.onColumn).map
      (SortEvent.key? scope b.base.table col)
  sorts : ∀ scope, t.buffer.sorts.filter (·.scope = scope) =
    b.buffer.sorts.filter (·.scope = scope) ++
      (SortEvent.calls scope (b.base.sortEvents ++ events)).filterMap (SortEvent.request? scope)

namespace Builder

variable {b m t : Builder} {events events' : List SortEvent}

theorem Sorted.of_eq (htable : t.base.table = b.base.table)
    (hphase : b.phase = .processed → t.phase = .processed) (hunions : t.base.unions = b.base.unions)
    (hown : t.base.sortKeys = b.base.sortKeys) (hunion : t.base.unionSortKeys = b.base.unionSortKeys)
    (hsorts : t.buffer.sorts = b.buffer.sorts) : Sorted b [] t where
  table := htable
  phase := hphase
  unions := by simp [Select.sortEvents, hunions]
  keys scope col := by
    have hkeys : t.base.keysIn scope = b.base.keysIn scope := by cases scope <;> assumption
    rw [hkeys, Select.calls_sortEvents _ _ _ (by simp)]
    simp
  sorts scope := by
    rw [hsorts, Select.calls_sortEvents _ _ _ (by simp)]
    simp

theorem calls_sorted (h : Sorted b events m) (scope : SortScope) :
    SortEvent.calls scope (b.base.sortEvents ++ (events ++ events')) =
      SortEvent.calls scope (b.base.sortEvents ++ events) ++
        SortEvent.calls scope (m.base.sortEvents ++ events') := by
  rw [← List.append_assoc, SortEvent.calls_append, List.filter_append,
    Select.filter_isUnion_sortEvents, h.unions]

theorem Sorted.trans (h : Sorted b events m) (h' : Sorted m events' t) :
    Sorted b (events ++ events') t where
  table := h'.table.trans h.table
  phase := h'.phase ∘ h.phase
  unions := by rw [h'.unions, h.unions, List.filter_append, List.append_assoc]
  keys scope col := by
    rw [h'.keys scope col, h.keys scope col, h.table, calls_sorted h, List.filter_append,
      List.map_append, List.append_assoc]
  sorts scope := by
    rw [h'.sorts scope, h.sorts scope, calls_sorted h, List.filterMap_append, List.append_assoc]

theorem Sorted.of_key {e : SortEvent} {key : SortKey} (he : e.onColumn = true)
    (hkey : ∀ col, e.key? b.base.sortScope b.base.table col = some key) :
    Sorted b [e] { b with base := b.base.addSortKey b.base.sortScope key } := by
  have hunion : e.isUnion = false ∧ ∀ scope, e.request? scope = none := by
    cases e <;> simp_all [SortEvent.onColumn, SortEvent.isUnion, SortEvent.request?]
  obtain ⟨hunion, hrequest⟩ := hunion
  refine ⟨?_, id, ?_, fun scope col => ?_, fun scope => ?_⟩
  · cases hs : b.base.sortScope <;> rfl
  · have hunions : (b.base.addSortKey b.base.sortScope key).unions = b.base.unions := by
      cases b.base.sortScope <;> rfl
    simp [Select.sortEvents, hunions, hunion]
  · rw [Select.calls_sortEvents_call _ _ hunion, Select.keysIn_addSortKey]
    by_cases hs : scope = b.base.sortScope
    · subst hs
      simp [he, hkey]
    · simp [hs]
  · rw [Select.calls_sortEvents_call _ _ hunion]
    split <;> simp [hrequest]

theorem Sorted.sortBy {text : String} {direction : Direction} (h : b.sortBy text direction = .ok t) :
    Sorted b [.byColumn text direction] t := by
  obtain ⟨c, hc, hb⟩ := bind_eq_ok.mp h
  cases hb
  refine .of_key rfl fun col => ?_
  simp [SortEvent.key?, mapError_eq_ok.mp hc, Except.toOption]

theorem Sorted.sortByTimestamp {direction : Direction} (h : b.sortByTimestamp direction = .ok t) :
    Sorted b [.byTimestamp b.naming.timestampColumn direction] t := by
  obtain ⟨c, hc, hb⟩ := bind_eq_ok.mp h
  cases hb
  refine .of_key rfl fun col => ?_
  have hc := mapError_eq_ok.mp hc
  obtain ⟨table, name⟩ := c
  cases hs : b.base.sortScope <;> cases table <;>
    simp [SortEvent.key?, hc, Except.toOption, Column.qualified]

theorem Sorted.sortByAttribute (b : Builder) (code : String) (direction : Direction) :
    Sorted b [.byAttribute code direction] (b.sortByAttribute code direction) := by
  refine ⟨rfl, id, by simp [Builder.sortByAttribute, SortEvent.isUnion], fun scope col => ?_,
    fun scope => ?_⟩
  · rw [Select.calls_sortEvents_call _ _ rfl]
    split <;> simp [Builder.sortByAttribute, SortEvent.onColumn]
  · rw [Select.calls_sortEvents_call _ _ rfl]
    by_cases hs : scope = b.base.sortScope
    · simp [Builder.sortByAttribute, Buffer.addSort, SortEvent.request?, hs]
    · simp [Builder.sortByAttribute, Buffer.addSort, hs, Ne.symm hs]

theorem Sorted.union {type : UnionType} {member : Builder} {catalogs : Catalogs}
    (h : (b.union type member catalogs).1 = .ok t) : Sorted b [.union] t := by
  obtain rfl := union_eq_ok h
  have hcalls (scope : SortScope) : SortEvent.calls scope (b.base.sortEvents ++ [.union]) = [] :=
    Select.calls_sortEvents _ _ _ (by simp)
  refine ⟨rfl, id, ?_, fun scope col => ?_, fun scope => ?_⟩
  · simp [Select.sortEvents, Select.addUnion, List.filter_cons]
  · rw [hcalls]
    cases scope <;> simp [Select.keysIn, Select.addUnion]
  · rw [hcalls]
    simp

theorem Sorted.addGroup (b : Builder) (k : Connective) (child : Builder) :
    Sorted b [] (b.addGroup k child) := by
  unfold Builder.addGroup
  split
  · exact .of_eq rfl id rfl rfl rfl rfl
  · split <;> exact .of_eq rfl id rfl rfl rfl rfl

theorem naming_addGroup (b : Builder) (k : Connective) (child : Builder) :
    (b.addGroup k child).naming = b.naming := by
  unfold Builder.addGroup
  split
  · rfl
  · split <;> rfl

theorem naming_process (b : Builder) (catalogs : Catalogs) :
    (b.process catalogs).2.1.naming = b.naming := by
  unfold process
  split
  · rfl
  · generalize b.stage catalogs = out
    obtain ⟨_ | _ | _, c⟩ := out <;> rfl

theorem sorted_process (b : Builder) (catalogs : Catalogs) :
    Sorted b [] (b.process catalogs).2.1 ∨
      b.phase ≠ .processed ∧ (b.process catalogs).2.1.phase = .processed := by
  unfold process
  split
  · exact .inl (.of_eq rfl id rfl rfl rfl rfl)
  · next hp =>
    generalize b.stage catalogs = out
    obtain ⟨e | _ | staged, c⟩ := out
    · exact .inl (.of_eq rfl (fun h => absurd h hp) rfl rfl rfl rfl)
    · exact .inr ⟨hp, rfl⟩
    · exact .inr ⟨hp, rfl⟩

theorem keysIn_commit (b : Builder) (staged : Staged) (scope : SortScope) :
    (b.commit staged).base.keysIn scope =
      b.base.keysIn scope ++ SortKey.inScope scope staged.sortKeys := by
  rw [base_commit]
  cases scope <;> rfl

/-- A pass that succeeds adds the orderings by attributes behind those that are there. -/
theorem keysIn_process {catalogs : Catalogs} (hb : b.Reachable) (hindex : b.index = ∅)
    (hphase : b.phase ≠ .processed) (hdone : (b.process catalogs).2.1.phase = .processed) :
    ∃ col : String → Column,
      (∀ scope, ((b.process catalogs).2.1.base.keysIn scope) = b.base.keysIn scope ++
        (b.buffer.sorts.filter (·.scope = scope)).map fun r => (r.image col).2) ∧
      ∀ r ∈ b.buffer.sorts, ∃ e attributes, b.entity = some e ∧
        catalogs.attributes? e = some attributes ∧ attributes.contains r.code = true ∧
        col r.code = b.naming.columnOf e attributes r.code := by
  cases hstage : b.stage catalogs with
  | mk out c =>
    have hout : (b.stage catalogs).1 = out := by rw [hstage]
    unfold process at hdone ⊢
    rw [if_neg hphase, hstage] at hdone ⊢
    obtain e | _ | staged := out
    · cases hdone
    · obtain ⟨-, hsorts, -⟩ : b.AsksNothing := ((stage_outcome hb catalogs).1).mp hout
      refine ⟨Column.bare, fun scope => ?_, ?_⟩ <;> simp [hsorts]
    · obtain ⟨e, attributes, he, ha, hknown, -, hkeys⟩ := staged_image hindex hout
      refine ⟨b.naming.columnOf e attributes, fun scope => ?_, fun r hr => ?_⟩
      · change (b.commit staged).base.keysIn scope = _
        rw [keysIn_commit, hkeys, SortKey.inScope, List.filter_map, List.map_map]
        rfl
      · exact ⟨e, attributes, he, ha,
          hknown r.code (List.mem_append_right _ (List.mem_map_of_mem hr)), rfl⟩

end Builder

namespace Session

variable {s t u : Session}

theorem builder_of_call {x : Step} (h : (step s x).after = .ok t) (hx : x.IsCall) :
    t.builder = (s.builder.process s.catalogs).2.1 := by
  cases x with
  | process =>
    cases h
    rfl
  | statement => exact builder_of_statement h
  | _ => exact hx.elim

theorem sorted_step {x : Step} (hx : x ≠ .restart ∧ x ≠ .rewrap) (h : (step s x).after = .ok t) :
    s.builder.Sorted (x.sortEvent? s.builder.naming).toList t.builder ∧
        t.builder.naming = x.namingFrom s.builder.naming ∨
      s.builder.phase ≠ .processed ∧ t.builder.phase = .processed := by
  obtain ⟨b, c⟩ := t
  cases x with
  | filter k code f =>
    obtain ⟨test, -, rfl⟩ := Builder.filter_eq_ok (filter_of_step h)
    exact .inl ⟨.of_eq rfl id rfl rfl rfl rfl, rfl⟩
  | filterColumn k column f =>
    obtain ⟨column, test, -, -, rfl⟩ := Builder.filterColumn_eq_ok (filterColumn_of_step h)
    exact .inl ⟨.of_eq rfl id rfl rfl rfl rfl, rfl⟩
  | group k body =>
    obtain ⟨v, -, hv⟩ := eq_ok_of_map h
    cases hv
    exact .inl ⟨.addGroup s.builder k v.builder, Builder.naming_addGroup ..⟩
  | fold k origin naming body =>
    obtain ⟨v, -, hv⟩ := eq_ok_of_map h
    cases hv
    exact .inl ⟨.addGroup s.builder k v.builder, Builder.naming_addGroup ..⟩
  | union type origin naming body =>
    obtain ⟨v, -, hb, -⟩ := union_of_step h
    exact .inl ⟨.union hb, by rw [Builder.union_eq_ok hb]; rfl⟩
  | sortByAttribute code direction =>
    cases h
    exact .inl ⟨.sortByAttribute s.builder code direction, rfl⟩
  | sortBy column direction =>
    have hb := sortBy_of_step h
    obtain ⟨key, rfl⟩ := Builder.sortBy_eq_ok hb
    exact .inl ⟨.sortBy hb, rfl⟩
  | sortByTimestamp direction =>
    have hb := sortByTimestamp_of_step h
    obtain ⟨key, rfl⟩ := Builder.sortByTimestamp_eq_ok hb
    exact .inl ⟨.sortByTimestamp hb, rfl⟩
  | select columns =>
    obtain ⟨items, rfl⟩ := Builder.select_eq_ok (select_of_step h)
    exact .inl ⟨.of_eq rfl id rfl rfl rfl rfl, rfl⟩
  | restart => exact absurd rfl hx.1
  | rewrap => exact absurd rfl hx.2
  | process | statement =>
    obtain rfl : b = _ := builder_of_call h trivial
    exact (s.builder.sorted_process s.catalogs).imp_left fun hs =>
      ⟨hs, s.builder.naming_process s.catalogs⟩
  | _ =>
    cases h
    exact .inl ⟨.of_eq rfl id rfl rfl rfl rfl, rfl⟩

theorem processed_of_run {steps : List Step} (hsteps : ∀ x ∈ steps, x ≠ .restart ∧ x ≠ .rewrap)
    (h : (run s steps).2 = .ok t) (hs : s.builder.phase = .processed) :
    t.builder.phase = .processed := by
  induction steps generalizing s with
  | nil =>
    cases h
    exact hs
  | cons x rest ih =>
    obtain ⟨u, hx, h⟩ := run_cons_eq_ok.mp h
    obtain ⟨hstep, hrest⟩ := List.forall_mem_cons.mp hsteps
    obtain ⟨hsorted, -⟩ | ⟨hphase, -⟩ := sorted_step hstep hx
    · exact ih hrest h (hsorted.phase hs)
    · exact absurd hs hphase

theorem sorted_run {steps : List Step} (hsteps : ∀ x ∈ steps, x ≠ .restart ∧ x ≠ .rewrap)
    (h : (run s steps).2 = .ok t) (ht : t.builder.phase ≠ .processed) :
    s.builder.Sorted (Step.sortEvents s.builder.naming steps) t.builder := by
  induction steps generalizing s with
  | nil =>
    cases h
    exact .of_eq rfl id rfl rfl rfl rfl
  | cons x rest ih =>
    obtain ⟨u, hx, h⟩ := run_cons_eq_ok.mp h
    obtain ⟨hstep, hrest⟩ := List.forall_mem_cons.mp hsteps
    obtain ⟨hsorted, hnaming⟩ | ⟨-, hphase⟩ := sorted_step hstep hx
    · rw [Step.sortEvents, ← hnaming]
      exact hsorted.trans (ih hrest h)
    · exact absurd (processed_of_run hrest h hphase) ht

/-- The orderings of a query when its attributes come to be processed, whatever was done to build it.
Each call stands in the list of what it applied to when it was made: the calls before the first member
of the union in the query's own list, the others in that of the union, and in both those for columns
stand in the order of the calls, followed by those for attributes. No call is left out, and there are no
keys but those of calls and those of the base query that building began with. -/
theorem orderings_of_run {base : Select} {entity : Option EntityContext} {naming : Naming} {c : Catalogs}
    {steps : List Step} {x : Step} (hsteps : ∀ y ∈ steps, y ≠ .restart ∧ y ≠ .rewrap)
    (hu : (run ⟨{ base, entity, buffer := {}, naming }, c⟩ steps).2 = .ok u)
    (hfirst : u.builder.phase ≠ .processed) (hx : x.IsCall) (ht : (step u x).after = .ok t)
    (hdone : t.builder.phase = .processed) :
    ∃ col : String → Column,
      (∀ scope, (t.builder.base.keysIn scope).map some = (base.keysIn scope).map some ++
        (SortEvent.arrange (SortEvent.calls scope
          (base.sortEvents ++ Step.sortEvents naming steps))).map
            (SortEvent.key? scope base.table col)) ∧
      ∀ code direction, .byAttribute code direction ∈ Step.sortEvents naming steps →
        ∃ e attributes, u.builder.entity = some e ∧
          u.catalogs.attributes? e = some attributes ∧ attributes.contains code = true ∧
          col code = u.builder.naming.columnOf e attributes code := by
  have hsorted : Builder.Sorted { base, entity, buffer := {}, naming }
      (Step.sortEvents naming steps) u.builder :=
    sorted_run hsteps hu hfirst
  have hreachable := reachable_of_run (Builder.reachable_blank base entity naming) hu
  have hindex := index_of_run rfl hu hfirst
  rw [builder_of_call ht hx] at hdone ⊢
  obtain ⟨col, hkeys, hknown⟩ := Builder.keysIn_process hreachable hindex hfirst hdone
  have hsorts (scope : SortScope) : u.builder.buffer.sorts.filter (·.scope = scope) =
      (SortEvent.calls scope (base.sortEvents ++ Step.sortEvents naming steps)).filterMap
        (SortEvent.request? scope) := hsorted.sorts scope
  refine ⟨col, fun scope => ?_, fun code direction hcall => ?_⟩
  · rw [hkeys, List.map_append, hsorted.keys scope col, hsorts, SortEvent.arrange, List.map_append,
      ← SortEvent.filterMap_request? scope base.table col, List.map_map, List.append_assoc]
    rfl
  · obtain ⟨scope, hscope⟩ := SortEvent.exists_mem_calls (List.mem_append_right base.sortEvents hcall) rfl
    have hr : { code, direction, scope } ∈ u.builder.buffer.sorts.filter (·.scope = scope) := by
      rw [hsorts]
      exact List.mem_filterMap.mpr ⟨_, hscope, rfl⟩
    exact hknown _ (List.mem_filter.mp hr).1

end Session

namespace Sample

def ordered : List Step :=
  [.sortByAttribute "color" .desc, .sortByTimestamp .desc, .union .all .fresh none [],
    .sortByAttribute "sku" .asc, .sortByTimestamp .asc, .sortBy "total" .asc]

end Sample

theorem Session.orderings_of_run_sample :
    (∀ y ∈ Sample.ordered, y ≠ .restart ∧ y ≠ .rewrap) ∧
      ∃ u t, (run Sample.start Sample.ordered).2 = .ok u ∧ u.builder.phase ≠ .processed ∧
        (step u .statement).after = .ok t ∧ t.builder.phase = .processed ∧
        ∃ col : String → Column,
          t.builder.base.sortKeys.map some =
            [some ⟨.qualified "products" "created_at", .desc⟩, some ⟨col "color", .desc⟩] ∧
          t.builder.base.unionSortKeys.map some =
            [some ⟨.bare "created_at", .asc⟩, some ⟨.bare "total", .asc⟩, some ⟨col "sku", .asc⟩] := by
  have hsteps : ∀ y ∈ Sample.ordered, y ≠ .restart ∧ y ≠ .rewrap := by simp [Sample.ordered]
  have hrun : ((run Sample.start Sample.ordered).2.toOption.any fun u =>
      u.builder.phase ≠ .processed && (step u .statement).after.toOption.any fun t =>
        t.builder.phase = .processed) = true := by decide +kernel
  cases hu : (run Sample.start Sample.ordered).2 with
  | error => simp [hu, Except.toOption] at hrun
  | ok u =>
    cases ht : (step u .statement).after with
    | error => simp [hu, ht, Except.toOption] at hrun
    | ok t =>
      obtain ⟨hfirst, hdone⟩ : u.builder.phase ≠ .processed ∧ t.builder.phase = .processed := by
        simpa [hu, ht, Except.toOption] using hrun
      have hcall : Step.IsCall .statement := trivial
      obtain ⟨col, hkeys, -⟩ := orderings_of_run hsteps hu hfirst hcall ht hdone
      exact ⟨hsteps, u, t, rfl, hfirst, ht, hdone, col, hkeys .own, hkeys .union⟩

end EntityQuery
