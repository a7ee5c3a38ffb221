import EntityQuery.Proofs.Masking
import EntityQuery.Proofs.Passes
import EntityQuery.Proofs.Phrases

namespace EntityQuery

@[simp] theorem Value.masked_masked (v : Value) : v.masked.masked = v.masked := by
  obtain s | vs := v
  · cases s <;> rfl
  · rfl

@[simp] theorem Test.masked_masked (t : Test) : t.masked.masked = t.masked := by
  cases t <;> simp [masked]

/-- A text that is no operator is itself the value of an equality, and is masked as one. -/
def Filter.masked : Filter → Filter
  | compare text v =>
    match Operator.parse? text with
    | some _ => .compare text v.masked
    | none => .compare "=" (Value.string text).masked
  | between low high negated => .between low.masked high.masked negated
  | oneOf vs negated => .oneOf (vs.map Value.masked) negated
  | isNull negated => .isNull negated
  | datePart part text v => .datePart part text v.masked

def ColumnFilter.masked : ColumnFilter → ColumnFilter
  | compare text v => .compare text v.masked
  | oneOf vs => .oneOf (vs.map Value.masked)
  | isNull => .isNull

namespace Step

mutual

def masked : Step → Step
  | .filter k code f => .filter k code f.masked
  | .filterColumn k column f => .filterColumn k column f.masked
  | .group k body => .group k (maskedAll body)
  | .fold k origin naming body => .fold k origin naming (maskedAll body)
  | .union type origin naming body => .union type origin naming (maskedAll body)
  | .insert _ => .insert []
  | x => x

def maskedAll : List Step → List Step
  | [] => []
  | x :: rest => masked x :: maskedAll rest

end

end Step

theorem map_eq_map_cases {ε α β : Type} {x y : Except ε α} {f : α → β} (h : x.map f = y.map f) :
    (∃ e, x = .error e ∧ y = .error e) ∨ ∃ a b, x = .ok a ∧ y = .ok b ∧ f a = f b := by
  cases x <;> cases y <;> simp_all [Except.map]

theorem Test.comparison_masked (op : Operator) (v : Value) :
    comparison op v.masked = (comparison op v).map masked := by
  unfold comparison
  rw [v.isNull_masked, v.isScalar_masked]
  split
  · rfl
  · split <;> rfl

theorem Operator.parse?_equality : parse? "=" = some .eq := by decide +kernel

theorem Filter.test_masked (f : Filter) : f.masked.test.map Test.masked = f.test.map Test.masked := by
  unfold test
  cases f with
  | compare text v =>
    cases htext : Operator.parse? text with
    | none =>
      simp only [masked, resolve, htext, Operator.parse?_equality]
      rfl
    | some op =>
      simp only [masked, resolve, htext, Test.comparison_masked]
      cases Test.comparison op v with
      | error e => rfl
      | ok t => exact congrArg Except.ok t.masked_masked
  | between low high negated => exact congrArg Except.ok (Test.masked_masked (.between low high _))
  | oneOf vs negated => exact congrArg Except.ok (Test.masked_masked (.oneOf vs negated))
  | isNull negated => rfl
  | datePart part text v =>
    simp only [masked, resolve]
    cases Operator.parse? text with
    | none => rfl
    | some op =>
      simp only [v.isNull_masked, v.isScalar_masked]
      split
      · rfl
      · exact congrArg Except.ok (Test.masked_masked (.datePart part op v))

theorem ColumnFilter.test_masked (f : ColumnFilter) :
    f.masked.test.map Test.masked = f.test.map Test.masked := by
  cases f with
  | compare text v =>
    simp only [masked, test]
    cases Operator.parse text with
    | error e => rfl
    | ok op => exact congrArg Except.ok (Test.masked_masked (.compare op v))
  | oneOf vs => exact congrArg Except.ok (Test.masked_masked (.oneOf vs false))
  | isNull => rfl

namespace Builder

variable {b b' : Builder}

/-- A change of a query that goes the same way for another one behind the masks. -/
def Masks (g f : Builder → Except QueryError Builder) : Prop :=
  ∀ b b', b'.masked = b.masked → (g b').map masked = (f b).map masked

theorem masks_of_comm {f : Builder → Except QueryError Builder}
    (h : ∀ b, f b.masked = (f b).map masked) : Masks f f := by
  intro b b' hb
  rw [← h b', ← h b, hb]

theorem masks_filter (k : Connective) (code : String) (f : Filter) :
    Masks (·.filter k code f.masked) (·.filter k code f) := by
  intro b b' hb
  unfold filter
  obtain ⟨e, h', h⟩ | ⟨t', t, h', h, ht⟩ := map_eq_map_cases f.test_masked
  · rw [h', h]
    rfl
  · rw [h', h]
    have hadd (b : Builder) (t : Test) :
        masked { b with buffer := b.buffer.addTest k code t } =
          { b.masked with buffer := b.masked.buffer.addTest k code t.masked } := by
      simp only [masked, Buffer.addTest_masked]
    exact congrArg Except.ok (by rw [hadd, hadd, hb, ht])

theorem masks_filterColumn (k : Connective) (column : String) (f : ColumnFilter) :
    Masks (·.filterColumn k column f.masked) (·.filterColumn k column f) := by
  intro b b' hb
  unfold filterColumn
  obtain ⟨e, h', h⟩ | ⟨t', t, h', h, ht⟩ := map_eq_map_cases f.test_masked
  · rw [h', h]
    rfl
  · rw [h', h]
    cases Column.parse column with
    | error e => rfl
    | ok c =>
      have hadd (b : Builder) (t : Test) :
          masked { b with base := b.base.addCondition (.test k c t) } =
            { b.masked with base := b.masked.base.addCondition (.test k c t.masked) } := by
        simp only [masked, Select.addCondition_masked]
        rfl
      exact congrArg Except.ok (by rw [hadd, hadd, hb, ht])

theorem addSortKey_masked (b : Builder) (scope : SortScope) (key : SortKey) :
    masked { b with base := b.base.addSortKey scope key } =
      { b.masked with base := b.masked.base.addSortKey scope key } := by
  simp only [masked, Select.addSortKey_masked]

theorem masks_sortBy (column : String) (direction : Direction) :
    Masks (·.sortBy column direction) (·.sortBy column direction) := by
  refine masks_of_comm fun b => ?_
  unfold sortBy
  cases Column.parse column with
  | error e => rfl
  | ok c =>
    have hscope : b.masked.base.sortScope = b.base.sortScope := b.base.sortScope_masked
    refine congrArg Except.ok ?_
    rw [addSortKey_masked, hscope]

theorem masks_sortByTimestamp (direction : Direction) :
    Masks (·.sortByTimestamp direction) (·.sortByTimestamp direction) := by
  refine masks_of_comm fun b => ?_
  unfold sortByTimestamp
  have hnaming : b.masked.naming = b.naming := rfl
  have hscope : b.masked.base.sortScope = b.base.sortScope := b.base.sortScope_masked
  have htable : b.masked.base.table = b.base.table := b.base.table_masked
  rw [hnaming, hscope, htable]
  cases Column.parse b.naming.timestampColumn with
  | error e => rfl
  | ok c => exact congrArg Except.ok (addSortKey_masked b _ _).symm

theorem masks_select (columns : List String) : Masks (·.select columns) (·.select columns) := by
  refine masks_of_comm fun b => ?_
  unfold select
  have hnaming : b.masked.naming = b.naming := rfl
  rw [hnaming]
  generalize List.mapM (m := Except QueryError) _ columns = items
  cases items with
  | error e => rfl
  | ok items =>
    obtain ⟨base, entity, buffer, index, phase, naming⟩ := b
    cases base
    rfl

theorem sortByAttribute_masked (b : Builder) (code : String) (direction : Direction) :
    (b.sortByAttribute code direction).masked = b.masked.sortByAttribute code direction := by
  simp only [sortByAttribute, masked, Buffer.addSort_masked, Select.sortScope_masked]

theorem selectAttributes_masked (b : Builder) (codes : List String) :
    (b.selectAttributes codes).masked = b.masked.selectAttributes codes := by
  obtain ⟨⟨⟩, entity, buffer, index, phase, naming⟩ := b
  rfl

theorem limit_masked (b : Builder) (n : Nat) : (b.limit n).masked = b.masked.limit n := by
  obtain ⟨⟨⟩, entity, buffer, index, phase, naming⟩ := b
  rfl

theorem offset_masked (b : Builder) (n : Nat) : (b.offset n).masked = b.masked.offset n := by
  obtain ⟨⟨⟩, entity, buffer, index, phase, naming⟩ := b
  rfl

theorem fresh_masked (b : Builder) : b.fresh.masked = b.masked.fresh := by
  simp only [fresh, masked, Select.fresh, Select.dialect_masked, Select.table_masked]
  rfl

theorem origin_masked (b : Builder) (origin : Origin) (naming : Option Naming) :
    (origin.builder naming b).masked = origin.builder naming b.masked := by
  cases origin with
  | fresh =>
    unfold Origin.builder
    simp only [← fresh_masked]
    rfl
  | _ => rfl

end Builder

namespace Session

variable {s s' : Session}

theorem masked_change {g f : Builder → Except QueryError Builder} (hf : Builder.Masks g f)
    (hs : s'.masked = s.masked) : (s'.change g).map masked = (s.change f).map masked := by
  obtain ⟨hb, hc⟩ := Session.mk.inj hs
  unfold change
  obtain ⟨e, h', h⟩ | ⟨a, b, h', h, hab⟩ := map_eq_map_cases (hf _ _ hb)
  · rw [h', h]
    rfl
  · rw [h', h]
    exact congrArg Except.ok (congrArg₂ Session.mk hab hc)

theorem masked_congr {F : Session → Session} (hF : ∀ s, (F s).masked = F s.masked)
    (hs : s'.masked = s.masked) : (F s').masked = (F s).masked := by
  rw [hF, hF, hs]

theorem masked_ok {F : Session → Session} (hF : ∀ s, (F s).masked = F s.masked)
    (hs : s'.masked = s.masked) :
    (Except.ok (F s') : Except QueryError Session).map masked = (Except.ok (F s)).map masked :=
  congrArg Except.ok (masked_congr hF hs)

theorem masked_builder {f : Builder → Builder} (hf : ∀ b, (f b).masked = f b.masked) (s : Session) :
    (s.withBuilder (f s.builder)).masked = s.masked.withBuilder (f s.masked.builder) :=
  congrArg (Session.mk · s.catalogs) (hf s.builder)

theorem masked_grouped {b b' : Builder} {d d' : Except QueryError Session}
    (hb : b'.masked = b.masked) (hd : d'.map masked = d.map masked) (k : Connective) :
    (d'.map (grouped b' k)).map masked = (d.map (grouped b k)).map masked := by
  obtain ⟨e, rfl, rfl⟩ | ⟨t', t, rfl, rfl, ht⟩ := map_eq_map_cases hd
  · rfl
  · have hgrouped (b : Builder) (t : Session) :
        (grouped b k t).masked = grouped b.masked k t.masked := by
      simp only [grouped, masked, Builder.addGroup_masked]
    exact congrArg Except.ok (by rw [hgrouped, hgrouped, hb, ht])

theorem masked_united {b b' : Builder} {d d' : Except QueryError Session}
    (hb : b'.masked = b.masked) (hd : d'.map masked = d.map masked) (type : UnionType) :
    (d' >>= united b' type).map masked = (d >>= united b type).map masked := by
  obtain ⟨e, rfl, rfl⟩ | ⟨t', t, rfl, rfl, ht⟩ := map_eq_map_cases hd
  · rfl
  · have hunited (b : Builder) (t : Session) :
        united b.masked type t.masked = (united b type t).map masked := by
      unfold united
      simp only [masked, Builder.union_masked]
      cases (b.union type t.builder t.catalogs).1 <;> rfl
    change (united b' type t').map masked = (united b type t).map masked
    rw [← hunited, ← hunited, hb, ht]

theorem masked_process (s : Session) :
    masked ⟨(s.builder.process s.catalogs).2.1, (s.builder.process s.catalogs).2.2⟩ =
      ⟨(s.masked.builder.process s.masked.catalogs).2.1,
        (s.masked.builder.process s.masked.catalogs).2.2⟩ := by
  simp only [masked, Builder.process_masked]

theorem masked_stage (s : Session) :
    masked { s with catalogs := (s.builder.stage s.catalogs).2 } =
      { s.masked with catalogs := (s.masked.builder.stage s.masked.catalogs).2 } := by
  simp only [masked, Builder.stage_masked]

mutual

theorem masked_step {s s' : Session} (hs : s'.masked = s.masked) :
    ∀ x : Step, (step s' x.masked).after.map masked = (step s x).after.map masked
  | .filter k code f => masked_change (Builder.masks_filter k code f) hs
  | .filterColumn k column f => masked_change (Builder.masks_filterColumn k column f) hs
  | .group k body => by
    have hdone := masked_run (masked_congr (masked_builder Builder.fresh_masked) hs) body
    exact masked_grouped (congrArg Session.builder hs) hdone k
  | .fold k origin naming body => by
    have hdone := masked_run
      (masked_congr (masked_builder fun b => b.origin_masked origin naming) hs) body
    exact masked_grouped (congrArg Session.builder hs) hdone k
  | .union type origin naming body => by
    have hdone := masked_run
      (masked_congr (masked_builder fun b => b.origin_masked origin naming) hs) body
    rw [Step.masked, step_union, step_union]
    exact masked_united (congrArg Session.builder hs) hdone type
  | .sortByAttribute code direction =>
    masked_ok (masked_builder fun b => b.sortByAttribute_masked code direction) hs
  | .sortBy column direction => masked_change (Builder.masks_sortBy column direction) hs
  | .sortByTimestamp direction => masked_change (Builder.masks_sortByTimestamp direction) hs
  | .select columns => masked_change (Builder.masks_select columns) hs
  | .selectAttributes codes =>
    masked_ok (masked_builder fun b => b.selectAttributes_masked codes) hs
  | .limit n => masked_ok (masked_builder fun b => b.limit_masked n) hs
  | .offset n => masked_ok (masked_builder fun b => b.offset_masked n) hs
  | .restart => masked_ok (masked_builder Builder.fresh_masked) hs
  | .rewrap => masked_ok (masked_builder (f := fun b => .ofSelect b.base) fun _ => rfl) hs
  | .withEntity e =>
    masked_ok (masked_builder (f := fun b => { b with entity := some e }) fun _ => rfl) hs
  | .withNaming naming =>
    masked_ok (masked_builder (f := fun b => { b with naming }) fun _ => rfl) hs
  | .register e a =>
    masked_ok (F := fun s => { s with catalogs := s.catalogs.register e a }) (fun _ => rfl) hs
  | .process => masked_ok masked_process hs
  | .statement => by
    have h := masked_congr masked_process hs
    rw [← Builder.statement_snd, ← Builder.statement_snd] at h
    exact congrArg Except.ok h
  | .preview => masked_ok masked_stage hs
  | .insert _ => congrArg Except.ok hs

theorem masked_run {s s' : Session} (hs : s'.masked = s.masked) :
    ∀ steps : List Step,
      (run s' (Step.maskedAll steps)).2.map masked = (run s steps).2.map masked
  | [] => congrArg Except.ok hs
  | x :: rest => by
    rw [Step.maskedAll]
    obtain ⟨e, h', h⟩ | ⟨t', t, h', h, ht⟩ := map_eq_map_cases (masked_step hs x)
    · rw [run_cons_error h', run_cons_error h]
    · rw [run_cons_ok h', run_cons_ok h]
      exact masked_run ht rest

end

end Session

def Fragment.masked : Fragment → Fragment
  | value v => value v.masked
  | f => f

def Statement.masked (st : Statement) : Statement :=
  { st with bindings := st.bindings.map Value.masked }

namespace Fragment

theorem masked_value (v : Value) : (value v.masked).masked = (value v).masked :=
  congrArg value v.masked_masked

theorem spell_masked (d : Dialect) (n : Nat) (fs : List Fragment) :
    spell d .placeholders n (fs.map masked) = spell d .placeholders n fs := by
  induction fs generalizing n with
  | nil => rfl
  | cons f rest ih =>
    cases f with
    | text s => exact congrArg (s.toList ++ ·) (ih n)
    | name s => exact congrArg (d.quote s.toList ++ ·) (ih n)
    | value v =>
      cases v with
      | scalar s => exact congrArg (d.placeholder (n + 1) ++ ·) (ih (n + 1))
      | list vs => exact ih n
    | fault e => exact ih n

theorem findSome?_fault_masked (fs : List Fragment) :
    (fs.map masked).findSome? fault? = fs.findSome? fault? := by
  rw [List.findSome?_map]
  congr 1
  funext f
  match f with
  | text _ | name _ | value (.scalar _) | value (.list _) | fault _ => rfl

theorem scalars_masked (fs : List Fragment) :
    (fs.map masked).filterMap scalar? = (fs.filterMap scalar?).map Scalar.masked := by
  rw [List.filterMap_map, List.map_filterMap]
  congr 1
  funext f
  match f with
  | text _ | name _ | value (.scalar _) | value (.list _) | fault _ => rfl

end Fragment

open Fragment

theorem Statement.ofFragments_masked (d : Dialect) (fs : List Fragment) :
    ofFragments d .placeholders (fs.map Fragment.masked) =
      (ofFragments d .placeholders fs).map masked := by
  have hmasked := findSome?_fault_masked fs
  cases hfault : fs.findSome? fault? with
  | some e =>
    rw [ofFragments_of_fault hfault, ofFragments_of_fault (hmasked.trans hfault)]
    rfl
  | none =>
    rw [ofFragments_of_sound hfault, ofFragments_of_sound (hmasked.trans hfault)]
    simp only [spell_masked, scalars_masked, Except.map, masked, List.map_map]
    rfl

theorem Test.fragments_masked (d : Dialect) (c : Column) (t : Test) :
    (t.masked.fragments d c).map Fragment.masked = (t.fragments d c).map Fragment.masked := by
  cases t with
  | compare op v =>
    -- Null is the only value that a comparison is written differently for.
    obtain s | vs := v
    · cases s <;> cases op <;> simp [masked, Value.masked, Scalar.masked, fragments, Fragment.masked]
    · cases op <;> simp [masked, Value.masked, fragments, Fragment.masked]
  | between low high negated =>
    simp only [masked, fragments, List.map_append, List.map_cons, masked_value]
  | oneOf vs negated =>
    cases vs with
    | nil => rfl
    | cons v rest =>
      simp only [masked, fragments, List.map_cons, intercalate_cons, List.map_append,
        List.map_flatMap, List.flatMap_map, List.map_nil, masked_value]
  | isNull negated => rfl
  | datePart part op v =>
    simp only [masked, fragments, List.map_append, List.map_cons, masked_value]

namespace Condition

mutual

theorem isHollow_masked : ∀ c : Condition, c.masked.isHollow = c.isHollow
  | test .. => rfl
  | group _ members => allHollow_masked members

theorem allHollow_masked : ∀ cs : List Condition, allHollow (maskedAll cs) = allHollow cs
  | [] => rfl
  | c :: rest => by rw [maskedAll, allHollow, allHollow, isHollow_masked c, allHollow_masked rest]

end

variable (d : Dialect)

mutual

theorem fragments_masked : ∀ c : Condition,
    (c.masked.fragments d).map Fragment.masked = (c.fragments d).map Fragment.masked
  | test _ column t => t.fragments_masked d column
  | group _ members => by
    simp only [masked, fragments, List.map_append, List.map_cons,
      levelFragments_masked members true]

theorem levelFragments_masked : ∀ (cs : List Condition) (first : Bool),
    (levelFragments d first (maskedAll cs)).map Fragment.masked =
      (levelFragments d first cs).map Fragment.masked
  | [], _ => rfl
  | c :: rest, first => by
    rw [maskedAll, levelFragments, levelFragments, isHollow_masked c, connective_masked c]
    split
    · exact levelFragments_masked rest first
    · rw [List.map_append, List.map_append, fragments_masked c, levelFragments_masked rest false,
        List.map_append, List.map_append]

end

end Condition

namespace Select

variable (d : Dialect)

theorem bodyFragments_masked (q : Select) :
    (q.masked.bodyFragments d).map Fragment.masked = (q.bodyFragments d).map Fragment.masked := by
  have hwhere : (Condition.whereFragments d (Condition.maskedAll q.conditions)).map Fragment.masked =
      (Condition.whereFragments d q.conditions).map Fragment.masked := by
    unfold Condition.whereFragments
    rw [Condition.allHollow_masked]
    split
    · rfl
    · rw [List.map_cons, List.map_cons, Condition.levelFragments_masked]
  cases q
  simp only [bodyFragments, masked, List.map_append, hwhere]

mutual

theorem fragments_masked : ∀ q : Select,
    (q.masked.fragments d).map Fragment.masked = (q.fragments d).map Fragment.masked
  | ⟨dialect, table, items, joins, conditions, sortKeys, unionSortKeys, unions, limit, offset⟩ => by
    have hbody := bodyFragments_masked d ⟨dialect, table, items, joins, conditions, sortKeys,
      unionSortKeys, unions, limit, offset⟩
    unfold masked at hbody ⊢
    unfold fragments
    cases unions with
    | nil => exact hbody
    | cons m rest =>
      have hmembers := memberFragments_masked (m :: rest)
      simp only [maskedMembers] at hbody hmembers ⊢
      simp only [List.isEmpty_cons, Bool.false_eq_true, if_false, List.map_append, List.map_cons,
        hbody, hmembers]

theorem memberFragments_masked : ∀ members : List (UnionType × Select),
    (memberFragments d (maskedMembers members)).map Fragment.masked =
      (memberFragments d members).map Fragment.masked
  | [] => rfl
  | (type, member) :: rest => by
    simp only [maskedMembers, memberFragments, List.map_append, List.map_cons,
      fragments_masked member, memberFragments_masked rest]

end

theorem statement_masked (q : Select) :
    q.masked.statement.map Statement.masked = q.statement.map Statement.masked := by
  unfold statement
  rw [dialect_masked, ← Statement.ofFragments_masked, ← Statement.ofFragments_masked,
    fragments_masked]

end Select

theorem Builder.statement_masked (b : Builder) (c : Catalogs) :
    (b.masked.statement c).1.map Statement.masked = (b.statement c).1.map Statement.masked := by
  have hrender (q : Select) :
      (q.masked.statement.mapError QueryError.render).map Statement.masked =
        (q.statement.mapError QueryError.render).map Statement.masked := by
    obtain ⟨e, h', h⟩ | ⟨a, b, h', h, hab⟩ := map_eq_map_cases q.statement_masked
    · rw [h', h]
    · rw [h', h]
      exact congrArg Except.ok hab
  unfold statement
  rw [process_masked]
  generalize b.process c = out
  obtain ⟨_ | _, b, c⟩ := out
  · rfl
  · exact hrender b.base

/-- Values never reach the text of a statement. Two scripts that differ only in the values of their
predicates, by values of the same kind and lists of the same length, fail with the same error, or else
their queries do when they are to be written, or the two statements have the same text and differ in
their bindings at most, where values of the same kind stand. -/
theorem Session.values_never_reach_text (s s' : Session) (steps steps' : List Step)
    (hs : s'.masked = s.masked) (h : Step.maskedAll steps' = Step.maskedAll steps) :
    (∀ v w : Value, v.masked = w.masked ↔ v.isNull = w.isNull ∧ v.isScalar = w.isScalar) ∧
    ((∃ e, (run s steps).2 = .error e ∧ (run s' steps').2 = .error e) ∨
      ∃ t t', (run s steps).2 = .ok t ∧ (run s' steps').2 = .ok t' ∧
        ((∃ e, (t.builder.statement t.catalogs).1 = .error e ∧
            (t'.builder.statement t'.catalogs).1 = .error e) ∨
          ∃ st st', (t.builder.statement t.catalogs).1 = .ok st ∧
            (t'.builder.statement t'.catalogs).1 = .ok st' ∧ st.sql = st'.sql ∧
            st.bindings.map Value.masked = st'.bindings.map Value.masked)) := by
  refine ⟨fun v w => Value.masked_eq_iff, ?_⟩
  have hrun : (run s steps).2.map masked = (run s' steps').2.map masked := by
    rw [← masked_run hs steps, ← h, masked_run rfl steps']
  obtain ⟨e, hr, hr'⟩ | ⟨t, t', hr, hr', ht⟩ := map_eq_map_cases hrun
  · exact .inl ⟨e, hr, hr'⟩
  · refine .inr ⟨t, t', hr, hr', ?_⟩
    obtain ⟨hbuilder, hcatalog⟩ := Session.mk.inj ht
    have hstatement : (t.builder.statement t.catalogs).1.map Statement.masked =
        (t'.builder.statement t'.catalogs).1.map Statement.masked := by
      rw [← Builder.statement_masked, hbuilder, hcatalog, Builder.statement_masked]
    obtain hfault | ⟨st, st', hst, hst', hmasked⟩ := map_eq_map_cases hstatement
    · exact .inl hfault
    · obtain ⟨hsql, hbindings⟩ := Statement.mk.inj hmasked
      exact .inr ⟨st, st', hst, hst', hsql, hbindings⟩

namespace Sample

def valued (color size after other : String) (limit : Int64) : List Step :=
  [.filter .and "color" (.compare "=" (.string color)),
    .group .or [.filter .and "size" (.oneOf [.string size, .null] false),
      .filterColumn .and "price" (.compare "<" (.int limit))],
    .filter .or "color" (.compare other .null),
    .filter .and "sku" (.datePart .year ">=" (.string after)),
    .union .all .fresh none [.filter .and "color" (.compare "like" (.string color))],
    .sortByAttribute "size" .desc]

def harmless : List Step := valued "red" "L" "2024" "blue" 10

def injected : List Step := valued "' or 1 = 1 --" "?" "$1" "null; --" 7

def unasked : Session := ⟨.ofEntity .postgres entity, catalogs⟩

theorem maskedAll_injected : Step.maskedAll injected = Step.maskedAll harmless := by
  have hlike : Operator.parse? "like" = some .like := by decide +kernel
  have hblue : Operator.parse? "blue" = none := by decide +kernel
  have hnull : Operator.parse? "null; --" = none := by decide +kernel
  simp only [injected, harmless, valued, Step.maskedAll, Step.masked, Filter.masked, hlike, hblue,
    hnull, Operator.parse?_equality]
  rfl

end Sample

theorem Session.values_never_reach_text_sample :
    Step.maskedAll Sample.injected = Step.maskedAll Sample.harmless ∧
      ∃ t t' st st', (run Sample.unasked Sample.harmless).2 = .ok t ∧
        (run Sample.unasked Sample.injected).2 = .ok t' ∧
        (t.builder.statement t.catalogs).1 = .ok st ∧
        (t'.builder.statement t'.catalogs).1 = .ok st' ∧ st.sql = st'.sql ∧
        st.bindings.map Value.masked = st'.bindings.map Value.masked := by
  have hwritten : ((run Sample.unasked Sample.harmless).2.toOption.any fun t =>
      (t.builder.statement t.catalogs).1.toOption.isSome) = true := by decide +kernel
  refine ⟨Sample.maskedAll_injected, ?_⟩
  obtain ⟨-, ⟨e, hrun, -⟩ | ⟨t, t', hrun, hrun', hstatement⟩⟩ :=
    values_never_reach_text Sample.unasked Sample.unasked Sample.harmless Sample.injected rfl
      Sample.maskedAll_injected
  · rw [hrun] at hwritten
    cases hwritten
  · obtain ⟨e, hfault, -⟩ | ⟨st, st', hst, hst', hsql, hbindings⟩ := hstatement
    · rw [hrun] at hwritten
      simp [Except.toOption, hfault] at hwritten
    · exact ⟨t, t', st, st', hrun, hrun', hst, hst', hsql, hbindings⟩

end EntityQuery
