import EntityQuery.Proofs.CommittedJoins
import EntityQuery.Proofs.SelectLists

namespace EntityQuery

namespace Select

/-- The names of the tables that a query reads, the joined ones by their labels if they have any. -/
def sources (q : Select) : List String := q.table :: q.joins.map Join.reference

def InScope (q : Select) (c : Column) : Prop :=
  ∃ name, c.table = some name ∧ (name = q.table ∨ some name ∈ q.joins.map Join.label)

/-- Each column in scope belongs to exactly one of the tables that the query reads. -/
def Unambiguous (q : Select) : Prop :=
  ∀ c, q.InScope c → ∃ name, c.table = some name ∧ q.sources.count name = 1

theorem InScope.mem_sources {q : Select} {c : Column} (h : q.InScope c) :
    ∃ name ∈ q.sources, c.table = some name := by
  obtain ⟨name, hc, rfl | hlabel⟩ := h
  · exact ⟨q.table, by simp [sources], hc⟩
  · obtain ⟨j, hj, hl⟩ := List.mem_map.mp hlabel
    have href : j.reference = name := by simp [Join.reference, hl]
    exact ⟨name, List.mem_cons_of_mem _ (List.mem_map.mpr ⟨j, hj, href⟩), hc⟩

theorem unambiguous_of_nodup {q : Select} (h : q.sources.Nodup) : q.Unambiguous := by
  intro c hc
  obtain ⟨name, hname, htable⟩ := hc.mem_sources
  exact ⟨name, htable, List.count_eq_one_of_mem h hname⟩

end Select

def JoinTest.mentioned : JoinTest → List Column
  | columns left right => [left, right]
  | value column _ => [column]

namespace JoinStage

variable {rules : JoinRules} {earlier : List Join} {s t : JoinStage}

theorem map_label_retype (label : String) (type : JoinType) (joins : List Join) :
    (retype label type joins).map Join.label = joins.map Join.label := by
  induction joins with
  | nil => rfl
  | cons j rest ih =>
    unfold retype
    split
    · rfl
    · rw [List.map_cons, ih, List.map_cons]

/-- The columns known by a stage are those of joins, its own or earlier ones, and its joins mention the
base table and themselves only. -/
structure Scoped (rules : JoinRules) (earlier : List Join) (s : JoinStage) : Prop where
  index : ∀ code entity known, s.index.join? code entity = some known →
    ∃ name, known.column.table = some name ∧ some name ∈ (earlier ++ s.joins).map Join.label
  joins : ∀ j ∈ s.joins, j.label.isSome ∧ ∀ t ∈ j.tests, ∀ c ∈ t.mentioned,
    c.table = some rules.entity.table ∨ c.table = j.label

theorem Scoped.column (h : Scoped rules earlier s) (a : Attribute) :
    Scoped rules earlier (s.column rules a).2 := by
  unfold JoinStage.column
  obtain hs | ⟨id, code, table, storage, known, -, hj, -, hs⟩ |
    ⟨id, code, table, storage, -, -, hs⟩ := add_cases rules a (rules.types.type a.code) s
  · rwa [hs]
  · rw [hs]
    refine ⟨fun code' entity known' hk => ?_, fun j hm => ?_⟩
    · rw [List.map_append, map_label_retype, ← List.map_append]
      rw [JoinIndex.join?_put] at hk
      split at hk
      · cases hk
        exact h.index code _ known hj
      · exact h.index code' entity known' hk
    · obtain hm | ⟨k, hk, -, rfl⟩ := mem_retype hm
      · exact h.joins j hm
      · exact h.joins k hk
  · rw [hs]
    refine ⟨fun code' entity known' hk => ?_, fun j hm => ?_⟩
    · rw [JoinIndex.join?_put] at hk
      split at hk
      · cases hk
        exact ⟨rules.naming.label code, rfl, by simp [JoinRules.join]⟩
      · obtain ⟨name, hc, hname⟩ := h.index code' entity known' hk
        refine ⟨name, hc, ?_⟩
        rw [← List.append_assoc, List.map_append]
        exact List.mem_append_left _ hname
    · obtain hm | hm := List.mem_append.mp hm
      · exact h.joins j hm
      · obtain rfl := List.mem_singleton.mp hm
        exact ⟨rfl, by simp [JoinRules.join, JoinTest.mentioned, Column.qualified]⟩

theorem Reaches.scoped (h : Reaches rules s t) (hs : Scoped rules earlier s) :
    Scoped rules earlier t := by
  induction h with
  | refl => exact hs
  | tail _ hstep ih =>
    obtain ⟨a, rfl⟩ := hstep
    exact ih.column a

end JoinStage

namespace Builder

/-- What a pass stages refers to the query that it is committed to: the columns added to the select list,
the clauses of the predicates on attributes at any depth, the orderings, and the joins. Clauses that a
group brings along as its own are no work of the pass. -/
structure Scoped (b : Builder) (staged : Staged) : Prop where
  items : ∀ items, staged.items = some items → ∃ kept added,
    items = .allOf b.base.table :: kept ++ added ∧ (∀ i ∈ kept, i ∈ b.base.items) ∧
      ∀ i ∈ added, ∃ c code, i = .column c (some code) ∧ (b.commit staged).base.InScope c
  conditions : ∃ col, staged.conditions = Request.imageAll col b.buffer.requests ∧
    ∀ code ∈ Request.codesAll b.buffer.requests, (b.commit staged).base.InScope (col code)
  sortKeys : ∀ key ∈ staged.sortKeys, (b.commit staged).base.InScope key.2.column
  joins : ∀ j ∈ staged.joins, ∀ t ∈ j.tests, ∀ c ∈ t.mentioned,
    (b.commit staged).base.InScope c ∧ (c.table = some b.base.table ∨ c.table = j.label)

variable {b : Builder} {e : Entity} {catalogs : Catalogs} {staged : Staged}

def KnowsJoins (b : Builder) : Prop :=
  ∀ code entity known, b.index.join? code entity = some known →
    ∃ name, known.column.table = some name ∧ some name ∈ b.base.joins.map Join.label

theorem knowsJoins_of_index_empty (h : b.index = ∅) : b.KnowsJoins := by
  intro code entity known hk
  rw [h] at hk
  cases hk

theorem KnowsJoins.scoped (h : b.KnowsJoins) (rules : JoinRules) :
    JoinStage.Scoped rules b.base.joins { index := b.index } where
  index code entity known hk := by
    rw [List.append_nil]
    exact h code entity known hk
  joins _ hm := nomatch hm

theorem attributes_resolved {out : Option Staged} (h : (b.stage catalogs).1 = .ok out) :
    .attributes ∉ (out.elim b b.commit).base.items := by
  cases out with
  | none =>
    have hp : b.isPlain = true := by
      by_contra hp
      obtain ⟨staged, hout⟩ := exists_staged (by simpa using hp) h
      cases hout
    change .attributes ∉ b.base.items
    rw [← Expansion.isEvery_classify, Bool.not_eq_true]
    unfold isPlain at hp
    cases hx : Expansion.classify b.base.items with
    | every kept => simp [hx, Expansion.isUntouched, Expansion.isEvery] at hp
    | untouched => rfl
    | named codes kept => rfl
  | some staged =>
    obtain ⟨e, attributes, -, -, -, hj⟩ := joins_of_stage h
    change .attributes ∉ (b.commit staged).base.items
    rw [base_commit]
    obtain ⟨-, hkept⟩ | ⟨hasked, hnone⟩ := Expansion.kept?_eq b.base.items
    · rw [hj.items, show b.expansion.kept? = _ from hkept]
      simp [SelectItem.Stays]
    · rw [hj.items, show b.expansion.kept? = none from hnone]
      exact fun hm => hasked (.inl hm)

section Staging

variable {schema : Schema}
  (hstart : JoinStage.Scoped (b.rules schema) b.base.joins { index := b.index })
  (hj : b.Joins schema staged)

include hstart hj

theorem exists_join_of_asked {a : Attribute} (ha : a ∈ b.asked schema) (hd : a.isDynamic = true) :
    ∃ j ∈ (b.commit staged).base.joins, ∃ name, j.label = some name ∧
      ((b.rules schema).columnOf b.index a).table = some name := by
  have hreaches := JoinStage.Reaches.joinAll (b.rules schema) (b.asked schema) { index := b.index }
  have hknown := JoinStage.known_joinAll ha hd (b.rules schema) { index := b.index }
  rw [← hj.stage] at hreaches hknown
  rw [← hreaches.columnOf, base_commit]
  cases a with
  | static => cases hd
  | dynamic id code table storage =>
    obtain ⟨known, hk⟩ := Option.isSome_iff_exists.mp hknown
    obtain ⟨name, hname, hlabel⟩ := (hreaches.scoped hstart).index _ _ known hk
    obtain ⟨j, hm, hl⟩ := List.mem_map.mp hlabel
    simp only [Attribute.code] at hk
    exact ⟨j, hm, name, hl, by simpa [JoinRules.columnOf, hk] using hname⟩

variable (htable : b.base.table = schema.entity.table)

include htable

theorem inScope_of_asked {a : Attribute} (ha : a ∈ b.asked schema) :
    (b.commit staged).base.InScope ((b.rules schema).columnOf b.index a) := by
  cases a with
  | static code column storage =>
    rw [base_commit]
    exact ⟨schema.entity.table, rfl, .inl htable.symm⟩
  | dynamic id code table storage =>
    obtain ⟨j, hm, name, hl, hname⟩ := exists_join_of_asked hstart hj ha rfl
    exact ⟨name, hname, .inr (List.mem_map.mpr ⟨j, hm, hl⟩)⟩

theorem inScope_of_named {code : String} (hk : (schema.attributes.find? code).isSome)
    (hm : ∀ a ∈ schema.named [code], a ∈ b.asked schema) :
    (b.commit staged).base.InScope (schema.columnOf (b.rules schema) b.index code) := by
  obtain ⟨a, ha⟩ := Option.isSome_iff_exists.mp hk
  have hasked := hm a (List.mem_filterMap.mpr ⟨code, List.mem_singleton_self code, ha⟩)
  simpa [Schema.columnOf, ha] using inScope_of_asked hstart hj htable hasked

theorem items_inScope {items : List SelectItem} (h : staged.items = some items) :
    ∃ kept added, items = .allOf b.base.table :: kept ++ added ∧ (∀ i ∈ kept, i ∈ b.base.items) ∧
      ∀ i ∈ added, ∃ c code, i = .column c (some code) ∧ (b.commit staged).base.InScope c := by
  obtain ⟨-, hkept⟩ | ⟨-, hnone⟩ := Expansion.kept?_eq b.base.items
  · rw [hj.items, show b.expansion.kept? = _ from hkept, Option.map_some, ← htable] at h
    cases h
    refine ⟨_, _, rfl, fun i hi => (List.mem_filter.mp hi).1, fun i hi => ?_⟩
    obtain ⟨a, ha, rfl⟩ := List.mem_map.mp hi
    have hasked : a ∈ b.asked schema := List.mem_append_left _ (List.mem_append_left _ ha)
    exact ⟨_, _, rfl, inScope_of_asked hstart hj htable hasked⟩
  · rw [hj.items, show b.expansion.kept? = none from hnone] at h
    cases h

theorem joins_inScope {j : Join} (hm : j ∈ staged.joins) {t : JoinTest} (ht : t ∈ j.tests)
    {c : Column} (hc : c ∈ t.mentioned) :
    (b.commit staged).base.InScope c ∧ (c.table = some b.base.table ∨ c.table = j.label) := by
  have hreaches := JoinStage.Reaches.joinAll (b.rules schema) (b.asked schema) { index := b.index }
  rw [← hj.stage] at hreaches
  obtain ⟨hlabel, hmentioned⟩ := (hreaches.scoped hstart).joins j hm
  obtain ⟨label, hl⟩ := Option.isSome_iff_exists.mp hlabel
  have hown : c.table = some b.base.table ∨ c.table = j.label := by
    rw [htable]
    exact hmentioned t ht c hc
  refine ⟨?_, hown⟩
  rw [base_commit]
  obtain hbase | hjoin := hown
  · exact ⟨_, hbase, .inl rfl⟩
  · exact ⟨label, hjoin.trans hl, .inr (List.mem_map.mpr ⟨j, List.mem_append_right _ hm, hl⟩)⟩

end Staging

theorem scoped_of_stage {e : EntityContext} (he : b.entity = some e) (htable : b.base.table = e.table)
    (hb : b.KnowsJoins) (h : (b.stage catalogs).1 = .ok (some staged)) : b.Scoped staged := by
  obtain ⟨e', attributes, he', -, hs, hj⟩ := joins_of_stage h
  obtain rfl : e = e' := Option.some.inj (he.symm.trans he')
  have hstart := hb.scoped (b.rules (b.schema e attributes))
  have hnamed {codes : List String} {code : String} (hm : code ∈ codes) {a : Attribute}
      (ha : a ∈ (b.schema e attributes).named [code]) : a ∈ (b.schema e attributes).named codes :=
    (List.singleton_sublist.mpr hm).filterMap _ |>.subset ha
  refine ⟨fun items => items_inScope hstart hj htable, ⟨_, hs.conditions, fun code hm => ?_⟩,
    fun key hm => ?_, fun j hm t ht c hc => joins_inScope hstart hj htable hm ht hc⟩
  · exact inScope_of_named hstart hj htable (hs.requests code hm) fun a ha =>
      List.mem_append_left _ (List.mem_append_right _ (hnamed hm ha))
  · rw [hs.sortKeys] at hm
    obtain ⟨r, hr, rfl⟩ := List.mem_map.mp hm
    exact inScope_of_named hstart hj htable (hs.sorts r hr) fun a ha =>
      List.mem_append_right _ (hnamed (List.mem_map_of_mem hr) ha)

theorem KnowsJoins.commit (hb : b.KnowsJoins) (h : (b.stage catalogs).1 = .ok (some staged)) :
    (b.commit staged).KnowsJoins := by
  obtain ⟨e, attributes, -, -, hs⟩ := stages_of_stage h
  obtain ⟨s, hreaches, hjoins, hindex⟩ := hs.joins
  intro code entity known hk
  rw [base_commit, hjoins]
  change staged.index.join? code entity = some known at hk
  rw [hindex] at hk
  exact (hreaches.scoped (hb.scoped _)).index code entity known hk

theorem kept_knowsJoins : Builder.Kept KnowsJoins where
  blank _ _ _ := knowsJoins_of_index_empty rfl
  filter h hb := by obtain ⟨t, -, rfl⟩ := filter_eq_ok hb; exact h
  filterColumn h hb := by obtain ⟨c, t, -, -, rfl⟩ := filterColumn_eq_ok hb; exact h
  addGroup h _ := by
    unfold addGroup
    split
    · exact h
    · split <;> exact h
  union h _ hb := by cases union_eq_ok hb; exact h
  sortByAttribute h := h
  sortBy {b _ _ _} h hb := by
    obtain ⟨c, rfl⟩ := sortBy_eq_ok hb
    cases hs : b.base.sortScope <;> exact h
  sortByTimestamp {b _ _} h hb := by
    obtain ⟨c, rfl⟩ := sortByTimestamp_eq_ok hb
    cases hs : b.base.sortScope <;> exact h
  select h hb := by obtain ⟨items, rfl⟩ := select_eq_ok hb; exact h
  selectAttributes h := h
  limit h := h
  offset h := h
  withEntity h := h
  withNaming h := h
  process {b catalogs} h := by
    unfold process
    split
    · exact h
    · cases hs : b.stage catalogs with
      | mk out c =>
        obtain _ | _ | staged := out
        · exact h
        · exact h
        · exact h.commit (congrArg Prod.fst hs)

end Builder

namespace Session

variable {s t : Session} {e : EntityContext} {steps : List Step}

theorem onEntity_of_run (htable : s.builder.base.table = e.table)
    (he : ∃ e', s.builder.entity = some e' ∧ e'.table = e.table) (hsteps : .rewrap ∉ steps)
    (hentity : ∀ e', .withEntity e' ∈ steps → e'.table = e.table) (h : (s.run steps).2 = .ok t) :
    t.builder.base.table = e.table ∧
      ∃ e', t.builder.entity = some e' ∧ e'.table = e.table := by
  induction steps generalizing s with
  | nil =>
    cases h
    exact ⟨htable, he⟩
  | cons x rest ih =>
    obtain ⟨u, hx, h⟩ := run_cons_eq_ok.mp h
    have hmoves := moves_of_step (fun hr => hsteps (hr ▸ List.mem_cons_self)) hx
    refine ih (hmoves.table.trans htable) ?_ (fun hm => hsteps (List.mem_cons_of_mem _ hm))
      (fun e' hm => hentity e' (List.mem_cons_of_mem _ hm)) h
    obtain hsame | ⟨e', rfl, he'⟩ := hmoves.entity
    · obtain ⟨e', he, ht⟩ := he
      exact ⟨e', hsame.trans he, ht⟩
    · exact ⟨e', he', hentity e' List.mem_cons_self⟩

theorem nodup_references_of_run (hindex : s.builder.index = ∅) (hjoins : s.builder.base.joins = [])
    (hsteps : .rewrap ∉ steps) (h : (s.run steps).2 = .ok t) (hphase : t.builder.phase ≠ .processed)
    {staged : Staged} (hs : (t.builder.stage t.catalogs).1 = .ok (some staged)) :
    ((t.builder.commit staged).base.joins.map Join.reference).Nodup := by
  obtain ⟨hi, hj⟩ | ⟨_, _, -, -, hprocessed, -⟩ := committed_of_run hindex hjoins hsteps h
  · obtain ⟨-, rules, -, -, -, hpaired⟩ := Builder.paired_of_stage hi hs
    rw [Builder.base_commit, hj]
    exact hpaired.nodup_references
  · exact absurd hprocessed hphase

/-- A pass over a query on an entity resolves the attribute marker, and hands out columns of the base
table and of joins that the query then has. Those are different tables, unless a join has the name of
the base table. -/
theorem staged_in_scope {d : Dialect} {c : Catalogs} {out : Option Staged} (hsteps : .rewrap ∉ steps)
    (hentity : ∀ e', .withEntity e' ∈ steps → e'.table = e.table)
    (h : (run ⟨.ofEntity d e, c⟩ steps).2 = .ok t)
    (hs : (t.builder.stage t.catalogs).1 = .ok out) :
    .attributes ∉ (out.elim t.builder t.builder.commit).base.items ∧
      ∀ staged, out = some staged → t.builder.Scoped staged ∧
        (t.builder.phase ≠ .processed →
          (t.builder.commit staged).base.table ∉
            (t.builder.commit staged).base.joins.map Join.reference →
          (t.builder.commit staged).base.Unambiguous) := by
  obtain ⟨htable, e', he, he'⟩ :=
    onEntity_of_run (s := ⟨.ofEntity d e, c⟩) rfl ⟨e, rfl, rfl⟩ hsteps hentity h
  constructor
  · exact Builder.attributes_resolved hs
  · rintro staged rfl
    have hknown := kept_run Builder.kept_knowsJoins (Builder.knowsJoins_of_index_empty rfl) steps h
    refine ⟨Builder.scoped_of_stage he (htable.trans he'.symm) hknown hs, ?_⟩
    intro hphase hname
    exact Select.unambiguous_of_nodup (List.nodup_cons.mpr
      ⟨hname, nodup_references_of_run rfl rfl hsteps h hphase hs⟩)

end Session

namespace Sample

def nested : List Step :=
  [.selectAttributes ["color"], .group .and [.filter .and "color" (.isNull true),
    .filter .or "size" (.isNull true)], .sortByAttribute "size" .desc]

end Sample

theorem Session.staged_in_scope_sample :
    Step.rewrap ∉ Sample.nested ∧ (∀ e', .withEntity e' ∈ Sample.nested → e'.table = Sample.entity.table) ∧
      ∃ t staged, (run ⟨.ofEntity .postgres Sample.entity, Sample.catalogs⟩ Sample.nested).2 = .ok t ∧
        (t.builder.stage t.catalogs).1 = .ok (some staged) ∧
        (t.builder.commit staged).base.sources = ["products", "color_attr", "size_attr"] ∧
        t.builder.Scoped staged ∧ (t.builder.commit staged).base.Unambiguous := by
  have hsteps : Step.rewrap ∉ Sample.nested := by simp [Sample.nested]
  have hentity : ∀ e', .withEntity e' ∈ Sample.nested → e'.table = Sample.entity.table := by
    simp [Sample.nested]
  obtain ⟨-, hstaged⟩ := Session.staged_in_scope (d := .postgres) (c := Sample.catalogs) hsteps hentity
    rfl rfl
  obtain ⟨hscoped, hunique⟩ := hstaged _ rfl
  exact ⟨hsteps, hentity, _, _, rfl, rfl, rfl, hscoped, hunique nofun (by decide)⟩

end EntityQuery
