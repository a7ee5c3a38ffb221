import EntityQuery.Proofs.Passes
import EntityQuery.Proofs.Runs
import Mathlib.Data.List.Forall2
import Mathlib.Data.List.Induction
import Mathlib.Data.List.Nodup

namespace EntityQuery

theorem exists_of_mem_left {α β : Type} {R : α → β → Prop} {l : List α} {m : List β}
    (h : List.Forall₂ R l m) {a : α} (ha : a ∈ l) : ∃ b ∈ m, R a b := by
  induction h with
  | nil => cases ha
  | cons hab _ ih =>
    obtain rfl | ha := List.mem_cons.mp ha
    · exact ⟨_, List.mem_cons_self, hab⟩
    · obtain ⟨b, hb, hR⟩ := ih ha
      exact ⟨b, List.mem_cons_of_mem _ hb, hR⟩

theorem exists_of_mem_right {α β : Type} {R : α → β → Prop} {l : List α} {m : List β}
    (h : List.Forall₂ R l m) {b : β} (hb : b ∈ m) : ∃ a ∈ l, R a b :=
  exists_of_mem_left h.flip hb

namespace JoinRules

/-- An entry of the index and the join it counts in, under the names of the rules. -/
inductive Counts (rules : JoinRules) : (String × String) × AttributeJoin → Join → Prop
  | intro (id : Int64) (code table : String) (type : JoinType) :
    Counts rules
      ((code, rules.entity.code),
        { label := rules.naming.label code
          column := .qualified (rules.naming.label code) rules.naming.valueColumn
          type })
      (rules.join id code table type)

theorem reference_join (rules : JoinRules) (id : Int64) (code table : String) (type : JoinType) :
    (rules.join id code table type).reference = rules.naming.label code := rfl

variable {rules : JoinRules} {entry : (String × String) × AttributeJoin} {j : Join}

theorem Counts.entry_label (h : rules.Counts entry j) :
    entry.2.label = rules.naming.label entry.1.1 := by
  cases h
  rfl

theorem Counts.reference_eq (h : rules.Counts entry j) : j.reference = entry.2.label := by
  cases h
  rfl

theorem Counts.key_eq {entry' : (String × String) × AttributeJoin} {j' : Join}
    (h : rules.Counts entry j) (h' : rules.Counts entry' j') (hj : j.reference = j'.reference) :
    entry.1 = entry'.1 := by
  cases h
  cases h'
  rw [rules.naming.label_injective hj]

end JoinRules

namespace JoinStage

variable {rules : JoinRules} {s t : JoinStage}

/-- The joins of a stage are those that its index counts in, in their order. -/
def Paired (rules : JoinRules) (s : JoinStage) : Prop :=
  List.Forall₂ rules.Counts s.index.toList s.joins

/-- An entry is found by its code where the list of joins finds the join by its label, as attributes
with different codes have different labels. -/
theorem paired_write {code : String} {known : AttributeJoin} (type : JoinType)
    {entries : List ((String × String) × AttributeJoin)} {joins : List Join}
    (h : List.Forall₂ rules.Counts entries joins)
    (hfind : entries.find? (Prod.fst · = (code, rules.entity.code)) =
      some ((code, rules.entity.code), known)) :
    List.Forall₂ rules.Counts
      (Keyed.write Prod.fst ((code, rules.entity.code), { known with type }) entries)
      (retype known.label type joins) := by
  induction h with
  | nil => cases hfind
  | cons hcounts hrest ih =>
    obtain ⟨id, other, table, type'⟩ := hcounts
    by_cases hcode : other = code
    · subst hcode
      rw [List.find?_cons_of_pos (by simp)] at hfind
      cases hfind
      rw [Keyed.write, if_pos rfl, retype, if_pos (rules.reference_join id other table type')]
      exact .cons (.intro id other table type) hrest
    · rw [List.find?_cons_of_neg (by simp [hcode])] at hfind
      have hlabel : known.label = rules.naming.label code := by
        obtain ⟨j, -, hj⟩ := exists_of_mem_left hrest (List.mem_of_find?_eq_some hfind)
        exact hj.entry_label
      have hne : (rules.join id other table type').reference ≠ known.label := by
        rw [hlabel, rules.reference_join]
        exact fun h => hcode (rules.naming.label_injective h)
      rw [Keyed.write, if_neg (by simp [hcode]), retype, if_neg hne]
      exact .cons (.intro id other table type') (ih hfind)

theorem Paired.column (h : Paired rules s) (a : Attribute) : Paired rules (s.column rules a).2 := by
  unfold JoinStage.column
  obtain hs | ⟨id, code, table, storage, known, -, hj, -, hs⟩ |
    ⟨id, code, table, storage, -, hj, hs⟩ := add_cases rules a (rules.types.type a.code) s
  · rwa [hs]
  · rw [hs]
    obtain ⟨⟨key, _⟩, hfind, rfl⟩ := Option.map_eq_some_iff.mp hj
    obtain rfl : key = (code, rules.entity.code) := by simpa using List.find?_some hfind
    exact paired_write .inner h hfind
  · rw [hs]
    have hnew : s.index.find? (code, rules.entity.code) = none := Option.map_eq_none_iff.mp hj
    unfold Paired
    rw [Keyed.toList_put_of_find?_eq_none _ hnew]
    exact List.rel_append h (.cons (.intro id code table _) .nil)

theorem Reaches.paired (h : Reaches rules s t) (hs : Paired rules s) : Paired rules t := by
  induction h with
  | refl => exact hs
  | tail _ hstep ih =>
    obtain ⟨a, rfl⟩ := hstep
    exact ih.column a

theorem Paired.nodup_references (h : Paired rules s) : (s.joins.map Join.reference).Nodup := by
  have hkeys := s.index.nodup
  unfold Paired at h
  generalize s.index.toList = entries at h hkeys
  generalize s.joins = joins at h ⊢
  induction h with
  | nil => exact List.nodup_nil
  | @cons entry j entries joins hj hrest ih =>
    obtain ⟨hnew, hkeys⟩ := List.nodup_cons.mp hkeys
    refine List.nodup_cons.mpr ⟨fun hm => ?_, ih hkeys⟩
    obtain ⟨j', hj', href⟩ := List.mem_map.mp hm
    obtain ⟨entry', hentry', hcounts⟩ := exists_of_mem_right hrest hj'
    exact hnew (List.mem_map.mpr ⟨entry', hentry', hcounts.key_eq hj href⟩)

end JoinStage

namespace Builder

theorem paired_of_stage {b : Builder} {catalogs : Catalogs} {staged : Staged} (hindex : b.index = ∅)
    (h : (b.stage catalogs).1 = .ok (some staged)) :
    ∃ (e : EntityContext) (rules : JoinRules), b.entity = some e ∧ rules.entity = e ∧
      rules.naming = b.naming ∧ JoinStage.Paired rules ⟨staged.index, staged.joins⟩ := by
  obtain ⟨e, attributes, he, -, hs⟩ := stages_of_stage h
  obtain ⟨s, hreaches, hjoins, hstagedIndex⟩ := hs.joins
  rw [hindex] at hreaches
  refine ⟨e, b.rules (b.schema e attributes), he, rfl, rfl, ?_⟩
  rw [hjoins, hstagedIndex]
  exact hreaches.paired .nil

/-- The index of a query agrees with its joins, by the names of one entity and one naming. -/
structure Indexed (b : Builder) (e : Entity) (n : Naming) : Prop where
  entries : ∀ code entity known, b.index.join? code entity = some known →
    entity = e.code ∧ known.label = n.label code ∧
      known.column = .qualified known.label n.valueColumn ∧
      ∃ j ∈ b.base.joins, j.type = known.type ∧ j.label = some known.label ∧
        ∀ k ∈ b.base.joins, k.reference = known.label → k = j
  joins : ∀ j ∈ b.base.joins, ∃ code known, b.index.join? code e.code = some known ∧
    j.label = some known.label ∧ j.type = known.type
  nodup : (b.base.joins.map Join.reference).Nodup

theorem indexed_of_paired {rules : JoinRules} {b : Builder}
    (h : JoinStage.Paired rules ⟨b.index, b.base.joins⟩) :
    b.Indexed rules.entity rules.naming where
  entries code entity known hk := by
    obtain ⟨⟨key, found⟩, hfind, rfl⟩ := Option.map_eq_some_iff.mp hk
    obtain rfl : key = (code, entity) := by simpa using List.find?_some hfind
    obtain ⟨j, hj, hcounts⟩ := exists_of_mem_left h (List.mem_of_find?_eq_some hfind)
    have hunique : ∀ k ∈ b.base.joins, k.reference = found.label → k = j := fun k hk href =>
      List.inj_on_of_nodup_map h.nodup_references hk hj (href.trans hcounts.reference_eq.symm)
    cases hcounts
    exact ⟨rfl, rfl, rfl, _, hj, rfl, rfl, hunique⟩
  joins j hj := by
    obtain ⟨entry, hentry, hcounts⟩ := exists_of_mem_right h hj
    have hfind := b.index.find?_of_mem hentry
    cases hcounts with
    | intro id code table type =>
      exact ⟨code, _, Option.map_eq_some_iff.mpr ⟨_, hfind, rfl⟩, rfl, rfl⟩
  nodup := h.nodup_references

end Builder

namespace Session

/-- The pass that a run ended up with: the session just before it, and what it staged. -/
structure Committed (s : Session) (steps : List Step) (u : Session) (staged : Staged) : Prop where
  place : ∃ before x after, steps = before ++ x :: after ∧ (x = .process ∨ x = .statement) ∧
    (s.run before).2 = .ok u
  phase : u.builder.phase ≠ .processed
  stage : (u.builder.stage u.catalogs).1 = .ok (some staged)

theorem Committed.append {s u : Session} {steps : List Step} {staged : Staged}
    (h : Committed s steps u staged) (later : List Step) :
    Committed s (steps ++ later) u staged where
  place := by
    obtain ⟨before, x, after, rfl, hx⟩ := h.place
    exact ⟨before, x, after ++ later, by simp, hx⟩
  phase := h.phase
  stage := h.stage

inductive JoinEvent (s : Session) (x : Step) (t : Session) : Prop
  | keep : t.builder.index = s.builder.index → t.builder.base.joins = s.builder.base.joins →
    (s.builder.phase = .processed → t.builder.phase = .processed) → JoinEvent s x t
  | restart : t.builder.index = ∅ → t.builder.base.joins = [] → JoinEvent s x t
  | pass (staged : Staged) : x = .process ∨ x = .statement → s.builder.phase ≠ .processed →
    (s.builder.stage s.catalogs).1 = .ok (some staged) → t.builder.phase = .processed →
    t.builder.index = staged.index →
    t.builder.base.joins = s.builder.base.joins ++ staged.joins → JoinEvent s x t

structure Moves (s : Session) (x : Step) (t : Session) : Prop where
  table : t.builder.base.table = s.builder.base.table
  entity : t.builder.entity = s.builder.entity ∨ ∃ e, x = .withEntity e ∧ t.builder.entity = some e
  joins : JoinEvent s x t

variable {s t : Session}

theorem moves_addGroup {x : Step} (k : Connective) (child : Builder)
    (ht : t.builder = s.builder.addGroup k child) : Moves s x t := by
  obtain ⟨b, c⟩ := t
  subst ht
  unfold Builder.addGroup
  split
  · exact ⟨rfl, .inl rfl, .keep rfl rfl id⟩
  · split
    · exact ⟨rfl, .inl rfl, .keep rfl rfl id⟩
    · exact ⟨rfl, .inl rfl, .keep rfl rfl id⟩

theorem moves_addSortKey {x : Step} (scope : SortScope) (key : SortKey)
    (ht : t.builder = { s.builder with base := s.builder.base.addSortKey scope key }) :
    Moves s x t := by
  obtain ⟨b, c⟩ := t
  subst ht
  cases scope <;> exact ⟨rfl, .inl rfl, .keep rfl rfl id⟩

theorem moves_process {x : Step} (hx : x = .process ∨ x = .statement)
    (ht : t.builder = (s.builder.process s.catalogs).2.1) : Moves s x t := by
  obtain ⟨b, c⟩ := t
  subst ht
  by_cases hp : s.builder.phase = .processed
  · unfold Builder.process
    rw [if_pos hp]
    exact ⟨rfl, .inl rfl, .keep rfl rfl id⟩
  · unfold Builder.process
    rw [if_neg hp]
    cases hs : s.builder.stage s.catalogs with
    | mk out catalogs =>
      obtain e | _ | staged := out
      · exact ⟨rfl, .inl rfl, .keep rfl rfl fun h => absurd h hp⟩
      · exact ⟨rfl, .inl rfl, .keep rfl rfl fun h => absurd h hp⟩
      · have htable : (s.builder.commit staged).base.table = s.builder.base.table := by
          rw [Builder.base_commit]
        have hjoins : (s.builder.commit staged).base.joins =
            s.builder.base.joins ++ staged.joins := by rw [Builder.base_commit]
        exact ⟨htable, .inl rfl, .pass staged hx hp (by rw [hs]) rfl rfl hjoins⟩

theorem moves_of_step {x : Step} (hx : x ≠ .rewrap) (h : (step s x).after = .ok t) :
    Moves s x t := by
  cases x with
  | filter k code f =>
    obtain ⟨b, c⟩ := t
    obtain ⟨test, -, rfl⟩ := Builder.filter_eq_ok (filter_of_step h)
    exact ⟨rfl, .inl rfl, .keep rfl rfl id⟩
  | filterColumn k column f =>
    obtain ⟨b, c⟩ := t
    obtain ⟨column, test, -, -, rfl⟩ := Builder.filterColumn_eq_ok (filterColumn_of_step h)
    exact ⟨rfl, .inl rfl, .keep rfl rfl id⟩
  | group k body =>
    obtain ⟨u, -, rfl⟩ := eq_ok_of_map h
    exact moves_addGroup k u.builder rfl
  | fold k origin naming body =>
    obtain ⟨u, -, rfl⟩ := eq_ok_of_map h
    exact moves_addGroup k u.builder rfl
  | union type origin naming body =>
    obtain ⟨b, c⟩ := t
    obtain ⟨u, -, hb, -⟩ := union_of_step h
    obtain rfl := Builder.union_eq_ok hb
    exact ⟨rfl, .inl rfl, .keep rfl rfl id⟩
  | sortByAttribute code direction => cases h; exact ⟨rfl, .inl rfl, .keep rfl rfl id⟩
  | sortBy column direction =>
    obtain ⟨c, hb⟩ := Builder.sortBy_eq_ok (sortBy_of_step h)
    exact moves_addSortKey _ _ hb
  | sortByTimestamp direction =>
    obtain ⟨c, hb⟩ := Builder.sortByTimestamp_eq_ok (sortByTimestamp_of_step h)
    exact moves_addSortKey _ _ hb
  | select columns =>
    obtain ⟨b, c⟩ := t
    obtain ⟨items, rfl⟩ := Builder.select_eq_ok (select_of_step h)
    exact ⟨rfl, .inl rfl, .keep rfl rfl id⟩
  | selectAttributes codes => cases h; exact ⟨rfl, .inl rfl, .keep rfl rfl id⟩
  | limit n => cases h; exact ⟨rfl, .inl rfl, .keep rfl rfl id⟩
  | offset n => cases h; exact ⟨rfl, .inl rfl, .keep rfl rfl id⟩
  | restart => cases h; exact ⟨rfl, .inl rfl, .restart rfl rfl⟩
  | rewrap => exact absurd rfl hx
  | withEntity e => cases h; exact ⟨rfl, .inr ⟨e, rfl, rfl⟩, .keep rfl rfl id⟩
  | withNaming naming => cases h; exact ⟨rfl, .inl rfl, .keep rfl rfl id⟩
  | register e a => cases h; exact ⟨rfl, .inl rfl, .keep rfl rfl id⟩
  | process => cases h; exact moves_process (.inl rfl) rfl
  | statement => exact moves_process (.inr rfl) (builder_of_statement h)
  | preview => cases h; exact ⟨rfl, .inl rfl, .keep rfl rfl id⟩
  | insert rows => cases h; exact ⟨rfl, .inl rfl, .keep rfl rfl id⟩

/-- A run that starts without joins has none in the end, or those of its last pass. -/
theorem committed_of_run {steps : List Step} (hindex : s.builder.index = ∅)
    (hjoins : s.builder.base.joins = []) (hsteps : .rewrap ∉ steps)
    (h : (s.run steps).2 = .ok t) :
    t.builder.index = ∅ ∧ t.builder.base.joins = [] ∨
      ∃ u staged, Committed s steps u staged ∧ u.builder.index = ∅ ∧
        t.builder.phase = .processed ∧ t.builder.index = staged.index ∧
        t.builder.base.joins = staged.joins := by
  induction steps using List.reverseRecOn generalizing t with
  | nil =>
    cases h
    exact .inl ⟨hindex, hjoins⟩
  | append_singleton before x ih =>
    simp only [List.mem_append, List.mem_singleton, not_or] at hsteps
    obtain ⟨u, hu, h⟩ := run_append_eq_ok.mp h
    obtain ⟨t', hx, h⟩ := run_cons_eq_ok.mp h
    cases h
    cases (moves_of_step (Ne.symm hsteps.2) hx).joins with
    | keep hi hj hp =>
      obtain ⟨hui, huj⟩ | ⟨w, staged, hc, hw, hphase, hui, huj⟩ := ih hsteps.1 hu
      · exact .inl ⟨hi.trans hui, hj.trans huj⟩
      · exact .inr ⟨w, staged, hc.append [x], hw, hp hphase, hi.trans hui, hj.trans huj⟩
    | restart hi hj => exact .inl ⟨hi, hj⟩
    | pass staged hkind hphase hstage hp hi hj =>
      obtain ⟨hui, huj⟩ | ⟨w, staged', -, -, hprocessed, -⟩ := ih hsteps.1 hu
      · refine .inr ⟨u, staged, ⟨⟨before, x, [], rfl, hkind, hu⟩, hphase, hstage⟩, hui, hp, hi, ?_⟩
        rw [hj, huj, List.nil_append]
      · exact absurd hprocessed hphase

/-- A query that is built on an empty one has neither joins nor an index of them, or both are those of
its last pass, which is behind it for good: they agree, under the names that the query went by when it
was processed. -/
theorem joins_match_index (origin : Origin) (naming : Option Naming) (b : Builder) (c : Catalogs)
    {steps : List Step} (hsteps : .rewrap ∉ steps)
    (h : (run ⟨origin.builder naming b, c⟩ steps).2 = .ok t) :
    t.builder.index = ∅ ∧ t.builder.base.joins = [] ∨
      t.builder.phase = .processed ∧
        ∃ u staged e, Committed ⟨origin.builder naming b, c⟩ steps u staged ∧
          t.builder.index = staged.index ∧ t.builder.base.joins = staged.joins ∧
          u.builder.entity = some e ∧ t.builder.Indexed e u.builder.naming := by
  have hindex : (origin.builder naming b).index = ∅ := by cases origin <;> rfl
  have hjoins : (origin.builder naming b).base.joins = [] := by cases origin <;> rfl
  obtain hnone | ⟨u, staged, hc, hu, hp, hi, hj⟩ := committed_of_run hindex hjoins hsteps h
  · exact .inl hnone
  · obtain ⟨e, rules, he, hentity, hn, hpaired⟩ := Builder.paired_of_stage hu hc.stage
    rw [← hi, ← hj] at hpaired
    have hindexed := Builder.indexed_of_paired hpaired
    rw [hentity, hn] at hindexed
    exact .inr ⟨hp, u, staged, e, hc, hi, hj, he, hindexed⟩

end Session

namespace Sample

def relabelled : List Step :=
  [.filter .and "color" (.compare "=" (.string "red")), .process,
    .withNaming { labelSuffix := "_value" }, .filter .and "size" (.isNull false), .statement]

end Sample

theorem Session.joins_match_index_sample :
    Step.rewrap ∉ Sample.relabelled ∧
      ∃ t, (run ⟨(Origin.entity .mysql Sample.entity).builder none Sample.query, Sample.catalogs⟩
          Sample.relabelled).2 = .ok t ∧
        t.builder.index.toList.map Prod.fst = [("color", "product")] ∧
        t.builder.base.joins.map Join.reference = ["color_attr"] ∧
        ∃ e n, t.builder.Indexed e n := by
  have hsteps : Step.rewrap ∉ Sample.relabelled := by simp [Sample.relabelled]
  refine ⟨hsteps, _, rfl, rfl, rfl, ?_⟩
  obtain ⟨hnone, -⟩ | ⟨-, u, staged, e, -, -, -, -, hindexed⟩ :=
    Session.joins_match_index (.entity .mysql Sample.entity) none Sample.query Sample.catalogs hsteps rfl
  · exact absurd (congrArg Keyed.size hnone) (by decide)
  · exact ⟨e, _, hindexed⟩

end EntityQuery
