import EntityQuery.Proofs.Compilation
import EntityQuery.Query.Script

namespace EntityQuery

namespace Builder

variable {b b' : Builder}

theorem filter_eq_ok {k : Connective} {code : String} {f : Filter} (h : b.filter k code f = .ok b') :
    ∃ t, f.test = .ok t ∧ b' = { b with buffer := b.buffer.addTest k code t } := by
  obtain ⟨t, ht, hb⟩ := bind_eq_ok.mp h
  cases hb
  exact ⟨t, ht, rfl⟩

theorem filterColumn_eq_ok {k : Connective} {column : String} {f : ColumnFilter}
    (h : b.filterColumn k column f = .ok b') :
    ∃ c t, Column.parse column = .ok c ∧ f.test = .ok t ∧
      b' = { b with base := b.base.addCondition (.test k c t) } := by
  obtain ⟨t, ht, h⟩ := bind_eq_ok.mp h
  obtain ⟨c, hc, hb⟩ := bind_eq_ok.mp h
  cases hb
  exact ⟨c, t, mapError_eq_ok.mp hc, mapError_eq_ok.mp ht, rfl⟩

theorem sortBy_eq_ok {column : String} {direction : Direction}
    (h : b.sortBy column direction = .ok b') :
    ∃ c, b' = { b with base := b.base.addSortKey b.base.sortScope ⟨c, direction⟩ } := by
  obtain ⟨c, -, hb⟩ := bind_eq_ok.mp h
  cases hb
  exact ⟨c, rfl⟩

theorem sortByTimestamp_eq_ok {direction : Direction} (h : b.sortByTimestamp direction = .ok b') :
    ∃ c, b' = { b with base := b.base.addSortKey b.base.sortScope ⟨c, direction⟩ } := by
  obtain ⟨c, -, hb⟩ := bind_eq_ok.mp h
  cases hb
  exact ⟨_, rfl⟩

theorem select_eq_ok {columns : List String} (h : b.select columns = .ok b') :
    ∃ items, b' = { b with base := { b.base with items } } := by
  obtain ⟨items, -, hb⟩ := bind_eq_ok.mp h
  cases hb
  exact ⟨items, rfl⟩

theorem union_eq_ok {type : UnionType} {member : Builder} {catalogs : Catalogs}
    (h : (b.union type member catalogs).1 = .ok b') :
    b' = { b with base := b.base.addUnion type (member.process catalogs).2.1.base } := by
  unfold union at h
  generalize member.process catalogs = out at h ⊢
  obtain ⟨_ | _, m, c⟩ := out <;> cases h
  rfl

theorem statement_snd (b : Builder) (catalogs : Catalogs) :
    (b.statement catalogs).2 = (b.process catalogs).2 := by
  unfold statement
  generalize b.process catalogs = out
  obtain ⟨_ | _, b, c⟩ := out <;> rfl

end Builder

/-- A property of empty queries that each step of building a query keeps. -/
structure Builder.Kept (P : Builder → Prop) : Prop where
  blank : ∀ base entity naming, P { base, entity, buffer := {}, naming }
  filter : ∀ {b b' k code f}, P b → b.filter k code f = .ok b' → P b'
  filterColumn : ∀ {b b' k column f}, P b → b.filterColumn k column f = .ok b' → P b'
  addGroup : ∀ {b k child}, P b → P child → P (b.addGroup k child)
  union : ∀ {b b' type member catalogs}, P b → P member →
    (b.union type member catalogs).1 = .ok b' → P b'
  sortByAttribute : ∀ {b code direction}, P b → P (b.sortByAttribute code direction)
  sortBy : ∀ {b b' column direction}, P b → b.sortBy column direction = .ok b' → P b'
  sortByTimestamp : ∀ {b b' direction}, P b → b.sortByTimestamp direction = .ok b' → P b'
  select : ∀ {b b' columns}, P b → b.select columns = .ok b' → P b'
  selectAttributes : ∀ {b codes}, P b → P (b.selectAttributes codes)
  limit : ∀ {b n}, P b → P (b.limit n)
  offset : ∀ {b n}, P b → P (b.offset n)
  withEntity : ∀ {b e}, P b → P { b with entity := some e }
  withNaming : ∀ {b naming}, P b → P { b with naming }
  process : ∀ {b catalogs}, P b → P (b.process catalogs).2.1

/-- Taking something of a query away that callers do not see when they add to it: it may as well be
taken away before they do. -/
structure Builder.Erases (g : Builder → Builder) : Prop where
  base : ∀ b, (g b).base = b.base
  naming : ∀ b, (g b).naming = b.naming
  withBase : ∀ b base, g { b with base } = { g b with base }
  addTest : ∀ b k code t, g { b with buffer := b.buffer.addTest k code t } =
    { g b with buffer := (g b).buffer.addTest k code t }

/-- A change of a query that goes alike before something was taken away and after it. -/
def Builder.Commutes (g : Builder → Builder) (f : Builder → Except QueryError Builder) : Prop :=
  ∀ b, f (g b) = (f b).map g

namespace Builder.Erases

variable {g : Builder → Builder} (h : Erases g)

include h

theorem filter (k : Connective) (code : String) (f : Filter) : Commutes g (·.filter k code f) := by
  intro b
  change (g b).filter k code f = (b.filter k code f).map g
  unfold Builder.filter
  cases f.test with
  | error e => rfl
  | ok t => exact congrArg Except.ok (h.addTest b k code t).symm

theorem filterColumn (k : Connective) (column : String) (f : ColumnFilter) :
    Commutes g (·.filterColumn k column f) := by
  intro b
  change (g b).filterColumn k column f = (b.filterColumn k column f).map g
  unfold Builder.filterColumn
  rw [h.base]
  cases f.test with
  | error e => rfl
  | ok t =>
    cases Column.parse column with
    | error e => rfl
    | ok c => exact congrArg Except.ok (h.withBase b _).symm

theorem sortBy (column : String) (direction : Direction) :
    Commutes g (·.sortBy column direction) := by
  intro b
  change (g b).sortBy column direction = (b.sortBy column direction).map g
  unfold Builder.sortBy
  rw [h.base]
  cases Column.parse column with
  | error e => rfl
  | ok c => exact congrArg Except.ok (h.withBase b _).symm

theorem sortByTimestamp (direction : Direction) : Commutes g (·.sortByTimestamp direction) := by
  intro b
  have hbase (base : Select) := (h.withBase b base).symm
  change (g b).sortByTimestamp direction = (b.sortByTimestamp direction).map g
  unfold Builder.sortByTimestamp
  rw [h.base]
  simp only [h.naming] at hbase ⊢
  cases Column.parse b.naming.timestampColumn with
  | error e => rfl
  | ok c => exact congrArg Except.ok (hbase _)

theorem select (columns : List String) : Commutes g (·.select columns) := by
  intro b
  have hbase (base : Select) := (h.withBase b base).symm
  change (g b).select columns = (b.select columns).map g
  unfold Builder.select
  rw [h.base]
  simp only [h.naming] at hbase ⊢
  generalize List.mapM (m := Except QueryError) _ columns = items
  cases items with
  | error e => rfl
  | ok items => exact congrArg Except.ok (hbase _)

end Builder.Erases

namespace Session

variable {P : Builder → Prop}

theorem eq_ok_of_change {s t : Session} {f : Builder → Except QueryError Builder}
    (h : s.change f = .ok t) : f s.builder = .ok t.builder := by
  obtain ⟨b, hb, rfl⟩ := map_eq_ok.mp h
  exact hb

theorem eq_ok_of_map {t : Session} {done : Except QueryError Session}
    {f : Session → Session} (h : done.map f = .ok t) : ∃ u, done = .ok u ∧ t = f u := by
  cases done with
  | error e => cases h
  | ok u => cases h; exact ⟨u, rfl, rfl⟩

def grouped (b : Builder) (k : Connective) (t : Session) : Session :=
  { t with builder := b.addGroup k t.builder }

def united (b : Builder) (type : UnionType) (t : Session) : Except QueryError Session :=
  let (builder, catalogs) := b.union type t.builder t.catalogs
  builder.map fun builder => { builder, catalogs }

theorem united_eq_ok {b : Builder} {type : UnionType} {u t : Session} (h : united b type u = .ok t) :
    (b.union type u.builder u.catalogs).1 = .ok t.builder ∧
      t.catalogs = (b.union type u.builder u.catalogs).2 := by
  unfold united at h
  generalize b.union type u.builder u.catalogs = out at h ⊢
  obtain ⟨_ | _, c⟩ := out <;> cases h
  exact ⟨rfl, rfl⟩

theorem step_group (s : Session) (k : Connective) (body : List Step) :
    step s (.group k body) =
      ⟨(run (s.withBuilder s.builder.fresh) body).1, .silent,
        (run (s.withBuilder s.builder.fresh) body).2.map (grouped s.builder k)⟩ := rfl

theorem step_fold (s : Session) (k : Connective) (origin : Origin) (naming : Option Naming)
    (body : List Step) :
    step s (.fold k origin naming body) =
      ⟨(run (s.withBuilder (origin.builder naming s.builder)) body).1, .silent,
        (run (s.withBuilder (origin.builder naming s.builder)) body).2.map
          (grouped s.builder k)⟩ := rfl

theorem step_union (s : Session) (type : UnionType) (origin : Origin) (naming : Option Naming)
    (body : List Step) :
    step s (.union type origin naming body) =
      ⟨(run (s.withBuilder (origin.builder naming s.builder)) body).1, .silent,
        (run (s.withBuilder (origin.builder naming s.builder)) body).2 >>=
          united s.builder type⟩ := rfl

theorem run_cons_error {s : Session} {x : Step} {e : QueryError} (h : (step s x).after = .error e)
    (rest : List Step) : run s (x :: rest) = ([step s x], .error e) := by
  rw [run]
  simp only [h]

theorem run_cons_ok {s t : Session} {x : Step} (h : (step s x).after = .ok t) (rest : List Step) :
    run s (x :: rest) = (step s x :: (run t rest).1, (run t rest).2) := by
  rw [run]
  simp only [h]

theorem run_cons_eq_ok {s t : Session} {x : Step} {rest : List Step} :
    (run s (x :: rest)).2 = .ok t ↔ ∃ u, (step s x).after = .ok u ∧ (run u rest).2 = .ok t := by
  cases hx : (step s x).after with
  | error e => simp [run_cons_error hx]
  | ok u => simp [run_cons_ok hx]

theorem run_append_eq_ok {s t : Session} {xs ys : List Step} :
    (run s (xs ++ ys)).2 = .ok t ↔ ∃ u, (run s xs).2 = .ok u ∧ (run u ys).2 = .ok t := by
  induction xs generalizing s with
  | nil => simp [run]
  | cons x rest ih =>
    simp only [List.cons_append, run_cons_eq_ok, ih]
    grind

section

variable {s t : Session}

theorem filter_of_step {k : Connective} {code : String} {f : Filter}
    (h : (step s (.filter k code f)).after = .ok t) :
    s.builder.filter k code f = .ok t.builder := by
  simp only [step] at h
  exact eq_ok_of_change h

theorem filterColumn_of_step {k : Connective} {column : String} {f : ColumnFilter}
    (h : (step s (.filterColumn k column f)).after = .ok t) :
    s.builder.filterColumn k column f = .ok t.builder := by
  simp only [step] at h
  exact eq_ok_of_change h

theorem sortBy_of_step {column : String} {direction : Direction}
    (h : (step s (.sortBy column direction)).after = .ok t) :
    s.builder.sortBy column direction = .ok t.builder := by
  simp only [step] at h
  exact eq_ok_of_change h

theorem sortByTimestamp_of_step {direction : Direction}
    (h : (step s (.sortByTimestamp direction)).after = .ok t) :
    s.builder.sortByTimestamp direction = .ok t.builder := by
  simp only [step] at h
  exact eq_ok_of_change h

theorem select_of_step {columns : List String} (h : (step s (.select columns)).after = .ok t) :
    s.builder.select columns = .ok t.builder := by
  simp only [step] at h
  exact eq_ok_of_change h

theorem union_of_step {type : UnionType} {origin : Origin} {naming : Option Naming}
    {body : List Step} (h : (step s (.union type origin naming body)).after = .ok t) :
    ∃ u, (run (s.withBuilder (origin.builder naming s.builder)) body).2 = .ok u ∧
      (s.builder.union type u.builder u.catalogs).1 = .ok t.builder ∧
        t.catalogs = (s.builder.union type u.builder u.catalogs).2 := by
  rw [step_union] at h
  obtain ⟨u, hu, h⟩ := bind_eq_ok.mp h
  exact ⟨u, hu, united_eq_ok h⟩

theorem builder_of_statement (h : (step s .statement).after = .ok t) :
    t.builder = (s.builder.process s.catalogs).2.1 := by
  cases h
  exact congrArg Prod.fst (Builder.statement_snd s.builder s.catalogs)

end

theorem kept_origin (hP : Builder.Kept P) (origin : Origin) (naming : Option Naming)
    (b : Builder) : P (origin.builder naming b) := by
  cases origin <;> exact hP.blank _ _ _

mutual

theorem kept_step (hP : Builder.Kept P) {s t : Session} (h : P s.builder) :
    ∀ x : Step, (step s x).after = .ok t → P t.builder
  | .filter k code f, ht => hP.filter h (filter_of_step ht)
  | .filterColumn k column f, ht => hP.filterColumn h (filterColumn_of_step ht)
  | .group k body, ht => by
    obtain ⟨u, hu, rfl⟩ := eq_ok_of_map ht
    exact hP.addGroup h (kept_run hP (hP.blank _ _ _) body hu)
  | .fold k origin naming body, ht => by
    obtain ⟨u, hu, rfl⟩ := eq_ok_of_map ht
    exact hP.addGroup h (kept_run hP (kept_origin hP origin naming s.builder) body hu)
  | .union type origin naming body, ht => by
    obtain ⟨u, hu, hb, -⟩ := union_of_step ht
    have hm := kept_run hP (kept_origin hP origin naming s.builder) body hu
    exact hP.union h hm hb
  | .sortByAttribute code direction, ht => by cases ht; exact hP.sortByAttribute h
  | .sortBy column direction, ht => hP.sortBy h (sortBy_of_step ht)
  | .sortByTimestamp direction, ht => hP.sortByTimestamp h (sortByTimestamp_of_step ht)
  | .select columns, ht => hP.select h (select_of_step ht)
  | .selectAttributes codes, ht => by cases ht; exact hP.selectAttributes h
  | .limit n, ht => by cases ht; exact hP.limit h
  | .offset n, ht => by cases ht; exact hP.offset h
  | .restart, ht => by cases ht; exact hP.blank _ _ _
  | .rewrap, ht => by cases ht; exact hP.blank _ _ _
  | .withEntity e, ht => by cases ht; exact hP.withEntity h
  | .withNaming naming, ht => by cases ht; exact hP.withNaming h
  | .register e a, ht => by cases ht; exact h
  | .process, ht => by cases ht; exact hP.process h
  | .statement, ht => by
    rw [builder_of_statement ht]
    exact hP.process h
  | .preview, ht => by cases ht; exact h
  | .insert _, ht => by cases ht; exact h

theorem kept_run (hP : Builder.Kept P) {s t : Session} (h : P s.builder) :
    ∀ steps : List Step, (run s steps).2 = .ok t → P t.builder
  | [], ht => by cases ht; exact h
  | x :: rest, ht => by
    obtain ⟨u, hx, ht⟩ := run_cons_eq_ok.mp ht
    exact kept_run hP (kept_step hP h x hx) rest ht

end

end Session

/-- The queries that can be built: they have every property that empty queries have and that each
step of building keeps. Each of them may have been processed with a catalog of its own. -/
def Builder.Reachable (b : Builder) : Prop := ∀ P, Builder.Kept P → P b

theorem Builder.reachable_blank (base : Select) (entity : Option EntityContext) (naming : Naming) :
    Builder.Reachable { base, entity, buffer := {}, naming } :=
  fun _ hP => hP.blank base entity naming

theorem Builder.Reachable.addGroup {b child : Builder} (hb : b.Reachable)
    (hchild : child.Reachable) (k : Connective) : (b.addGroup k child).Reachable :=
  fun P hP => hP.addGroup (hb P hP) (hchild P hP)

theorem Builder.Reachable.process {b : Builder} (hb : b.Reachable) (catalogs : Catalogs) :
    (b.process catalogs).2.1.Reachable :=
  fun P hP => hP.process (hb P hP)

theorem Session.reachable_of_run {s t : Session} {steps : List Step} (hs : s.builder.Reachable)
    (h : (s.run steps).2 = .ok t) : t.builder.Reachable :=
  fun P hP => Session.kept_run hP (hs P hP) steps h

/-- Joins are known only where the processing succeeded. -/
theorem Builder.kept_index : Builder.Kept fun b => b.phase ≠ .processed → b.index = ∅ where
  blank _ _ _ _ := rfl
  filter h hb := by obtain ⟨t, -, rfl⟩ := Builder.filter_eq_ok hb; exact h
  filterColumn h hb := by obtain ⟨c, t, -, -, rfl⟩ := Builder.filterColumn_eq_ok hb; exact h
  addGroup h _ := by
    unfold Builder.addGroup
    split
    · exact h
    · split <;> exact h
  union h _ hb := by cases Builder.union_eq_ok hb; exact h
  sortByAttribute h := h
  sortBy h hb := by obtain ⟨c, rfl⟩ := Builder.sortBy_eq_ok hb; exact h
  sortByTimestamp h hb := by obtain ⟨c, rfl⟩ := Builder.sortByTimestamp_eq_ok hb; exact h
  select h hb := by obtain ⟨items, rfl⟩ := Builder.select_eq_ok hb; exact h
  selectAttributes h := h
  limit h := h
  offset h := h
  withEntity h := h
  withNaming h := h
  process {b catalogs} h := by
    unfold Builder.process
    split
    · exact h
    · next hp =>
      generalize b.stage catalogs = out
      obtain ⟨_ | _ | _, c⟩ := out
      · exact fun _ => h hp
      · exact fun hn => absurd rfl hn
      · exact fun hn => absurd rfl hn

theorem Session.index_of_run {s t : Session} {steps : List Step} (hs : s.builder.index = ∅)
    (h : (s.run steps).2 = .ok t) (ht : t.builder.phase ≠ .processed) : t.builder.index = ∅ :=
  Session.kept_run Builder.kept_index (fun _ => hs) steps h ht

end EntityQuery
