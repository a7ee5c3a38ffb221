import EntityQuery.Proofs.GroupContents
import EntityQuery.Proofs.Runs

namespace EntityQuery

/-- Two queries which agree in what a group is made of, and may differ in all else: in entity, table,
dialect and names, in the rest of the base query, in the orderings by attributes as far as the codes on
record are the same, in joins and phase, and in all that the queries in their groups have beside clauses
and requests. -/
structure Builder.AlikeAsGroup (child child' : Builder) : Prop where
  asked : child'.buffer.hasConditions = child.buffer.hasConditions
  conditions : child'.base.conditions = child.base.conditions
  requests :
    Request.strippedAll child'.buffer.requests = Request.strippedAll child.buffer.requests
  referenced : child'.buffer.referenced = child.buffer.referenced

def Session.stripped (s : Session) : Session := s.withBuilder s.builder.stripped

/-- The outcome with the query after it stripped; what was said stays as it is. -/
def Outcome.stripped (o : Outcome) : Outcome := { o with after := o.after.map Session.stripped }

theorem Request.strippedAll_concat_group {rs rs' : List Request} {q q' : Builder}
    (hrs : strippedAll rs' = strippedAll rs) (hconditions : q'.base.conditions = q.base.conditions)
    (hrequests : strippedAll q'.buffer.requests = strippedAll q.buffer.requests) (k : Connective)
    (codes codes' : CodeSet) :
    strippedAll (rs' ++ [.group k codes' q']) = strippedAll (rs ++ [.group k codes q]) := by
  simp only [strippedAll_append, strippedAll, stripped_group, hrs, hconditions, hrequests]

namespace Builder

variable (b : Builder) (c : Catalogs)

theorem erases_stripped : Builder.Erases stripped where
  base _ := rfl
  naming _ := rfl
  withBase _ _ := rfl
  addTest _ _ _ _ := by
    simp only [stripped, Buffer.addTest, Request.strippedAll_append, Request.strippedAll,
      Request.stripped]

theorem process_stripped :
    b.stripped.process c = ((b.process c).1, (b.process c).2.1.stripped, (b.process c).2.2) := by
  have hphase : b.stripped.phase = b.phase := rfl
  unfold process
  rw [hphase, stage_stripped]
  split
  · rfl
  · generalize b.stage c = out
    obtain ⟨_ | _ | staged, c'⟩ := out <;> rfl

theorem statement_stripped :
    b.stripped.statement c =
      ((b.statement c).1, (b.statement c).2.1.stripped, (b.statement c).2.2) := by
  unfold statement
  rw [process_stripped]
  generalize b.process c = out
  obtain ⟨_ | _, b', c'⟩ := out <;> rfl

theorem union_stripped (type : UnionType) (member : Builder) :
    b.stripped.union type member c =
      ((b.union type member c).1.map stripped, (b.union type member c).2) := by
  unfold union
  generalize member.process c = out
  obtain ⟨_ | _, m, c'⟩ := out <;> rfl

variable {b c} {b' child child' : Builder}

theorem AlikeAsGroup.refl (child : Builder) : child.AlikeAsGroup child := ⟨rfl, rfl, rfl, rfl⟩

theorem AlikeAsGroup.addGroup (hb : b.AlikeAsGroup b') (h : child.AlikeAsGroup child')
    (k : Connective) : (b.addGroup k child).AlikeAsGroup (b'.addGroup k child') := by
  unfold Builder.addGroup
  rw [h.asked, h.conditions]
  split
  · exact ⟨rfl, hb.conditions,
      Request.strippedAll_concat_group hb.requests h.conditions h.requests k _ _,
      by simp only [Buffer.addGroup, hb.referenced, h.referenced]⟩
  · split
    · exact hb
    · exact ⟨hb.asked, by simp only [Select.addCondition, hb.conditions], hb.requests,
        hb.referenced⟩

/-- Of a query added as a group, the query around it shows only what groups are made of. -/
theorem AlikeAsGroup.stripped_addGroup (h : child.AlikeAsGroup child') (k : Connective) :
    (b.stripped.addGroup k child').stripped = (b.addGroup k child).stripped := by
  unfold Builder.addGroup
  rw [h.asked, h.conditions]
  split
  · have hrequests := Request.strippedAll_concat_group
      (Request.strippedAll_strippedAll b.buffer.requests) h.conditions h.requests k
      child.buffer.referenced child'.buffer.referenced
    simp only [stripped, Buffer.addGroup, h.referenced] at hrequests ⊢
    rw [hrequests]
  · split
    · exact b.stripped_stripped
    · simp only [stripped, Request.strippedAll_strippedAll]

theorem AlikeAsGroup.stripped_addGroup_eq (h : child.AlikeAsGroup child') (k : Connective) :
    (b.addGroup k child').stripped = (b.addGroup k child).stripped := by
  rw [← h.stripped_addGroup, (AlikeAsGroup.refl child').stripped_addGroup]

theorem statement_congr_stripped (h : b'.stripped = b.stripped) (c : Catalogs) :
    (b'.statement c).1 = (b.statement c).1 := by
  have hstatement := (b'.statement_stripped c).symm.trans (h ▸ b.statement_stripped c)
  exact (Prod.mk.inj hstatement).1

end Builder

namespace Session

@[simp] theorem stripped_stripped (s : Session) : s.stripped.stripped = s.stripped :=
  congrArg s.withBuilder s.builder.stripped_stripped

theorem stripped_change {f : Builder → Except QueryError Builder}
    (hf : Builder.Commutes Builder.stripped f) (s : Session) :
    (s.stripped.change f).map stripped = (s.change f).map stripped := by
  have hb := hf s.builder
  simp only [change, stripped, withBuilder]
  generalize f s.builder = out at hb ⊢
  generalize f s.builder.stripped = out' at hb ⊢
  subst hb
  cases out with
  | error e => rfl
  | ok b => exact congrArg Except.ok (stripped_stripped ⟨b, s.catalogs⟩)

theorem stripped_grouped (b : Builder) (k : Connective) (done : Except QueryError Session) :
    (done.map (grouped b.stripped k)).map stripped = (done.map (grouped b k)).map stripped := by
  cases done with
  | error e => rfl
  | ok t =>
    have hb := (Builder.AlikeAsGroup.refl t.builder).stripped_addGroup (b := b) k
    simp only [Except.map, grouped, stripped, withBuilder, hb]

theorem stripped_united (b : Builder) (type : UnionType) (done : Except QueryError Session) :
    (done >>= united b.stripped type).map stripped = (done >>= united b type).map stripped := by
  cases done with
  | error e => rfl
  | ok t =>
    simp only [bind, Except.bind, united, Builder.union_stripped]
    generalize b.union type t.builder t.catalogs = out
    obtain ⟨_ | b', c⟩ := out
    · rfl
    · exact congrArg Except.ok (stripped_stripped ⟨b', c⟩)

theorem stripped_reply (reply : Reply) (t : Session) :
    Outcome.stripped ⟨[], reply, .ok t.stripped⟩ = Outcome.stripped ⟨[], reply, .ok t⟩ := by
  simp only [Outcome.stripped, Except.map, stripped_stripped]

/-- No step tells what is stripped, neither in what it says nor in what it leaves but for that. The
queries that it builds inside start from the entity, the table and the names alone. -/
theorem stripped_step (s : Session) (x : Step) :
    (step s.stripped x).stripped = (step s x).stripped := by
  cases x with
  | filter k code f =>
    simp only [step, Outcome.stripped, stripped_change (Builder.erases_stripped.filter k code f)]
  | filterColumn k column f =>
    simp only [step, Outcome.stripped,
      stripped_change (Builder.erases_stripped.filterColumn k column f)]
  | group k body =>
    have hfresh : s.stripped.withBuilder s.stripped.builder.fresh = s.withBuilder s.builder.fresh :=
      rfl
    rw [step_group, step_group, hfresh]
    exact congrArg (Outcome.mk _ _) (stripped_grouped s.builder k _)
  | fold k origin naming body =>
    have horigin : s.stripped.withBuilder (origin.builder naming s.stripped.builder) =
        s.withBuilder (origin.builder naming s.builder) := by cases origin <;> rfl
    rw [step_fold, step_fold, horigin]
    exact congrArg (Outcome.mk _ _) (stripped_grouped s.builder k _)
  | union type origin naming body =>
    have horigin : s.stripped.withBuilder (origin.builder naming s.stripped.builder) =
        s.withBuilder (origin.builder naming s.builder) := by cases origin <;> rfl
    rw [step_union, step_union, horigin]
    exact congrArg (Outcome.mk _ _) (stripped_united s.builder type _)
  | sortByAttribute code direction =>
    exact stripped_reply _ ⟨s.builder.sortByAttribute code direction, s.catalogs⟩
  | sortBy column direction =>
    simp only [step, Outcome.stripped,
      stripped_change (Builder.erases_stripped.sortBy column direction)]
  | sortByTimestamp direction =>
    simp only [step, Outcome.stripped,
      stripped_change (Builder.erases_stripped.sortByTimestamp direction)]
  | select columns =>
    simp only [step, Outcome.stripped, stripped_change (Builder.erases_stripped.select columns)]
  | selectAttributes codes => exact stripped_reply _ ⟨s.builder.selectAttributes codes, s.catalogs⟩
  | limit n => exact stripped_reply _ ⟨s.builder.limit n, s.catalogs⟩
  | offset n => exact stripped_reply _ ⟨s.builder.offset n, s.catalogs⟩
  | restart => rfl
  | rewrap => rfl
  | withEntity e => exact stripped_reply _ ⟨{ s.builder with entity := some e }, s.catalogs⟩
  | withNaming naming => exact stripped_reply _ ⟨{ s.builder with naming }, s.catalogs⟩
  | register e a => exact stripped_reply _ ⟨s.builder, s.catalogs.register e a⟩
  | process =>
    have h := s.builder.process_stripped s.catalogs
    simp only [step, stripped, withBuilder, h]
    exact stripped_reply _ ⟨_, _⟩
  | statement =>
    have h := s.builder.statement_stripped s.catalogs
    simp only [step, stripped, withBuilder, h]
    exact stripped_reply _ ⟨_, _⟩
  | preview =>
    have h := s.builder.stage_stripped s.catalogs
    simp only [step, stripped, withBuilder, h]
    exact stripped_reply _ ⟨s.builder, (s.builder.stage s.catalogs).2⟩
  | insert rows => exact stripped_reply _ s

theorem stripped_run {s s' : Session} (h : s'.stripped = s.stripped) (steps : List Step) :
    (run s' steps).1.map Outcome.stripped = (run s steps).1.map Outcome.stripped ∧
      (run s' steps).2.map stripped = (run s steps).2.map stripped := by
  induction steps generalizing s s' with
  | nil => exact ⟨rfl, congrArg Except.ok h⟩
  | cons x rest ih =>
    have hx : (step s' x).stripped = (step s x).stripped := by
      rw [← stripped_step s', h, stripped_step]
    -- So the step fails for both, with the same error, or for neither.
    have hafter : (step s' x).after.map stripped = (step s x).after.map stripped :=
      congrArg Outcome.after hx
    cases hs : (step s x).after with
    | error e =>
      cases hs' : (step s' x).after with
      | error e' =>
        obtain rfl : e' = e := by simpa [hs, hs', Except.map] using hafter
        rw [run_cons_error hs, run_cons_error hs']
        exact ⟨by rw [List.map_singleton, List.map_singleton, hx], rfl⟩
      | ok t' => simp [hs, hs', Except.map] at hafter
    | ok t =>
      cases hs' : (step s' x).after with
      | error e' => simp [hs, hs', Except.map] at hafter
      | ok t' =>
        have ht : t'.stripped = t.stripped := by simpa [hs, hs', Except.map] using hafter
        obtain ⟨houtcomes, hdone⟩ := ih ht
        rw [run_cons_ok hs, run_cons_ok hs']
        exact ⟨by rw [List.map_cons, List.map_cons, hx, houtcomes], hdone⟩

end Session

/-- A query cannot tell apart two queries alike that are added to it as a group: a pass stages the same
or fails alike, the statement, the base query and the catalogs with their counts of looks come out the
same, and no script goes on differently. As the queries that these are added to are alike again, the same
goes for what is in groups further down. -/
theorem Builder.indistinguishable_of_alike {child child' : Builder} (h : child.AlikeAsGroup child')
    (k : Connective) :
    (∀ (b : Builder) (c : Catalogs),
      (b.addGroup k child').stage c = (b.addGroup k child).stage c ∧
      ((b.addGroup k child').process c).1 = ((b.addGroup k child).process c).1 ∧
      ((b.addGroup k child').statement c).1 = ((b.addGroup k child).statement c).1 ∧
      ((b.addGroup k child').statement c).2.1.base =
        ((b.addGroup k child).statement c).2.1.base ∧
      ((b.addGroup k child').statement c).2.2 = ((b.addGroup k child).statement c).2.2 ∧
      ∀ steps,
        (Session.run ⟨b.addGroup k child', c⟩ steps).1.map Outcome.stripped =
          (Session.run ⟨b.addGroup k child, c⟩ steps).1.map Outcome.stripped ∧
        (Session.run ⟨b.addGroup k child', c⟩ steps).2.map Session.stripped =
          (Session.run ⟨b.addGroup k child, c⟩ steps).2.map Session.stripped) ∧
    ∀ b b' : Builder, b.AlikeAsGroup b' →
      (b.addGroup k child).AlikeAsGroup (b'.addGroup k child') := by
  refine ⟨fun b c => ?_, fun b b' hb => hb.addGroup h k⟩
  have hsame := h.stripped_addGroup_eq (b := b) k
  generalize b.addGroup k child = one at hsame ⊢
  generalize b.addGroup k child' = other at hsame ⊢
  have hprocess := (other.process_stripped c).symm.trans (hsame ▸ one.process_stripped c)
  have hstatement := (other.statement_stripped c).symm.trans (hsame ▸ one.statement_stripped c)
  obtain ⟨hresult, -⟩ := Prod.mk.inj hprocess
  obtain ⟨htext, hleft⟩ := Prod.mk.inj hstatement
  obtain ⟨hbuilder, hcatalogs⟩ := Prod.mk.inj hleft
  have hbase := congrArg Builder.base hbuilder
  refine ⟨?_, hresult, htext, hbase, hcatalogs, Session.stripped_run ?_⟩
  · rw [← other.stage_stripped, hsame, one.stage_stripped]
  · exact congrArg (Session.mk · c) hsame

namespace Sample

def sizeless (b : Builder) : Builder :=
  { b with
    base := b.base.addCondition (.test .and (.bare "id") (.compare .gt (.int 10)))
    buffer := b.buffer.addTest .and "size" (.isNull false) }

def redOr (b group : Builder) : Builder :=
  ({ b with buffer := b.buffer.addTest .and "color" (.compare .eq (.string "red")) }.addGroup .or
    group).sortByAttribute "sku" .asc

def plain : Builder := redOr (.ofEntity .sqlite entity) (sizeless (.ofEntity .sqlite entity))

/-- The same predicates in queries on other entities, of which no provider knows, with a limit and with
orderings of their own. -/
def stray : Builder :=
  let archive := (sizeless (.ofEntity .mysql { code := "archive", table := "archive", provider := 3 }))
    |>.sortByAttribute "size" .desc
  let stock := Builder.limit (.ofEntity .mysql { code := "stock", table := "stock", provider := 7 }) 5
  ((redOr stock (archive.process .empty).2.1).sortByAttribute "color" .desc |>.process .empty).2.1

end Sample

theorem Builder.indistinguishable_of_alike_sample :
    Sample.plain.AlikeAsGroup Sample.stray ∧ Sample.plain.buffer.hasConditions = true ∧
      Sample.plain.entity ≠ Sample.stray.entity ∧
      Sample.plain.base.limit ≠ Sample.stray.base.limit ∧
      Sample.plain.buffer.sorts ≠ Sample.stray.buffer.sorts ∧ Sample.stray.phase = .failed ∧
      ∃ text, ((Sample.query.addGroup .or Sample.plain).statement Sample.catalogs).1 = .ok text ∧
        ((Sample.query.addGroup .or Sample.stray).statement Sample.catalogs).1 = .ok text := by
  have halike : Sample.plain.AlikeAsGroup Sample.stray := ⟨rfl, rfl, rfl, by decide +kernel⟩
  obtain ⟨-, -, hsame, -⟩ := (indistinguishable_of_alike halike .or).1 Sample.query Sample.catalogs
  obtain ⟨text, htext⟩ :
    ∃ text, ((Sample.query.addGroup .or Sample.plain).statement Sample.catalogs).1 = .ok text :=
      ⟨_, rfl⟩
  exact ⟨halike, rfl, by decide, by decide, by decide, rfl, text, htext, hsame.trans htext⟩

end EntityQuery
