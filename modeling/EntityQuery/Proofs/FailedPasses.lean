import EntityQuery.Proofs.GroupContents
import EntityQuery.Proofs.Runs

namespace EntityQuery

def Phase.unmarked : Phase → Phase
  | failed => unprocessed
  | phase => phase

namespace Request

mutual

/-- The request without marks of failures on the queries in its groups, at any depth. -/
def unmarked : Request → Request
  | test k code t => .test k code t
  | group k codes ⟨base, entity, ⟨hasConditions, referenced, requests, sorts⟩, index, phase, naming⟩ =>
    .group k codes ⟨base, entity, ⟨hasConditions, referenced, unmarkedAll requests, sorts⟩, index,
      phase.unmarked, naming⟩

def unmarkedAll : List Request → List Request
  | [] => []
  | r :: rest => r.unmarked :: unmarkedAll rest

end

end Request

def Builder.unmarked (b : Builder) : Builder :=
  { b with
    buffer := { b.buffer with requests := Request.unmarkedAll b.buffer.requests }
    phase := b.phase.unmarked }

def Catalogs.uncounted (cs : Catalogs) : Catalogs := fun p => { cs p with loads := 0 }

def Session.unmarked (s : Session) : Session := ⟨s.builder.unmarked, s.catalogs.uncounted⟩

def Session.unmarkedEnd (done : Except QueryError Session) : Except QueryError Session :=
  done.map Session.unmarked

mutual

def Outcome.unmarked : Outcome → Outcome
  | ⟨inner, reply, after⟩ => ⟨unmarkedAll inner, reply, Session.unmarkedEnd after⟩

def Outcome.unmarkedAll : List Outcome → List Outcome
  | [] => []
  | o :: rest => o.unmarked :: unmarkedAll rest

end

theorem Outcome.after_unmarked (o : Outcome) : o.unmarked.after = Session.unmarkedEnd o.after := by
  cases o
  rfl

@[simp] theorem Phase.unmarked_unmarked (p : Phase) : p.unmarked.unmarked = p.unmarked := by
  cases p <;> rfl

@[simp] theorem Phase.unmarked_eq_processed {p : Phase} : p.unmarked = processed ↔ p = processed := by
  cases p <;> simp [unmarked]

namespace Request

theorem unmarked_group (k : Connective) (codes : CodeSet) (q : Builder) :
    (group k codes q).unmarked = .group k codes q.unmarked := by
  obtain ⟨_, _, ⟨⟩⟩ := q
  rfl

theorem unmarkedAll_append (xs ys : List Request) :
    unmarkedAll (xs ++ ys) = unmarkedAll xs ++ unmarkedAll ys := by
  induction xs with
  | nil => rfl
  | cons r rest ih => simp only [List.cons_append, unmarkedAll, ih]

mutual

@[simp] theorem unmarked_unmarked : ∀ r : Request, r.unmarked.unmarked = r.unmarked
  | .test .. => rfl
  | .group _ _ { buffer := { requests, .. }, .. } => by
    have hrequests := unmarkedAll_unmarkedAll requests
    simp only [unmarked, hrequests, Phase.unmarked_unmarked]

@[simp] theorem unmarkedAll_unmarkedAll :
    ∀ rs : List Request, unmarkedAll (unmarkedAll rs) = unmarkedAll rs
  | [] => rfl
  | r :: rest => by
    have hr := unmarked_unmarked r
    have hrest := unmarkedAll_unmarkedAll rest
    simp only [unmarkedAll, hr, hrest]

end

mutual

theorem stripped_unmarked : ∀ r : Request, r.unmarked.stripped = r.stripped
  | .test .. => rfl
  | .group _ _ { buffer := { requests, .. }, .. } => by
    have hrequests := strippedAll_unmarkedAll requests
    simp only [unmarked, stripped, hrequests]

theorem strippedAll_unmarkedAll :
    ∀ rs : List Request, strippedAll (unmarkedAll rs) = strippedAll rs
  | [] => rfl
  | r :: rest => by
    have hr := stripped_unmarked r
    have hrest := strippedAll_unmarkedAll rest
    simp only [unmarkedAll, strippedAll, hr, hrest]

end

end Request

@[simp] theorem Builder.unmarked_unmarked (b : Builder) : b.unmarked.unmarked = b.unmarked := by
  simp [unmarked]

namespace Catalogs

variable (cs : Catalogs) (e : EntityContext)

@[simp] theorem uncounted_uncounted : cs.uncounted.uncounted = cs.uncounted := rfl

theorem uncounted_load (codes : Option CodeSet) : (cs.load e codes).2.uncounted = cs.uncounted := by
  funext p
  by_cases hp : p = e.provider <;> simp [uncounted, load, Catalog.load, put, hp]

theorem uncounted_register (a : Attribute) :
    (cs.uncounted.register e a).uncounted = (cs.register e a).uncounted := by
  funext p
  by_cases hp : p = e.provider <;>
    simp [uncounted, register, put, hp, Catalog.register, Catalog.attributes?]

end Catalogs

@[simp] theorem Session.unmarked_unmarked (s : Session) : s.unmarked.unmarked = s.unmarked := by
  simp [unmarked]

def Session.unmarkedCall {α : Type} (out : Except QueryError α × Builder × Catalogs) :
    Except QueryError α × Session :=
  (out.1, Session.unmarked ⟨out.2.1, out.2.2⟩)

namespace Builder

variable (b : Builder) (c : Catalogs)

theorem erases_unmarked : Builder.Erases unmarked where
  base _ := rfl
  naming _ := rfl
  withBase _ _ := rfl
  addTest _ _ _ _ := by
    simp only [unmarked, Buffer.addTest, Request.unmarkedAll_append, Request.unmarkedAll,
      Request.unmarked]

theorem addGroup_unmarked (k : Connective) (child : Builder) :
    b.unmarked.addGroup k child.unmarked = (b.addGroup k child).unmarked := by
  unfold addGroup
  have hasked : child.unmarked.buffer.hasConditions = child.buffer.hasConditions := rfl
  have hbase : child.unmarked.base = child.base := rfl
  rw [hasked, hbase]
  split
  · simp only [unmarked, Buffer.addGroup, Request.unmarkedAll_append, Request.unmarkedAll,
      Request.unmarked_group]
  · split <;> rfl

theorem stage_unmarked : (b.unmarked.stage c.uncounted).1 = (b.stage c).1 := by
  have hstripped : b.unmarked.stripped = { b.stripped with phase := b.phase.unmarked } := by
    simp only [stripped, unmarked, Request.strippedAll_unmarkedAll]
  -- Neither the phase nor a count takes part in a pass.
  have hblind : ({ b.stripped with phase := b.phase.unmarked }.stage c.uncounted).1 =
      (b.stripped.stage c).1 := by
    have hplain : { b.stripped with phase := b.phase.unmarked }.isPlain = b.stripped.isPlain := rfl
    have hentity : b.stripped.entity = b.entity := rfl
    unfold stage
    rw [hplain, hentity]
    split
    · rfl
    · cases b.entity <;> rfl
  rw [← b.unmarked.stage_stripped, hstripped, hblind, b.stage_stripped]

theorem uncounted_stage : (b.stage c).2.uncounted = c.uncounted := by
  unfold stage
  split
  · rfl
  · cases b.entity with
    | none => rfl
    | some e => simp only [Catalogs.uncounted_load]

theorem process_unmarked :
    Session.unmarkedCall (b.unmarked.process c.uncounted) = Session.unmarkedCall (b.process c) := by
  by_cases hp : b.phase = .processed
  · have hp' : b.unmarked.phase = .processed := Phase.unmarked_eq_processed.mpr hp
    rw [process, process, if_pos hp, if_pos hp']
    exact congrArg (Prod.mk _) (Session.unmarked_unmarked ⟨b, c⟩)
  · have hp' : ¬ b.unmarked.phase = .processed := mt Phase.unmarked_eq_processed.mp hp
    have hresult := b.stage_unmarked c
    have hcount := b.uncounted_stage c
    have hcount' := b.unmarked.uncounted_stage c.uncounted
    rw [process, process, if_neg hp, if_neg hp']
    generalize b.stage c = out at hresult hcount ⊢
    generalize b.unmarked.stage c.uncounted = out' at hresult hcount' ⊢
    obtain ⟨result, c₁⟩ := out
    obtain ⟨result', c₂⟩ := out'
    obtain rfl : result' = result := hresult
    have hcounts : c₂.uncounted = c₁.uncounted := hcount'.trans hcount.symm
    obtain _ | _ | staged := result' <;>
      simp only [Session.unmarkedCall, Session.unmarked, hcounts, unmarked, commit,
        Request.unmarkedAll_unmarkedAll]

theorem statement_unmarked :
    Session.unmarkedCall (b.unmarked.statement c.uncounted) =
      Session.unmarkedCall (b.statement c) := by
  have h := b.process_unmarked c
  unfold statement
  generalize b.process c = out at h ⊢
  generalize b.unmarked.process c.uncounted = out' at h ⊢
  obtain ⟨result, b₁, c₁⟩ := out
  obtain ⟨result', b₂, c₂⟩ := out'
  obtain ⟨hresult, hsession⟩ := Prod.mk.inj h
  obtain rfl : result' = result := hresult
  have hbase : b₂.base = b₁.base := congrArg (fun s => s.builder.base) hsession
  cases result' with
  | error e => exact congrArg (Prod.mk _) hsession
  | ok _ => exact Prod.ext (by simp only [Session.unmarkedCall, hbase]) hsession

theorem unmarked_process_of_failed (h : (b.process c).2.1.phase = .failed) :
    Session.unmarked ⟨(b.process c).2.1, (b.process c).2.2⟩ = Session.unmarked ⟨b, c⟩ := by
  have hcount := b.uncounted_stage c
  unfold process at h ⊢
  split at h
  · next hp => rw [hp] at h; cases h
  · next hp =>
    generalize b.stage c = out at h hcount ⊢
    obtain ⟨_ | _ | staged, c₁⟩ := out
    · have hphase : b.phase.unmarked = .unprocessed := by
        cases hb : b.phase with
        | processed => exact absurd hb hp
        | unprocessed | failed => rfl
      simp only [if_neg hp, Session.unmarked, unmarked, hphase]
      exact congrArg (Session.mk _) hcount
    · cases h
    · cases h

end Builder

namespace Session

theorem unmarkedEnd_cases {d d' : Except QueryError Session} (h : unmarkedEnd d' = unmarkedEnd d) :
    (∃ e, d' = .error e ∧ d = .error e) ∨
      ∃ t' t, d' = .ok t' ∧ d = .ok t ∧ t'.unmarked = t.unmarked := by
  cases d' <;> cases d <;> simp_all [unmarkedEnd, Except.map]

theorem unmarkedEnd_grouped {b b' : Builder} {d d' : Except QueryError Session}
    (hb : b'.unmarked = b.unmarked) (hd : unmarkedEnd d' = unmarkedEnd d) (k : Connective) :
    unmarkedEnd (d'.map (grouped b' k)) = unmarkedEnd (d.map (grouped b k)) := by
  have hgrouped (b : Builder) (t : Session) :
      (grouped b k t).unmarked = grouped b.unmarked k t.unmarked := by
    simp only [grouped, unmarked, Builder.addGroup_unmarked]
  obtain ⟨e, rfl, rfl⟩ | ⟨t', t, rfl, rfl, ht⟩ := unmarkedEnd_cases hd
  · rfl
  · simp only [unmarkedEnd, Except.map, hgrouped, hb, ht]

theorem unmarkedEnd_united_unmarked (b : Builder) (type : UnionType) (t : Session) :
    unmarkedEnd (united b.unmarked type t.unmarked) = unmarkedEnd (united b type t) := by
  have h := t.builder.process_unmarked t.catalogs
  simp only [united, Builder.union, unmarked]
  generalize t.builder.process t.catalogs = out at h ⊢
  generalize t.builder.unmarked.process t.catalogs.uncounted = out' at h ⊢
  obtain ⟨result, m, c⟩ := out
  obtain ⟨result', m', c'⟩ := out'
  obtain ⟨hresult, hsession⟩ := Prod.mk.inj h
  obtain rfl : result' = result := hresult
  have hbase : m'.base = m.base := congrArg (fun s => s.builder.base) hsession
  have hcount : c'.uncounted = c.uncounted := congrArg Session.catalogs hsession
  cases result' with
  | error e => rfl
  | ok _ =>
    simp only [Except.map, unmarkedEnd, unmarked, Builder.unmarked, hbase, hcount,
      Phase.unmarked_unmarked, Request.unmarkedAll_unmarkedAll]

theorem unmarkedEnd_united {b b' : Builder} {d d' : Except QueryError Session}
    (hb : b'.unmarked = b.unmarked) (hd : unmarkedEnd d' = unmarkedEnd d) (type : UnionType) :
    unmarkedEnd (d' >>= united b' type) = unmarkedEnd (d >>= united b type) := by
  obtain ⟨e, rfl, rfl⟩ | ⟨t', t, rfl, rfl, ht⟩ := unmarkedEnd_cases hd
  · rfl
  · change unmarkedEnd (united b' type t') = unmarkedEnd (united b type t)
    rw [← unmarkedEnd_united_unmarked, hb, ht, unmarkedEnd_united_unmarked]

theorem unmarkedEnd_change {f : Builder → Except QueryError Builder}
    (hf : Builder.Commutes Builder.unmarked f) (s : Session) :
    unmarkedEnd (s.unmarked.change f) = unmarkedEnd (s.change f) := by
  have hb := hf s.builder
  simp only [change, unmarked]
  generalize f s.builder = out at hb ⊢
  generalize f s.builder.unmarked = out' at hb ⊢
  subst hb
  cases out with
  | error e => rfl
  | ok b => exact congrArg Except.ok (unmarked_unmarked ⟨b, s.catalogs⟩)

theorem unmarked_fresh (s : Session) :
    s.unmarked.withBuilder s.unmarked.builder.fresh = (s.withBuilder s.builder.fresh).unmarked := rfl

theorem unmarked_origin (s : Session) (origin : Origin) (naming : Option Naming) :
    s.unmarked.withBuilder (origin.builder naming s.unmarked.builder) =
      (s.withBuilder (origin.builder naming s.builder)).unmarked := by
  cases origin <;> rfl

theorem unmarked_reply {reply reply' : Reply} {t t' : Session} (hreply : reply' = reply)
    (h : t'.unmarked = t.unmarked) :
    Outcome.unmarked ⟨[], reply', .ok t'⟩ = Outcome.unmarked ⟨[], reply, .ok t⟩ := by
  simp only [Outcome.unmarked, unmarkedEnd, Except.map, hreply, h]

theorem unmarked_ok {t t' : Session} (h : t' = t.unmarked) :
    Outcome.unmarked { after := .ok t' } = Outcome.unmarked { after := .ok t } :=
  unmarked_reply rfl (by rw [h, unmarked_unmarked])

mutual

/-- No step sees a mark or a count. -/
theorem unmarked_step (s : Session) :
    ∀ x : Step, (step s.unmarked x).unmarked = (step s x).unmarked
  | .filter k code f => by
    simp only [step, Outcome.unmarked, unmarkedEnd_change (Builder.erases_unmarked.filter k code f)]
  | .filterColumn k column f => by
    simp only [step, Outcome.unmarked,
      unmarkedEnd_change (Builder.erases_unmarked.filterColumn k column f)]
  | .group k body => by
    obtain ⟨hinner, hdone⟩ := unmarked_run (s.withBuilder s.builder.fresh) body
    have hb : s.unmarked.builder.unmarked = s.builder.unmarked := s.builder.unmarked_unmarked
    simp only [step_group, unmarked_fresh, Outcome.unmarked, hinner, unmarkedEnd_grouped hb hdone k]
  | .fold k origin naming body => by
    obtain ⟨hinner, hdone⟩ := unmarked_run (s.withBuilder (origin.builder naming s.builder)) body
    have hb : s.unmarked.builder.unmarked = s.builder.unmarked := s.builder.unmarked_unmarked
    simp only [step_fold, unmarked_origin, Outcome.unmarked, hinner, unmarkedEnd_grouped hb hdone k]
  | .union type origin naming body => by
    obtain ⟨hinner, hdone⟩ := unmarked_run (s.withBuilder (origin.builder naming s.builder)) body
    have hb : s.unmarked.builder.unmarked = s.builder.unmarked := s.builder.unmarked_unmarked
    simp only [step_union, unmarked_origin, Outcome.unmarked, hinner,
      unmarkedEnd_united hb hdone type]
  | .sortByAttribute code direction => unmarked_ok rfl
  | .sortBy column direction => by
    simp only [step, Outcome.unmarked,
      unmarkedEnd_change (Builder.erases_unmarked.sortBy column direction)]
  | .sortByTimestamp direction => by
    simp only [step, Outcome.unmarked,
      unmarkedEnd_change (Builder.erases_unmarked.sortByTimestamp direction)]
  | .select columns => by
    simp only [step, Outcome.unmarked, unmarkedEnd_change (Builder.erases_unmarked.select columns)]
  | .selectAttributes codes => unmarked_ok rfl
  | .limit n => unmarked_ok rfl
  | .offset n => unmarked_ok rfl
  | .restart => unmarked_ok rfl
  | .rewrap => unmarked_ok rfl
  | .withEntity e => unmarked_ok rfl
  | .withNaming naming => unmarked_ok rfl
  | .register e a => by
    refine unmarked_reply rfl ?_
    simp only [unmarked, Builder.unmarked_unmarked, Catalogs.uncounted_register]
  | .process => by
    obtain ⟨hresult, hsession⟩ := Prod.mk.inj (s.builder.process_unmarked s.catalogs)
    exact unmarked_reply (congrArg Reply.processed hresult) hsession
  | .statement => by
    obtain ⟨hresult, hsession⟩ := Prod.mk.inj (s.builder.statement_unmarked s.catalogs)
    exact unmarked_reply (congrArg Reply.statement hresult) hsession
  | .preview => by
    have hsession :
        Session.unmarked ⟨s.unmarked.builder, (s.unmarked.builder.stage s.unmarked.catalogs).2⟩ =
          Session.unmarked ⟨s.builder, (s.builder.stage s.catalogs).2⟩ := by
      simp only [unmarked, Builder.uncounted_stage, Builder.unmarked_unmarked]
      rfl
    exact unmarked_reply (congrArg Reply.staged (s.builder.stage_unmarked s.catalogs)) hsession
  | .insert rows => unmarked_reply rfl s.unmarked_unmarked

theorem unmarked_run (s : Session) :
    ∀ steps : List Step,
      Outcome.unmarkedAll (run s.unmarked steps).1 = Outcome.unmarkedAll (run s steps).1 ∧
        unmarkedEnd (run s.unmarked steps).2 = unmarkedEnd (run s steps).2
  | [] => ⟨rfl, congrArg Except.ok s.unmarked_unmarked⟩
  | x :: rest => by
    have hx := unmarked_step s x
    have hafter : unmarkedEnd (step s.unmarked x).after = unmarkedEnd (step s x).after := by
      simpa only [Outcome.after_unmarked] using congrArg Outcome.after hx
    obtain ⟨e, he', he⟩ | ⟨t', t, ht', ht, heq⟩ := unmarkedEnd_cases hafter
    · rw [run_cons_error he', run_cons_error he]
      exact ⟨by simp only [Outcome.unmarkedAll, hx], rfl⟩
    · obtain ⟨houtcomes', hdone'⟩ := unmarked_run t' rest
      obtain ⟨houtcomes, hdone⟩ := unmarked_run t rest
      rw [heq] at houtcomes' hdone'
      rw [run_cons_ok ht', run_cons_ok ht]
      exact ⟨by simp only [Outcome.unmarkedAll, hx, ← houtcomes', houtcomes],
        hdone'.symm.trans hdone⟩

end

end Session

/-- A call that has the attributes of its query processed. -/
def Step.IsCall : Step → Prop
  | .process | .statement => True
  | _ => False

/-- Whether the query is marked as failed after a step. After a call it is where the pass failed, be it
this one or one before. -/
def Outcome.Failed (o : Outcome) : Prop := ∃ t, o.after = .ok t ∧ t.builder.phase = .failed

mutual

/-- A step and its outcome, and what is left of them when failed calls inside the step are left out. -/
inductive Step.Prunes : Step → Outcome → Step → Outcome → Prop
  | whole (x : Step) (o : Outcome) : Step.Prunes x o x o
  | group (k : Connective) (reply : Reply) (after : Except QueryError Session)
      {body body' : List Step} {inner inner' : List Outcome} :
    Step.PrunesAll body inner body' inner' →
      Step.Prunes (.group k body) ⟨inner, reply, after⟩ (.group k body') ⟨inner', reply, after⟩
  | fold (k : Connective) (origin : Origin) (naming : Option Naming) (reply : Reply)
      (after : Except QueryError Session) {body body' : List Step} {inner inner' : List Outcome} :
    Step.PrunesAll body inner body' inner' →
      Step.Prunes (.fold k origin naming body) ⟨inner, reply, after⟩
        (.fold k origin naming body') ⟨inner', reply, after⟩
  | union (type : UnionType) (origin : Origin) (naming : Option Naming) (reply : Reply)
      (after : Except QueryError Session) {body body' : List Step} {inner inner' : List Outcome} :
    Step.PrunesAll body inner body' inner' →
      Step.Prunes (.union type origin naming body) ⟨inner, reply, after⟩
        (.union type origin naming body') ⟨inner', reply, after⟩

/-- A script and its outcomes, and what is left of them when failed calls are left out. Steps that did
not run have no outcomes and stay. -/
inductive Step.PrunesAll : List Step → List Outcome → List Step → List Outcome → Prop
  | rest (steps : List Step) : Step.PrunesAll steps [] steps []
  | keep {x x' : Step} {o o' : Outcome} {steps steps' : List Step} {outcomes left : List Outcome} :
    Step.Prunes x o x' o' → Step.PrunesAll steps outcomes steps' left →
      Step.PrunesAll (x :: steps) (o :: outcomes) (x' :: steps') (o' :: left)
  | leaveOut {x : Step} {o : Outcome} {steps steps' : List Step} {outcomes left : List Outcome} :
    x.IsCall → o.Failed → Step.PrunesAll steps outcomes steps' left →
      Step.PrunesAll (x :: steps) (o :: outcomes) steps' left

end

theorem Step.Prunes.unmarkedEnd_after {s : Session} {x x' : Step} {o o' : Outcome}
    (h : Step.Prunes x o x' o') (hkept : (s.step x').unmarked = o'.unmarked) :
    Session.unmarkedEnd (s.step x').after = Session.unmarkedEnd o.after := by
  have hafter : o'.after = o.after := by cases h <;> rfl
  rw [← Outcome.after_unmarked, hkept, Outcome.after_unmarked, hafter]

namespace Session

theorem unmarked_run_congr {s s' : Session} (h : s'.unmarked = s.unmarked) (steps : List Step) :
    Outcome.unmarkedAll (run s' steps).1 = Outcome.unmarkedAll (run s steps).1 ∧
      unmarkedEnd (run s' steps).2 = unmarkedEnd (run s steps).2 := by
  obtain ⟨houtcomes', hdone'⟩ := unmarked_run s' steps
  obtain ⟨houtcomes, hdone⟩ := unmarked_run s steps
  rw [h] at houtcomes' hdone'
  exact ⟨houtcomes'.symm.trans houtcomes, hdone'.symm.trans hdone⟩

/-- A call that failed leaves nothing but a mark and a count. -/
theorem unmarked_of_failed {s t : Session} {x : Step} (hx : x.IsCall)
    (ht : (step s x).after = .ok t) (hfailed : t.builder.phase = .failed) :
    t.unmarked = s.unmarked := by
  cases x with
  | process =>
    cases ht
    exact s.builder.unmarked_process_of_failed s.catalogs hfailed
  | statement =>
    cases ht
    change (s.builder.statement s.catalogs).2.1.phase = .failed at hfailed
    change Session.unmarked ⟨(s.builder.statement s.catalogs).2.1,
      (s.builder.statement s.catalogs).2.2⟩ = s.unmarked
    rw [Builder.statement_snd] at hfailed ⊢
    exact s.builder.unmarked_process_of_failed s.catalogs hfailed
  | _ => exact hx.elim

mutual

theorem step_pruned (s : Session) :
    ∀ (x : Step) {x' : Step} {o' : Outcome}, Step.Prunes x (step s x) x' o' →
      (step s x').unmarked = o'.unmarked
  | .group k body, x', o', h => by
    rw [step_group] at h
    cases h with
    | whole => rfl
    | group _ _ _ hbody =>
      obtain ⟨hinner, hdone⟩ := run_pruned _ body hbody
      simp only [step_group, Outcome.unmarked, hinner, unmarkedEnd_grouped rfl hdone k]
  | .fold k origin naming body, x', o', h => by
    rw [step_fold] at h
    cases h with
    | whole => rfl
    | fold _ _ _ _ _ hbody =>
      obtain ⟨hinner, hdone⟩ := run_pruned _ body hbody
      simp only [step_fold, Outcome.unmarked, hinner, unmarkedEnd_grouped rfl hdone k]
  | .union type origin naming body, x', o', h => by
    rw [step_union] at h
    cases h with
    | whole => rfl
    | union _ _ _ _ _ hbody =>
      obtain ⟨hinner, hdone⟩ := run_pruned _ body hbody
      simp only [step_union, Outcome.unmarked, hinner, unmarkedEnd_united rfl hdone type]
  | .filter .., _, _, h | .filterColumn .., _, _, h | .sortByAttribute .., _, _, h
  | .sortBy .., _, _, h | .sortByTimestamp _, _, _, h | .select _, _, _, h
  | .selectAttributes _, _, _, h | .limit _, _, _, h | .offset _, _, _, h | .restart, _, _, h
  | .rewrap, _, _, h | .withEntity _, _, _, h | .withNaming _, _, _, h | .register .., _, _, h
  | .process, _, _, h | .statement, _, _, h | .preview, _, _, h | .insert _, _, _, h => by
    cases h
    rfl

theorem run_pruned (s : Session) :
    ∀ (steps : List Step) {steps' : List Step} {left : List Outcome},
      Step.PrunesAll steps (run s steps).1 steps' left →
        Outcome.unmarkedAll (run s steps').1 = Outcome.unmarkedAll left ∧
          unmarkedEnd (run s steps').2 = unmarkedEnd (run s steps).2
  | [], steps', left, h => by
    cases h
    exact ⟨rfl, rfl⟩
  | x :: rest, steps', left, h => by
    cases hx : (step s x).after with
    | error e =>
      rw [run_cons_error hx] at h ⊢
      cases h with
      | keep hstep hrest =>
        cases hrest
        have hkept := step_pruned s x hstep
        obtain ⟨e', he', he⟩ | ⟨_, _, _, ht, _⟩ := unmarkedEnd_cases (hstep.unmarkedEnd_after hkept)
        · rw [run_cons_error he']
          exact ⟨by simp only [Outcome.unmarkedAll, hkept], by rw [← he, hx]⟩
        · simp [ht] at hx
      | leaveOut _ hfailed _ =>
        -- A call whose pass fails does not end the script.
        obtain ⟨t, ht, -⟩ := hfailed
        simp [ht] at hx
    | ok t =>
      rw [run_cons_ok hx] at h ⊢
      cases h with
      | keep hstep hrest =>
        have hkept := step_pruned s x hstep
        obtain ⟨hinner, hdone⟩ := run_pruned t rest hrest
        obtain ⟨e', _, he⟩ | ⟨t', u, ht', hu, heq⟩ :=
          unmarkedEnd_cases (hstep.unmarkedEnd_after hkept)
        · simp [he] at hx
        · obtain rfl : u = t := Except.ok.inj (hu.symm.trans hx)
          obtain ⟨hinner', hdone'⟩ := unmarked_run_congr heq _
          rw [run_cons_ok ht']
          exact ⟨by simp only [Outcome.unmarkedAll, hkept, hinner', hinner], hdone'.trans hdone⟩
      | leaveOut hcall hfailed hrest =>
        -- The rest is run from the session before the call, which differs in mark and count only.
        obtain ⟨u, hu, hphase⟩ := hfailed
        obtain rfl : u = t := Except.ok.inj (hu.symm.trans hx)
        obtain ⟨hinner, hdone⟩ := run_pruned u rest hrest
        obtain ⟨hinner', hdone'⟩ := unmarked_run_congr (unmarked_of_failed hcall hx hphase).symm _
        exact ⟨hinner'.trans hinner, hdone'.trans hdone⟩

end

end Session

namespace Sample

def start : Session := ⟨.ofEntity .sqlite entity, catalogs⟩

end Sample

end EntityQuery
