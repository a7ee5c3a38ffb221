import EntityQuery.Proofs.Evaluation
import EntityQuery.Proofs.Passes
import EntityQuery.Proofs.Reordering
import EntityQuery.Query.Script

namespace EntityQuery

/-- A call that adds a predicate, as a caller words it. -/
inductive Call where
  | onColumn (connective : Connective) (name operator : String) (value : Value)
  | onAttribute (connective : Connective) (code operator : String) (value : Value)

namespace Call

def connective : Call → Connective
  | onColumn connective .. | onAttribute connective .. => connective

def isColumn : Call → Bool
  | onColumn .. => true
  | onAttribute .. => false

def step : Call → Step
  | onColumn connective name operator value =>
    .filterColumn connective name (.compare operator value)
  | onAttribute connective code operator value => .filter connective code (.compare operator value)

def clause? : Call → Option Condition
  | onColumn connective name operator value =>
    match Column.parse name, (ColumnFilter.compare operator value).test with
    | .ok c, .ok t => some (.test connective c t)
    | _, _ => none
  | onAttribute .. => none

def asked? : Call → Option (String × Test)
  | onColumn .. => none
  | onAttribute _ code operator value =>
    match (Filter.compare operator value).test with
    | .ok t => some (code, t)
    | .error _ => none

/-- The clause of a call in the end, the codes of attributes standing for the columns given. -/
def condition? (col : String → Column) (c : Call) : Option Condition :=
  c.clause? <|> c.asked?.map fun asked => .test c.connective (col asked.1) asked.2

/-- The positions of the calls in the order in which their clauses stand in the end. -/
def positions (calls : List Call) : List Nat :=
  (Level.settle (fun p : Call × Nat => p.1.isColumn) calls.zipIdx).map Prod.snd

end Call

def Builder.Knows (b : Builder) (catalogs : Catalogs) (code : String) : Prop :=
  ∃ e attributes, b.entity = some e ∧ catalogs.attributes? e = some attributes ∧
    attributes.contains code = true

def Call.Valid (b : Builder) (catalogs : Catalogs) : Call → Prop
  | onColumn _ name operator value =>
    (∃ c, Column.parse name = .ok c) ∧ ∃ t, (ColumnFilter.compare operator value).test = .ok t
  | onAttribute _ code operator value =>
    b.Knows catalogs code ∧ ∃ t, (Filter.compare operator value).test = .ok t

def Call.request? (c : Call) : Option Request :=
  c.asked?.map fun asked => .test c.connective asked.1 asked.2

/-- What calls have added to a query. -/
structure Builder.Called (calls : List Call) (b b' : Builder) : Prop where
  conditions : b'.base.conditions = b.base.conditions ++ calls.filterMap Call.clause?
  items : b'.base.items = b.base.items
  requests : b'.buffer.requests = b.buffer.requests ++ calls.filterMap Call.request?
  sorts : b'.buffer.sorts = b.buffer.sorts
  referenced : ∀ code, code ∈ b'.buffer.referenced.toList ↔
    code ∈ b.buffer.referenced.toList ∨ code ∈ calls.filterMap fun c => c.asked?.map Prod.fst
  hasConditions : b'.buffer.hasConditions =
    (b.buffer.hasConditions || calls.any fun c => !c.isColumn)
  entity : b'.entity = b.entity
  phase : b'.phase = b.phase

namespace Builder.Called

variable {b b' b'' : Builder} {calls calls' : List Call}

theorem nil : Called [] b b where
  conditions := by simp
  items := rfl
  requests := by simp
  sorts := rfl
  referenced := by simp
  hasConditions := by simp
  entity := rfl
  phase := rfl

theorem append (h : Called calls b b') (h' : Called calls' b' b'') :
    Called (calls ++ calls') b b'' where
  conditions := by rw [h'.conditions, h.conditions, List.filterMap_append, List.append_assoc]
  items := h'.items.trans h.items
  requests := by rw [h'.requests, h.requests, List.filterMap_append, List.append_assoc]
  sorts := h'.sorts.trans h.sorts
  referenced code := by
    rw [h'.referenced, h.referenced, List.filterMap_append, List.mem_append, or_assoc]
  hasConditions := by rw [h'.hasConditions, h.hasConditions, List.any_append, Bool.or_assoc]
  entity := h'.entity.trans h.entity
  phase := h'.phase.trans h.phase

end Builder.Called

namespace Session

theorem step_call {b₀ : Builder} {catalogs : Catalogs} {c : Call} (hc : c.Valid b₀ catalogs)
    (b : Builder) :
    ∃ b', (step ⟨b, catalogs⟩ c.step).after = .ok ⟨b', catalogs⟩ ∧ Builder.Called [c] b b' := by
  cases c with
  | onColumn k name operator value =>
    obtain ⟨⟨column, hcolumn⟩, t, ht⟩ := hc
    refine ⟨{ b with base := b.base.addCondition (.test k column t) }, ?_, ?_⟩
    · simp only [Call.step, step, change, Builder.filterColumn, hcolumn, ht]
      rfl
    · constructor <;> simp [Select.addCondition, Call.clause?, Call.request?, Call.asked?, Call.isColumn,
        hcolumn, ht]
  | onAttribute k code operator value =>
    obtain ⟨-, t, ht⟩ := hc
    have hclauses : [Call.onAttribute k code operator value].filterMap Call.clause? = [] := rfl
    refine ⟨{ b with buffer := b.buffer.addTest k code t }, ?_, ?_⟩
    · simp only [Call.step, step, change, Builder.filter, ht]
      rfl
    · constructor <;> simp [Buffer.addTest, hclauses, Call.request?, Call.asked?, Call.isColumn, ht,
        CodeSet.mem_insert, or_comm, Call.connective]

theorem run_calls {b₀ : Builder} {catalogs : Catalogs} {calls : List Call}
    (hcalls : ∀ c ∈ calls, c.Valid b₀ catalogs) (b : Builder) :
    ∃ outcomes b', run ⟨b, catalogs⟩ (calls.map Call.step) = (outcomes, .ok ⟨b', catalogs⟩) ∧
      Builder.Called calls b b' := by
  induction calls generalizing b with
  | nil => exact ⟨[], b, rfl, .nil⟩
  | cons c rest ih =>
    obtain ⟨b', hstep, hc⟩ := step_call (hcalls c (by simp)) b
    obtain ⟨outcomes, b'', hrun, hr⟩ := ih (fun d hd => hcalls d (by simp [hd])) b'
    refine ⟨step ⟨b, catalogs⟩ c.step :: outcomes, b'', ?_, hc.append hr⟩
    rw [List.map_cons, run]
    simp only [hstep, hrun]

end Session

namespace Builder

variable {b b' : Builder} {catalogs : Catalogs} {calls : List Call}

theorem knows_of_asked {c : Call} {asked : String × Test} (hc : c.Valid b catalogs)
    (h : c.asked? = some asked) : b.Knows catalogs asked.1 := by
  cases c with
  | onColumn => simp [Call.asked?] at h
  | onAttribute k code operator value =>
    obtain ⟨hk, t, ht⟩ := hc
    simp only [Call.asked?, ht, Option.some.injEq] at h
    exact h ▸ hk

theorem Called.exists_known (hbuffer : b.buffer = {}) (hpass : ∃ out, (b.stage catalogs).1 = .ok out)
    (hcalls : ∀ c ∈ calls, c.Valid b catalogs) (h : Called calls b b') (hp : b'.isPlain = false) :
    ∃ e attributes, b.entity = some e ∧ catalogs.attributes? e = some attributes ∧
      ∀ code ∈ b.expansion.codes, attributes.contains code = true := by
  obtain ⟨out, hout⟩ := hpass
  cases hb : b.isPlain with
  | false =>
    obtain ⟨e, attributes, he, ha, hk⟩ := known_of_stage hb hout
    exact ⟨e, attributes, he, ha, fun code hc => hk code (CodeSet.mem_insertAll.mpr (.inr hc))⟩
  | true =>
    have hconditions := h.hasConditions
    unfold isPlain at hp hb
    rw [h.items, h.entity] at hp
    rw [hbuffer] at hb hconditions
    have hany : calls.any (fun c => !c.isColumn) = true := by
      cases hn : calls.any fun c => !c.isColumn with
      | true => rfl
      | false =>
        rw [hconditions, hn] at hp
        exact absurd (hb.symm.trans hp) (by simp)
    obtain ⟨c, hc, hattribute⟩ := List.any_eq_true.mp hany
    cases c with
    | onColumn => simp [Call.isColumn] at hattribute
    | onAttribute k code operator value =>
      obtain ⟨⟨e, attributes, he, ha, -⟩, -⟩ := hcalls _ hc
      refine ⟨e, attributes, he, ha, ?_⟩
      have hx : b.expansion.isUntouched = true := by simpa [he] using hb
      have hcodes : b.expansion.codes = [] := by
        cases hb : b.expansion with
        | untouched => rfl
        | every kept => simp [hb, Expansion.isUntouched] at hx
        | named codes kept => simp [hb, Expansion.isUntouched] at hx
      simp [hcodes]

theorem Called.known (hbuffer : b.buffer = {}) (hpass : ∃ out, (b.stage catalogs).1 = .ok out)
    (hcalls : ∀ c ∈ calls, c.Valid b catalogs) (h : Called calls b b') (hp : b'.isPlain = false) :
    ∃ e attributes, b'.entity = some e ∧ catalogs.attributes? e = some attributes ∧
      ∀ code ∈ (b'.neededCodes b'.expansion).toList, attributes.contains code = true := by
  obtain ⟨e, attributes, he, ha, hx⟩ := h.exists_known hbuffer hpass hcalls hp
  refine ⟨e, attributes, h.entity.trans he, ha, ?_⟩
  intro code hc
  have hreferenced := h.referenced code
  rw [hbuffer] at hreferenced
  obtain hc | hc := CodeSet.mem_insertAll.mp hc
  · obtain hc | hc := hreferenced.mp hc
    · cases hc
    · obtain ⟨c, hm, hcode⟩ := List.mem_filterMap.mp hc
      obtain ⟨asked, hasked, rfl⟩ := Option.map_eq_some_iff.mp hcode
      obtain ⟨e', attributes', he', ha', hk⟩ := knows_of_asked (hcalls c hm) hasked
      obtain rfl : e = e' := Option.some.inj (he.symm.trans he')
      obtain rfl : attributes = attributes' := Option.some.inj (ha.symm.trans ha')
      exact hk
  · have hexpansion : b'.expansion = b.expansion := by unfold expansion; rw [h.items]
    exact hx code (hexpansion ▸ hc)

theorem Called.mem_neededCodes (hbuffer : b.buffer = {}) (h : Called calls b b') {code : String}
    (hc : code ∈ Request.codesAll b'.buffer.requests) :
    code ∈ (b'.neededCodes b'.expansion).toList := by
  have hcodes (calls : List Call) : Request.codesAll (calls.filterMap Call.request?) =
      calls.filterMap fun c => c.asked?.map Prod.fst := by
    induction calls with
    | nil => rfl
    | cons c rest ih =>
      cases ha : c.asked? with
      | none =>
        simpa [Call.request?, ha] using ih
      | some asked => simpa [Call.request?, ha, Request.codesAll, Request.codes] using ih
  rw [h.requests, hbuffer, List.nil_append, hcodes] at hc
  exact CodeSet.mem_insertAll.mpr (.inl ((h.referenced code).mpr (.inr hc)))

theorem Called.conditions_append_image (hconditions : b.base.conditions = [])
    (hbuffer : b.buffer = {}) (h : Called calls b b') (col : String → Column) :
    b'.base.conditions ++ Request.imageAll col b'.buffer.requests =
      (Level.settle Call.isColumn calls).filterMap (Call.condition? col) := by
  have hclause : Call.clause? = fun c : Call => if c.isColumn then c.condition? col else none := by
    funext c
    cases c with
    | onColumn => simp [Call.condition?, Call.isColumn, Call.asked?]
    | onAttribute => rfl
  have hrequest : (fun c : Call => c.request?.map (Request.image col)) =
      fun c => if !c.isColumn then c.condition? col else none := by
    funext c
    cases c with
    | onColumn => rfl
    | onAttribute =>
      simp [Call.request?, Call.condition?, Call.clause?, Call.isColumn, Request.image,
        Function.comp_def]
  rw [h.conditions, h.requests, hconditions, hbuffer, Request.imageAll_eq_map, List.nil_append,
    List.nil_append, List.map_filterMap, hclause, hrequest, Level.settle, List.filterMap_append,
    List.filterMap_filter, List.filterMap_filter]

theorem Called.exists_process (hconditions : b.base.conditions = []) (hbuffer : b.buffer = {})
    (hphase : b.phase ≠ .processed) (hpass : ∃ out, (b.stage catalogs).1 = .ok out)
    (hcalls : ∀ c ∈ calls, c.Valid b catalogs) (h : Called calls b b') :
    ∃ t catalogs' col, b'.process catalogs = (.ok (), t, catalogs') ∧
      t.base.conditions = (Level.settle Call.isColumn calls).filterMap (Call.condition? col) := by
  have hphase' : b'.phase ≠ .processed := h.phase ▸ hphase
  cases hp : b'.isPlain with
  | true =>
    refine ⟨_, _, Column.bare, process_of_isPlain hphase' hp, ?_⟩
    have hrequests : b'.buffer.requests = [] := by
      have hnone : b'.buffer.hasConditions = false := by
        unfold isPlain at hp
        simp only [Bool.and_eq_true, Bool.not_eq_true'] at hp
        exact hp.1
      rw [h.hasConditions, hbuffer, Bool.false_or, List.any_eq_false] at hnone
      rw [h.requests, hbuffer, List.nil_append, List.filterMap_eq_nil_iff]
      intro c hc
      have hcolumn := hnone c hc
      cases c with
      | onColumn => rfl
      | onAttribute => simp [Call.isColumn] at hcolumn
    have hfinal := h.conditions_append_image hconditions hbuffer Column.bare
    rwa [hrequests, Request.imageAll, List.append_nil] at hfinal
  | false =>
    obtain ⟨e, attributes, he, ha, hk⟩ := h.known hbuffer hpass hcalls hp
    have hsorts : ∀ r ∈ b'.buffer.sorts, r.code ∈ (b'.neededCodes b'.expansion).toList := by
      simp [h.sorts, hbuffer]
    obtain ⟨staged, hs⟩ := exists_stage hp he ha hk (fun code => h.mem_neededCodes hbuffer) hsorts
    obtain ⟨e', attributes', -, -, hstages⟩ := stages_of_stage hs
    refine ⟨_, _, (b'.schema e' attributes').columnOf (b'.rules (b'.schema e' attributes')) b'.index,
      process_of_stage hphase' hs, ?_⟩
    change (b'.commit staged).base.conditions = _
    rw [conditions_commit, hstages.conditions]
    exact h.conditions_append_image hconditions hbuffer _

end Builder

/-- The values of clauses of which each comes from the position listed for it. -/
def Valuation.moved (v : Valuation) (positions : List Nat) : Valuation
  | [] => v []
  | i :: place => v (positions.getD i 0 :: place)

namespace Call

theorem exists_condition {b : Builder} {catalogs : Catalogs} {c : Call} (hc : c.Valid b catalogs)
    (col : String → Column) :
    ∃ column t, c.condition? col = some (.test c.connective column t) := by
  cases c with
  | onColumn k name operator value =>
    obtain ⟨⟨column, hcolumn⟩, t, ht⟩ := hc
    exact ⟨column, t, by simp [condition?, clause?, hcolumn, ht, connective]⟩
  | onAttribute k code operator value =>
    obtain ⟨-, t, ht⟩ := hc
    exact ⟨col code, t, by simp [condition?, clause?, asked?, ht]⟩

theorem level_conditions {col : String → Column} {v w : Valuation}
    {placed : List (Call × Nat)} {i : Nat}
    (hconditions : ∀ p ∈ placed, ∃ column t,
      p.1.condition? col = some (.test p.1.connective column t))
    (hw : ∀ j (h : j < placed.length), w [i + j] = v [placed[j].2]) :
    Condition.level w i ((placed.map Prod.fst).filterMap (condition? col)) =
      Level.reading (fun p => p.1.connective) (fun p => v [p.2]) placed := by
  induction placed generalizing i with
  | nil => rfl
  | cons p rest ih =>
    obtain ⟨column, t, hp⟩ := hconditions p (by simp)
    have hw₀ : w [i] = v [p.2] := hw 0 (by simp)
    have hrest : ∀ j (h : j < rest.length), w [i + 1 + j] = v [rest[j].2] := by
      intro j h
      have hj := hw (j + 1) (by simpa using h)
      rwa [Nat.add_assoc, Nat.add_comm 1 j]
    rw [List.map_cons, List.filterMap_cons_some hp, Condition.level,
      ih (fun q hq => hconditions q (by simp [hq])) hrest]
    simp [Condition.isHollow, Condition.connective, Condition.eval, Valuation.inside, hw₀,
      Level.reading]

theorem evalAll_conditions {col : String → Column} {v w : Valuation} {placed : List (Call × Nat)}
    (hconditions : ∀ p ∈ placed, ∃ column t,
      p.1.condition? col = some (.test p.1.connective column t))
    (hw : ∀ j (h : j < placed.length), w [j] = v [placed[j].2]) :
    Condition.evalAll w ((placed.map Prod.fst).filterMap (condition? col)) =
      (Level.reading (fun p => p.1.connective) (fun p => v [p.2]) placed).value := by
  have hw₀ : ∀ j (h : j < placed.length), w [0 + j] = v [placed[j].2] := by simpa using hw
  rw [Condition.evalAll, level_conditions hconditions hw₀]

theorem map_eq_map_some {col : String → Column} {calls : List Call}
    (h : ∀ c ∈ calls, ∃ column t, c.condition? col = some (.test c.connective column t)) :
    calls.map (condition? col) = (calls.filterMap (condition? col)).map some := by
  induction calls with
  | nil => rfl
  | cons c rest ih =>
    obtain ⟨column, t, hc⟩ := h c (by simp)
    rw [List.map_cons, List.filterMap_cons_some hc, List.map_cons, hc,
      ih fun d hd => h d (by simp [hd])]

abbrev placed (calls : List Call) : List (Call × Nat) :=
  Level.settle (fun p : Call × Nat => p.1.isColumn) calls.zipIdx

theorem placed_map_fst (calls : List Call) :
    (placed calls).map Prod.fst = Level.settle isColumn calls := by
  rw [← @Level.settle_map Call isColumn (Call × Nat) Prod.fst, List.zipIdx_map_fst]

theorem mem_placed {calls : List Call} {p : Call × Nat} :
    p ∈ placed calls ↔ calls[p.2]? = some p.1 := by
  rw [(Level.perm_settle calls.zipIdx).mem_iff, List.mem_zipIdx_iff_getElem?]

theorem filterMap_positions {col : String → Column} {calls : List Call} {clauses : List Condition}
    (h : calls.map (condition? col) = clauses.map some) :
    (positions calls).filterMap (clauses[·]?) =
      (Level.settle isColumn calls).filterMap (condition? col) := by
  rw [← placed_map_fst, positions, List.filterMap_map, List.filterMap_map]
  apply List.filterMap_congr
  intro p hp
  have hget : (calls.map (condition? col))[p.2]? = (clauses.map some)[p.2]? := by rw [h]
  rw [List.getElem?_map, List.getElem?_map, mem_placed.mp hp] at hget
  cases hc : clauses[p.2]? with
  | none => simp [hc] at hget
  | some c => simpa [hc] using hget.symm

theorem exists_valuation (calls : List Call) (u : Call × Nat → Truth) :
    ∃ v : Valuation, ∀ p ∈ calls.zipIdx, v [p.2] = u p := by
  refine ⟨fun place => (place.head?.bind fun i => calls[i]?.map fun c => u (c, i)).getD .no, ?_⟩
  intro p hp
  simp [List.mem_zipIdx_iff_getElem?.mp hp]

/-- The clauses of calls keep their value in the order in which they stand in the end just where
moving the calls on columns to the front keeps it. -/
theorem value_positions_iff {col : String → Column} {calls : List Call}
    (h : ∀ c ∈ calls, ∃ column t, c.condition? col = some (.test c.connective column t)) :
    (∀ v : Valuation,
      Condition.evalAll (v.moved (positions calls))
          ((Level.settle isColumn calls).filterMap (condition? col)) =
        Condition.evalAll v (calls.filterMap (condition? col))) ↔
      Level.KeepsValue isColumn connective calls := by
  have hmoved (v : Valuation) : Condition.evalAll (v.moved (positions calls))
      ((Level.settle isColumn calls).filterMap (condition? col)) =
        (Level.reading (fun p : Call × Nat => p.1.connective) (fun p => v [p.2])
          (placed calls)).value := by
    rw [← placed_map_fst]
    apply evalAll_conditions
    · intro p hp
      exact h p.1 (List.mem_of_getElem? (mem_placed.mp hp))
    · intro j hj
      simp [Valuation.moved, positions, hj]
  have hcalls (v : Valuation) : Condition.evalAll v (calls.filterMap (condition? col)) =
      (Level.reading (fun p : Call × Nat => p.1.connective) (fun p => v [p.2])
        calls.zipIdx).value := by
    have hfst : calls.filterMap (condition? col) =
        (calls.zipIdx.map Prod.fst).filterMap (condition? col) := by rw [List.zipIdx_map_fst]
    rw [hfst]
    apply evalAll_conditions
    · intro p hp
      exact h p.1 (List.fst_mem_of_mem_zipIdx hp)
    · intro j hj
      simp
  have hnd : calls.zipIdx.Nodup := by
    apply List.Nodup.of_map Prod.snd
    rw [List.zipIdx_map_snd]
    exact List.nodup_range'
  have hkeeps : Level.KeepsValue isColumn connective calls ↔
      Level.KeepsValue (fun p : Call × Nat => p.1.isColumn) (fun p => p.1.connective)
        calls.zipIdx := by
    rw [← Level.keepsValue_map Prod.fst, List.zipIdx_map_fst]
  rw [hkeeps, ← Level.value_settle_iff hnd]
  constructor
  · intro hv u
    obtain ⟨v, hu⟩ := exists_valuation calls u
    have hread (l : List (Call × Nat)) (hl : ∀ p ∈ l, p ∈ calls.zipIdx) :
        Level.reading (fun p => p.1.connective) (fun p => v [p.2]) l =
          Level.reading (fun p => p.1.connective) u l :=
      List.map_congr_left fun p hp => congrArg (Prod.mk _) (hu p (hl p hp))
    have hv := hv v
    rw [hmoved, hcalls, hread calls.zipIdx fun p hp => hp] at hv
    rwa [hread (placed calls) fun p hp => (Level.perm_settle _).mem_iff.mp hp] at hv
  · intro hv v
    rw [hmoved, hcalls]
    exact hv _

end Call

/-- The clauses that valid calls on a fresh query make, and those that it has in the end: they are the
same up to their order, and that keeps their value just where the calls say so. -/
theorem Builder.value_of_calls_iff {b : Builder} {catalogs : Catalogs} {calls : List Call}
    (hconditions : b.base.conditions = []) (hbuffer : b.buffer = {}) (hphase : b.phase ≠ .processed)
    (hpass : ∃ out, (b.stage catalogs).1 = .ok out) (hcalls : ∀ c ∈ calls, c.Valid b catalogs) :
    ∃ b' t catalogs' col clauses,
      (Session.run ⟨b, catalogs⟩ (calls.map Call.step)).2 = .ok ⟨b', catalogs⟩ ∧
      b'.process catalogs = (.ok (), t, catalogs') ∧
      calls.map (Call.condition? col) = clauses.map some ∧
      t.base.conditions = (Call.positions calls).filterMap (clauses[·]?) ∧
      ((∀ v : Valuation, Condition.evalAll (v.moved (Call.positions calls)) t.base.conditions =
          Condition.evalAll v clauses) ↔
        Level.KeepsValue Call.isColumn Call.connective calls) := by
  obtain ⟨outcomes, b', hrun, hc⟩ := Session.run_calls hcalls b
  obtain ⟨t, catalogs', col, hprocess, ht⟩ :=
    hc.exists_process hconditions hbuffer hphase hpass hcalls
  have hsome : ∀ c ∈ calls, ∃ column t, c.condition? col = some (.test c.connective column t) :=
    fun c hm => Call.exists_condition (hcalls c hm) col
  have hmap := Call.map_eq_map_some hsome
  refine ⟨b', t, catalogs', col, calls.filterMap (Call.condition? col), by rw [hrun], hprocess, hmap,
    by rw [ht, Call.filterMap_positions hmap], ?_⟩
  rw [ht]
  exact Call.value_positions_iff hsome

namespace Sample

def calls (first second : Connective) : List Call :=
  [.onAttribute first "color" "=" (.string "red"), .onColumn second "products.id" "=" (.int 1)]

theorem calls_valid (first second : Connective) :
    ∀ c ∈ calls first second, c.Valid (.ofEntity .sqlite entity) catalogs := by
  intro c hc
  obtain rfl | rfl : c = _ ∨ c = _ := by simpa [calls] using hc
  · exact ⟨⟨_, _, rfl, rfl, rfl⟩, _, rfl⟩
  · exact ⟨⟨_, rfl⟩, _, rfl⟩

end Sample

theorem Builder.value_of_calls_sample :
    ∃ b' t catalogs' col clauses,
      (Session.run ⟨.ofEntity .sqlite Sample.entity, Sample.catalogs⟩
        ((Sample.calls .or .or).map Call.step)).2 = .ok ⟨b', Sample.catalogs⟩ ∧
      b'.process Sample.catalogs = (.ok (), t, catalogs') ∧
      (Sample.calls .or .or).map (Call.condition? col) = clauses.map some ∧
      t.base.conditions = (Call.positions (Sample.calls .or .or)).filterMap (clauses[·]?) ∧
      ∀ v : Valuation,
        Condition.evalAll (v.moved (Call.positions (Sample.calls .or .or))) t.base.conditions =
          Condition.evalAll v clauses := by
  have hphase : (Builder.ofEntity .sqlite Sample.entity).phase ≠ .processed := by decide
  have hpass : ∃ out, ((Builder.ofEntity .sqlite Sample.entity).stage Sample.catalogs).1 = .ok out :=
    ⟨_, rfl⟩
  obtain ⟨b', t, catalogs', col, clauses, hrun, hprocess, hclauses, ht, hv⟩ :=
    Builder.value_of_calls_iff rfl rfl hphase hpass (Sample.calls_valid .or .or)
  exact ⟨b', t, catalogs', col, clauses, hrun, hprocess, hclauses, ht, hv.mpr (by decide)⟩

/-- Called in this order, the clauses hold where the attribute has its value; in the end they stand the
other way round, joined by the `and` of the attribute, and both have to hold. -/
theorem exists_calls_losing_value :
    ∃ b' t catalogs' col clauses,
      (Session.run ⟨.ofEntity .sqlite Sample.entity, Sample.catalogs⟩
        ((Sample.calls .and .or).map Call.step)).2 = .ok ⟨b', Sample.catalogs⟩ ∧
      b'.process Sample.catalogs = (.ok (), t, catalogs') ∧
      (Sample.calls .and .or).map (Call.condition? col) = clauses.map some ∧
      t.base.conditions = (Call.positions (Sample.calls .and .or)).filterMap (clauses[·]?) ∧
      ∃ v : Valuation,
        Condition.evalAll v clauses = .yes ∧
        Condition.evalAll (v.moved (Call.positions (Sample.calls .and .or))) t.base.conditions =
          .no := by
  obtain ⟨outcomes, b', hrun, hc⟩ :=
    Session.run_calls (Sample.calls_valid .and .or) (.ofEntity .sqlite Sample.entity)
  have hphase : (Builder.ofEntity .sqlite Sample.entity).phase ≠ .processed := by decide
  have hpass : ∃ out, ((Builder.ofEntity .sqlite Sample.entity).stage Sample.catalogs).1 = .ok out :=
    ⟨_, rfl⟩
  obtain ⟨t, catalogs', col, hprocess, ht⟩ :=
    hc.exists_process rfl rfl hphase hpass (Sample.calls_valid .and .or)
  have hclauses : (Sample.calls .and .or).map (Call.condition? col) =
      [.test .and (col "color") (.compare .eq (.string "red")),
        .test .or (.qualified "products" "id") (.compare .eq (.int 1))].map some := rfl
  have hpositions : Call.positions (Sample.calls .and .or) = [1, 0] := by decide
  have ht := ht.trans (Call.filterMap_positions hclauses).symm
  refine ⟨b', t, catalogs', col, _, by rw [hrun], hprocess, hclauses, ht,
    fun place => if place = [0] then .yes else .no, rfl, ?_⟩
  rw [ht, hpositions]
  rfl

end EntityQuery
