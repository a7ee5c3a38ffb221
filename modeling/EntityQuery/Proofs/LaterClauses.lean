import EntityQuery.Proofs.ProcessedQueries
import EntityQuery.Proofs.Rows

namespace EntityQuery

/-- Whether the where clause rejects every row without a value in the column. -/
def Select.RejectsLacking (engine : Engine) (q : Select) (value : Column) : Prop :=
  ∀ row : Tuple, row value = .null → row.eval engine q.conditions ≠ .yes

/-- Whether a column has the values of an attribute that came in by an inner join. -/
def Builder.InnerJoined (b : Builder) (value : Column) : Prop :=
  ∃ code entity known, b.index.join? code entity = some known ∧ known.type = .inner ∧
    known.column = value

namespace Session

/-- A step that adds a clause of columns: a test, or a group whose query asks nothing of attributes. -/
def AddsClause (k : Connective) (s : Session) : Step → Prop
  | .filterColumn k' _ _ => k' = k
  | .group k' body => k' = k ∧
    ∀ u, (run (s.withBuilder s.builder.fresh) body).2 = .ok u →
      u.builder.buffer.hasConditions = false
  | .fold k' origin naming body => k' = k ∧
    ∀ u, (run (s.withBuilder (origin.builder naming s.builder)) body).2 = .ok u →
      u.builder.buffer.hasConditions = false
  | _ => False

end Session

def Builder.extend (b : Builder) (added : List Condition) : Builder :=
  { b with base := { b.base with conditions := b.base.conditions ++ added } }

/-- What a step adds to the clauses of a query: nothing, or one that it joins to them. -/
def Added (k : Connective) (added : List Condition) : Prop :=
  added = [] ∨ ∃ c, c.connective = k ∧ added = [c]

theorem Builder.extend_nil (b : Builder) : b.extend [] = b := by
  obtain ⟨base, _⟩ := b
  cases base
  simp [extend]

theorem Builder.addGroup_eq_extend (b : Builder) (k : Connective) {child : Builder}
    (hchild : child.buffer.hasConditions = false) :
    ∃ added, Added k added ∧ b.addGroup k child = b.extend added := by
  have hplain : ¬ child.buffer.hasConditions = true := by simp [hchild]
  unfold addGroup
  rw [if_neg hplain]
  by_cases hnone : child.base.conditions.isEmpty = true
  · refine ⟨[], .inl rfl, ?_⟩
    rw [if_pos hnone, extend_nil]
  · refine ⟨[.group k child.base.conditions], .inr ⟨_, rfl, rfl⟩, ?_⟩
    rw [if_neg hnone]
    rfl

namespace Session

variable {s t : Session} {k : Connective}

theorem extend_of_step {x : Step} (hx : s.AddsClause k x) (ht : (step s x).after = .ok t) :
    ∃ added, Added k added ∧ t.builder = s.builder.extend added := by
  cases x with
  | filterColumn k' column f =>
    obtain rfl : k' = k := hx
    obtain ⟨c, test, -, -, hb⟩ := Builder.filterColumn_eq_ok (filterColumn_of_step ht)
    exact ⟨[.test k' c test], .inr ⟨_, rfl, rfl⟩, hb⟩
  | group k' body =>
    obtain ⟨rfl, hbody⟩ := hx
    obtain ⟨u, hu, rfl⟩ := eq_ok_of_map ht
    exact s.builder.addGroup_eq_extend k' (hbody u hu)
  | fold k' origin naming body =>
    obtain ⟨rfl, hbody⟩ := hx
    obtain ⟨u, hu, rfl⟩ := eq_ok_of_map ht
    exact s.builder.addGroup_eq_extend k' (hbody u hu)
  | _ => exact hx.elim

end Session

namespace Builder

variable {b : Builder} {value : Column} {engine : Engine}

theorem InnerJoined.extend (h : b.InnerJoined value) (added : List Condition) :
    (b.extend added).InnerJoined value := h

theorem rejectsLacking_extend_and (h : b.base.RejectsLacking engine value) {added : List Condition}
    (hadded : Added .and added) : (b.extend added).base.RejectsLacking engine value := by
  intro row hrow
  obtain rfl | ⟨c, hk, rfl⟩ := hadded
  · simpa [Builder.extend] using h row hrow
  · exact row.eval_concat_and engine hk (h row hrow)

theorem rejectsLacking_extend_or (h : b.base.RejectsLacking engine value) {added : List Condition}
    (hadded : Added .or added) :
    (b.extend added).base.RejectsLacking engine value ↔
      ∀ c ∈ added, c.isHollow = true ∨
        ∀ row : Tuple, row value = .null → row.eval engine [c] ≠ .yes := by
  obtain rfl | ⟨c, hk, rfl⟩ := hadded
  · simpa [Builder.extend, Select.RejectsLacking] using h
  · rw [List.forall_mem_singleton]
    cases hc : c.isHollow with
    | true =>
      refine ⟨fun _ => .inl rfl, fun _ row hrow => ?_⟩
      have hsame := row.eval_concat_hollow engine hc b.base.conditions
      exact fun hyes => h row hrow (hsame.symm.trans hyes)
    | false =>
      constructor
      · intro hafter
        exact .inr fun row hrow =>
          (row.eval_concat_or engine hk hc (h row hrow)).mp (hafter row hrow)
      · rintro (hhollow | halone) row hrow
        · exact absurd hhollow (by simp)
        · exact (row.eval_concat_or engine hk hc (h row hrow)).mpr (halone row hrow)

end Builder

namespace Session

variable {s t : Session} {value : Column} {engine : Engine}

theorem rejectsLacking_of_run {steps : List Step} (hinner : s.builder.InnerJoined value)
    (h : s.builder.base.RejectsLacking engine value) (hsteps : s.Along (AddsClause .and) steps)
    (ht : (run s steps).2 = .ok t) :
    t.builder.InnerJoined value ∧ t.builder.base.RejectsLacking engine value := by
  induction steps generalizing s with
  | nil =>
    cases ht
    exact ⟨hinner, h⟩
  | cons x rest ih =>
    obtain ⟨u, hx, ht⟩ := run_cons_eq_ok.mp ht
    obtain ⟨added, hadded, hu⟩ := extend_of_step hsteps.1 hx
    apply ih (s := u) _ _ (hsteps.2 u hx) ht
    · rw [hu]
      exact hinner.extend added
    · rw [hu]
      exact Builder.rejectsLacking_extend_and h hadded

/-- A harmless inner join stays harmless whatever clauses of columns are added with `and`. A step that
adds one with `or` leaves it harmless just where the clause is not written, or rejects the rows without
the value itself. -/
theorem inner_join_stays_harmless (hinner : s.builder.InnerJoined value)
    (h : s.builder.base.RejectsLacking engine value) :
    (∀ steps t, s.Along (AddsClause .and) steps → (run s steps).2 = .ok t →
      t.builder.InnerJoined value ∧ t.builder.base.RejectsLacking engine value) ∧
    ∀ x t, s.AddsClause .or x → (step s x).after = .ok t →
      t.builder.InnerJoined value ∧
      ∃ added, t.builder.base.conditions = s.builder.base.conditions ++ added ∧
        (t.builder.base.RejectsLacking engine value ↔
          ∀ c ∈ added, c.isHollow = true ∨
            ∀ row : Tuple, row value = .null → row.eval engine [c] ≠ .yes) := by
  constructor
  · intro steps t hsteps ht
    exact rejectsLacking_of_run hinner h hsteps ht
  · intro x t hx ht
    obtain ⟨added, hadded, hb⟩ := extend_of_step hx ht
    rw [hb]
    exact ⟨hinner.extend added, added, rfl, Builder.rejectsLacking_extend_or h hadded⟩

end Session

namespace Sample

def joined : Session :=
  let b : Builder :=
    { Builder.ofEntity .sqlite entity with
      buffer := Buffer.addTest {} .and "color" (.compare .eq (.string "red")) }
  ⟨(b.process catalogs).2.1, (b.process catalogs).2.2⟩

def colorValue : Column := .qualified "color_attr" "value"

theorem conditions_joined : joined.builder.base.conditions =
    [.test .and colorValue (.compare .eq (.string "red"))] := rfl

theorem innerJoined_joined : joined.builder.InnerJoined colorValue :=
  ⟨"color", "product", _, rfl, rfl, rfl⟩

theorem rejectsLacking_joined (engine : Engine) :
    joined.builder.base.RejectsLacking engine colorValue := by
  intro row hrow
  have hvalue : row.eval engine [.test .and colorValue (.compare .eq (.string "red"))] =
      (Test.compare .eq (.string "red")).truth engine (row colorValue) := rfl
  have hunknown : (Test.compare .eq (.string "red")).truth engine .null = .unknown := rfl
  rw [conditions_joined, hvalue, hrow, hunknown]
  decide

def joinedWith (c : Condition) : Session := ⟨joined.builder.extend [c], joined.catalogs⟩

end Sample

theorem Session.inner_join_stays_harmless_sample :
    Sample.joined.builder.phase = .processed ∧ Sample.joined.builder.InnerJoined Sample.colorValue ∧
      (∀ engine, Sample.joined.builder.base.RejectsLacking engine Sample.colorValue) ∧
      ∃ t, (run Sample.joined [.group .and [.filterColumn .or "id" (.oneOf [.int 1])]]).2 = .ok t ∧
        ∀ engine, t.builder.base.RejectsLacking engine Sample.colorValue := by
  have hrun : (run Sample.joined [.group .and [.filterColumn .or "id" (.oneOf [.int 1])]]).2 =
      .ok (Sample.joinedWith (.group .and [.test .or (.bare "id") (.oneOf [.int 1] false)])) := rfl
  have hsteps : Sample.joined.Along (AddsClause .and)
      [.group .and [.filterColumn .or "id" (.oneOf [.int 1])]] :=
    ⟨⟨rfl, fun _ hu => by cases hu; rfl⟩, fun _ _ => trivial⟩
  refine ⟨rfl, Sample.innerJoined_joined, Sample.rejectsLacking_joined, _, hrun, ?_⟩
  intro engine
  exact ((inner_join_stays_harmless Sample.innerJoined_joined
    (Sample.rejectsLacking_joined engine)).1 _ _ hsteps hrun).2

/-- With `or` a clause can be added that lets rows without the color through. The join stays an inner
one, and these rows are lost. -/
theorem exists_clause_making_inner_join_harmful :
    Sample.joined.builder.phase = .processed ∧ Sample.joined.builder.InnerJoined Sample.colorValue ∧
      (∀ engine, Sample.joined.builder.base.RejectsLacking engine Sample.colorValue) ∧
      ∃ t, (Session.step Sample.joined (.filterColumn .or "products.sku"
          (.compare "=" .null))).after = .ok t ∧
        t.builder.InnerJoined Sample.colorValue ∧
        ∀ engine, ¬ t.builder.base.RejectsLacking engine Sample.colorValue := by
  refine ⟨rfl, Sample.innerJoined_joined, Sample.rejectsLacking_joined,
    Sample.joinedWith (.test .or (.qualified "products" "sku") (.compare .eq .null)), rfl,
    Sample.innerJoined_joined, ?_⟩
  intro engine h
  have hyes : Tuple.eval (fun _ => .null) engine
      [.test .and Sample.colorValue (.compare .eq (.string "red")),
        .test .or (.qualified "products" "sku") (.compare .eq .null)] = .yes := rfl
  exact h (fun _ => .null) rfl hyes

end EntityQuery
