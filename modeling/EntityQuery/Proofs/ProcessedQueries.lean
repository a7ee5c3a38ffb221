import EntityQuery.Proofs.Passes
import EntityQuery.Proofs.Runs

namespace EntityQuery

namespace Builder

/-- The looks of a pass into the catalog of a provider. A query that asks nothing of attributes needs
none, and one without an entity has nothing to look for. -/
def stageLooks (b : Builder) (provider : Nat) : Nat :=
  match b.entity with
  | none => 0
  | some e => if b.isPlain = false ∧ e.provider = provider then 1 else 0

def looks (b : Builder) (provider : Nat) : Nat :=
  if b.phase = .processed then 0 else b.stageLooks provider

variable (b : Builder) (c : Catalogs) (p : Nat)

theorem loads_stage : ((b.stage c).2 p).loads = (c p).loads + b.stageLooks p := by
  unfold stage stageLooks
  cases hp : b.isPlain with
  | true => cases b.entity <;> rfl
  | false =>
    cases b.entity with
    | none => rfl
    | some e =>
      by_cases he : p = e.provider
      · simp [he, Catalogs.load, Catalogs.put, Catalog.load]
      · simp [he, Ne.symm he, Catalogs.load, Catalogs.put]

theorem loads_process : ((b.process c).2.2 p).loads = (c p).loads + b.looks p := by
  unfold process looks
  split
  · rfl
  · have hloads := b.loads_stage c p
    generalize b.stage c = out at hloads ⊢
    obtain ⟨_ | _ | staged, c'⟩ := out <;> exact hloads

theorem loads_statement : ((b.statement c).2.2 p).loads = (c p).loads + b.looks p := by
  rw [statement_snd, loads_process]

theorem loads_union (type : UnionType) (member : Builder) :
    ((b.union type member c).2 p).loads = (c p).loads + member.looks p := by
  have hloads := member.loads_process c p
  unfold union
  generalize member.process c = out at hloads ⊢
  obtain ⟨_ | _, m, c'⟩ := out <;> exact hloads

theorem looks_le_one : b.looks p ≤ 1 := by
  unfold looks stageLooks
  split
  · exact Nat.zero_le 1
  · split
    · exact Nat.zero_le 1
    · split <;> decide

theorem provider_of_looks {p : Nat} (h : b.looks p ≠ 0) :
    ∃ e, b.entity = some e ∧ e.provider = p := by
  unfold looks stageLooks at h
  split at h
  · exact absurd rfl h
  · cases he : b.entity with
    | none => simp [he] at h
    | some e =>
      by_cases hp : e.provider = p
      · exact ⟨e, rfl, hp⟩
      · simp [he, hp] at h

theorem process_eq_ok_iff : (b.process c).1 = .ok () ↔ (b.process c).2.1.phase = .processed := by
  unfold process
  split
  · next hp => simp [hp]
  · generalize b.stage c = out
    obtain ⟨_ | _ | staged, c'⟩ := out <;> simp

theorem process_of_processed (h : b.phase = .processed) : b.process c = (.ok (), b, c) :=
  if_pos h

theorem statement_of_processed (h : b.phase = .processed) :
    b.statement c = (b.base.statement.mapError QueryError.render, b, c) := by
  unfold statement
  rw [b.process_of_processed c h]

/-- A processed query with the base query and the joins of another one. -/
structure SettledAs (b₀ b : Builder) : Prop where
  phase : b.phase = .processed
  base : b.base = b₀.base
  index : b.index = b₀.index

theorem SettledAs.refl (h : b.phase = .processed) : SettledAs b b := ⟨h, rfl, rfl⟩

end Builder

namespace Session

mutual

/-- The looks of a step into the catalog of a provider, those of the script inside it included. -/
def looks (p : Nat) (s : Session) : Step → Nat
  | .group _ body => looksAll p (s.withBuilder s.builder.fresh) body
  | .fold _ origin naming body => looksAll p (s.withBuilder (origin.builder naming s.builder)) body
  | .union _ origin naming body =>
    looksAll p (s.withBuilder (origin.builder naming s.builder)) body +
      match (run (s.withBuilder (origin.builder naming s.builder)) body).2 with
      | .ok u => u.builder.looks p
      | .error _ => 0
  | .process | .statement => s.builder.looks p
  | .preview => s.builder.stageLooks p
  | _ => 0

def looksAll (p : Nat) (s : Session) : List Step → Nat
  | [] => 0
  | x :: rest =>
    looks p s x +
      match (step s x).after with
      | .ok t => looksAll p t rest
      | .error _ => 0

end

theorem looksAll_cons {s t : Session} {x : Step} (h : (step s x).after = .ok t)
    (rest : List Step) (p : Nat) : looksAll p s (x :: rest) = looks p s x + looksAll p t rest := by
  rw [looksAll, h]

theorem catalog_of_change {s t : Session} {f : Builder → Except QueryError Builder}
    (h : s.change f = .ok t) : t.catalogs = s.catalogs := by
  obtain ⟨b, -, rfl⟩ := map_eq_ok.mp h
  rfl

mutual

theorem loads_step {s t : Session} (p : Nat) :
    ∀ x : Step, (step s x).after = .ok t →
      (t.catalogs p).loads = (s.catalogs p).loads + looks p s x
  | .filter .., h | .filterColumn .., h | .sortBy .., h | .sortByTimestamp _, h | .select _, h => by
    simp only [step] at h
    rw [catalog_of_change h]
    rfl
  | .group k body, h => by
    obtain ⟨u, hu, rfl⟩ := eq_ok_of_map h
    exact loads_run p body hu
  | .fold k origin naming body, h => by
    obtain ⟨u, hu, rfl⟩ := eq_ok_of_map h
    exact loads_run p body hu
  | .union type origin naming body, h => by
    -- The pass over the member comes after the script that builds it.
    obtain ⟨u, hu, -, hc⟩ := union_of_step h
    have hbody : (u.catalogs p).loads = _ := loads_run p body hu
    rw [looks, hu, hc, Builder.loads_union, hbody, Nat.add_assoc]
    rfl
  | .sortByAttribute .., h | .selectAttributes _, h | .limit _, h | .offset _, h | .restart, h
  | .rewrap, h | .withEntity _, h | .withNaming _, h | .insert _, h => by
    cases h
    rfl
  | .register e a, h => by
    cases h
    by_cases hp : p = e.provider <;> simp [looks, Catalogs.register, Catalogs.put, hp, Catalog.register]
  | .process, h => by
    cases h
    exact s.builder.loads_process s.catalogs p
  | .statement, h => by
    cases h
    exact s.builder.loads_statement s.catalogs p
  | .preview, h => by
    cases h
    exact s.builder.loads_stage s.catalogs p

/-- The count of looks goes up by those of the passes, and by no others. -/
theorem loads_run {s t : Session} (p : Nat) :
    ∀ steps : List Step, (run s steps).2 = .ok t →
      (t.catalogs p).loads = (s.catalogs p).loads + looksAll p s steps
  | [], h => by
    cases h
    rfl
  | x :: rest, h => by
    obtain ⟨u, hx, h⟩ := run_cons_eq_ok.mp h
    rw [loads_run p rest h, loads_step p x hx, looksAll_cons hx, Nat.add_assoc]

end

def Along (P : Session → Step → Prop) (s : Session) : List Step → Prop
  | [] => True
  | x :: rest => P s x ∧ ∀ t, (step s x).after = .ok t → Along P t rest

theorem Along.cons {P : Session → Step → Prop} {s t : Session} {x : Step} {rest : List Step}
    (hx : P s x) (ht : (step s x).after = .ok t) (hrest : t.Along P rest) :
    s.Along P (x :: rest) :=
  ⟨hx, fun _ hu => Except.ok.inj (ht.symm.trans hu) ▸ hrest⟩

/-- A step that is about attributes, their catalog or their names: it adds a predicate, an ordering or a
group whose query was asked for attributes, or has them processed. -/
def ConcernsAttributes (s : Session) : Step → Prop
  | .group _ body =>
    ∀ u, (run (s.withBuilder s.builder.fresh) body).2 = .ok u → u.builder.buffer.hasConditions = true
  | .fold _ origin naming body =>
    ∀ u, (run (s.withBuilder (origin.builder naming s.builder)) body).2 = .ok u →
      u.builder.buffer.hasConditions = true
  | .filter .. | .sortByAttribute .. | .withEntity _ | .withNaming _ | .register .. | .process
  | .statement => True
  | _ => False

end Session

def Step.IsGroup : Step → Prop
  | .group .. | .fold .. => True
  | _ => False

namespace Session

theorem settled_grouped {b₀ b : Builder} (h : b₀.SettledAs b) (k : Connective) {u : Session}
    (hasked : u.builder.buffer.hasConditions = true) : b₀.SettledAs (grouped b k u).builder := by
  simp only [grouped, Builder.addGroup, if_pos hasked]
  exact ⟨h.phase, h.base, h.index⟩

theorem settled_step {b₀ : Builder} {s t : Session} (h : b₀.SettledAs s.builder) :
    ∀ x : Step, ConcernsAttributes s x → (step s x).after = .ok t → b₀.SettledAs t.builder
  | .filter k code f, _, ht => by
    obtain ⟨test, -, hb⟩ := Builder.filter_eq_ok (filter_of_step ht)
    rw [hb]
    exact ⟨h.phase, h.base, h.index⟩
  | .group k body, hx, ht => by
    obtain ⟨u, hu, rfl⟩ := eq_ok_of_map ht
    exact settled_grouped h k (hx u hu)
  | .fold k origin naming body, hx, ht => by
    obtain ⟨u, hu, rfl⟩ := eq_ok_of_map ht
    exact settled_grouped h k (hx u hu)
  | .sortByAttribute .., _, ht | .withEntity _, _, ht | .withNaming _, _, ht
  | .register .., _, ht => by
    cases ht
    exact ⟨h.phase, h.base, h.index⟩
  | .process, _, ht => by
    cases ht
    change b₀.SettledAs (s.builder.process s.catalogs).2.1
    rwa [s.builder.process_of_processed s.catalogs h.phase]
  | .statement, _, ht => by
    cases ht
    change b₀.SettledAs (s.builder.statement s.catalogs).2.1
    rwa [s.builder.statement_of_processed s.catalogs h.phase]

theorem settled_run {b₀ : Builder} {s t : Session} {steps : List Step}
    (h : b₀.SettledAs s.builder) (hsteps : s.Along ConcernsAttributes steps)
    (ht : (run s steps).2 = .ok t) : b₀.SettledAs t.builder := by
  induction steps generalizing s with
  | nil =>
    cases ht
    exact h
  | cons x rest ih =>
    obtain ⟨u, hx, ht⟩ := run_cons_eq_ok.mp ht
    exact ih (settled_step h x hsteps.1 hx) (hsteps.2 u hx) ht

theorem looks_of_processed {s : Session} {x : Step} {p : Nat} (h : s.builder.phase = .processed)
    (hx : ConcernsAttributes s x) (hgroup : x.IsGroup → looks p s x = 0) : looks p s x = 0 := by
  cases x with
  | group | fold => exact hgroup trivial
  | process | statement => exact if_pos h
  | union | preview => exact hx.elim
  | _ => rfl

theorem looksAll_of_processed {s t : Session} {steps : List Step} {p : Nat}
    (h : s.builder.phase = .processed) (hsteps : s.Along ConcernsAttributes steps)
    (hgroups : s.Along (fun s x => x.IsGroup → looks p s x = 0) steps)
    (ht : (run s steps).2 = .ok t) : looksAll p s steps = 0 := by
  induction steps generalizing s with
  | nil => rfl
  | cons x rest ih =>
    obtain ⟨u, hx, ht⟩ := run_cons_eq_ok.mp ht
    have hu := (settled_step (.refl _ h) x hsteps.1 hx).phase
    rw [looksAll_cons hx, looks_of_processed h hsteps.1 hgroups.1,
      ih hu (hsteps.2 u hx) (hgroups.2 u hx) ht]

/-- The pass takes effect once. Of a query that has been processed, no run of calls, changes of the
catalog or the names, and steps that ask for attributes changes the base query, the joins or the
statement, and it makes no look into the catalog unless a query inside a group does. In every run the
looks are those of the passes, each of which makes one at most. -/
theorem pass_takes_effect_once (s : Session) :
    ((s.builder.process s.catalogs).1 = .ok () ↔
      (s.builder.process s.catalogs).2.1.phase = .processed) ∧
    (s.builder.phase = .processed → ∀ steps t, s.Along ConcernsAttributes steps →
      (run s steps).2 = .ok t →
        (∀ c, (t.builder.statement c).1 = (s.builder.statement s.catalogs).1) ∧
        t.builder.phase = .processed ∧ t.builder.base = s.builder.base ∧
        t.builder.index = s.builder.index ∧
        ∀ p, s.Along (fun s x => x.IsGroup → looks p s x = 0) steps →
          (t.catalogs p).loads = (s.catalogs p).loads) ∧
    (∀ p steps t, (run s steps).2 = .ok t →
      (t.catalogs p).loads = (s.catalogs p).loads + looksAll p s steps) ∧
    (∀ p type member c,
      ((s.builder.union type member c).2 p).loads = (c p).loads + member.looks p) ∧
    ∀ p, s.builder.looks p ≤ 1 ∧
      (s.builder.looks p ≠ 0 → ∃ e, s.builder.entity = some e ∧ e.provider = p) := by
  refine ⟨s.builder.process_eq_ok_iff s.catalogs, ?_, fun p steps _ ht => loads_run p steps ht,
    fun p type member c => s.builder.loads_union c p type member,
    fun p => ⟨s.builder.looks_le_one p, s.builder.provider_of_looks⟩⟩
  intro h steps t hsteps ht
  have hsettled := settled_run (.refl _ h) hsteps ht
  refine ⟨?_, hsettled.phase, hsettled.base, hsettled.index, ?_⟩
  · intro c
    rw [Builder.statement_of_processed _ _ hsettled.phase, Builder.statement_of_processed _ _ h,
      hsettled.base]
  · intro p hgroups
    rw [loads_run p steps ht, looksAll_of_processed h hsteps hgroups ht, Nat.add_zero]

end Session

namespace Sample

def settled : Session := ⟨(query.process catalogs).2.1, (query.process catalogs).2.2⟩

def asking : List Step :=
  [.register entity weight, .filter .and "weight" (.isNull false), .withNaming { labelSuffix := "_w" },
    .group .or [.filter .and "size" (.compare "=" (.string "L")), .sortBy "id" .asc],
    .sortByAttribute "size" .desc, .process, .statement]

end Sample

theorem Session.pass_takes_effect_once_sample :
    Sample.settled.builder.phase = .processed ∧
      Sample.settled.Along ConcernsAttributes Sample.asking ∧
      ∃ t, (run Sample.settled Sample.asking).2 = .ok t ∧
        (∀ c, (t.builder.statement c).1 =
          (Sample.settled.builder.statement Sample.settled.catalogs).1) ∧
        t.builder.base = Sample.settled.builder.base ∧
        t.builder.index = Sample.settled.builder.index ∧
        (t.catalogs 0).loads = (Sample.settled.catalogs 0).loads := by
  have hasking : Sample.settled.Along ConcernsAttributes Sample.asking :=
    .cons trivial rfl (.cons trivial rfl (.cons trivial rfl (.cons (fun _ hu => by cases hu; rfl) rfl
      (.cons trivial rfl (.cons trivial rfl (.cons trivial rfl trivial))))))
  have hgroups : Sample.settled.Along (fun s x => x.IsGroup → looks 0 s x = 0) Sample.asking :=
    .cons (fun h => h.elim) rfl (.cons (fun h => h.elim) rfl (.cons (fun h => h.elim) rfl
      (.cons (fun _ => rfl) rfl (.cons (fun h => h.elim) rfl (.cons (fun h => h.elim) rfl
        (.cons (fun h => h.elim) rfl trivial))))))
  obtain ⟨t, ht⟩ : ∃ t, (run Sample.settled Sample.asking).2 = .ok t := ⟨_, rfl⟩
  obtain ⟨hstatement, -, hbase, hindex, hloads⟩ :=
    (pass_takes_effect_once Sample.settled).2.1 rfl Sample.asking t hasking ht
  exact ⟨rfl, hasking, t, ht, hstatement, hbase, hindex, hloads 0 hgroups⟩

end EntityQuery
