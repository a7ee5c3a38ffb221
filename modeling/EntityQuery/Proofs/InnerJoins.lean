import EntityQuery.Proofs.Evaluation
import EntityQuery.Proofs.JoinDemand
import EntityQuery.Proofs.Passes
import EntityQuery.Proofs.Runs

namespace EntityQuery

def Condition.sub? : List Nat → Condition → Option Condition
  | [], c => some c
  | i :: place, .group _ members => members[i]?.bind (sub? place)
  | _ :: _, .test .. => none

namespace Request

mutual

/-- The places, below the clause of a request, of the tests of `code` that need a value. -/
def sites (code : String) : Request → List (List Nat)
  | test _ c t => if c = code ∧ t.needsValue = true then [[]] else []
  | group _ _ { base, buffer := { requests, .. }, .. } =>
    sitesAll code base.conditions.length requests

def sitesAll (code : String) (i : Nat) : List Request → List (List Nat)
  | [] => []
  | r :: rest => (sites code r).map (i :: ·) ++ sitesAll code (i + 1) rest

end

mutual

theorem test_of_mem_sites (col : String → Column) (code : String) :
    ∀ (r : Request) (place : List Nat), place ∈ sites code r →
      ∃ k t, (image col r).sub? place = some (.test k (col code) t) ∧ t.needsValue = true
  | .test connective c t, place, hp => by
    rw [sites] at hp
    split at hp
    · next hc =>
      obtain ⟨rfl, hn⟩ := hc
      obtain rfl := List.mem_singleton.mp hp
      exact ⟨connective, t, rfl, hn⟩
    · simp at hp
  | .group connective groupCodes { base, buffer := { requests, .. }, .. }, place, hp => by
    obtain ⟨i, rest, rfl, h⟩ := test_of_mem_sitesAll col code base.conditions requests place hp
    exact h

theorem test_of_mem_sitesAll (col : String → Column) (code : String) (conditions : List Condition) :
    ∀ (rs : List Request) (place : List Nat), place ∈ sitesAll code conditions.length rs →
      ∃ i rest, place = i :: rest ∧ ∃ k t,
        (conditions ++ imageAll col rs)[i]?.bind (Condition.sub? rest) =
          some (.test k (col code) t) ∧ t.needsValue = true
  | [], place, hp => by simp [sitesAll] at hp
  | r :: rs, place, hp => by
    rw [sitesAll] at hp
    obtain hp | hp := List.mem_append.mp hp
    · obtain ⟨rest, hr, rfl⟩ := List.mem_map.mp hp
      obtain ⟨k, t, h⟩ := test_of_mem_sites col code r rest hr
      exact ⟨_, rest, rfl, k, t, by simpa [imageAll] using h⟩
    · have hlen : conditions.length + 1 = (conditions ++ [image col r]).length := by simp
      obtain ⟨i, rest, rfl, h⟩ :=
        test_of_mem_sitesAll col code (conditions ++ [image col r]) rs place (hlen ▸ hp)
      exact ⟨i, rest, rfl, by simpa [imageAll] using h⟩

end

theorem conjunction_image (col : String → Column) {conditions : List Condition}
    {requests : List Request}
    (h : isConjunction
      (conditions.map Condition.connective ++ requests.map Request.connective) = true) :
    ∀ k ∈ ((conditions ++ imageAll col requests).map Condition.connective).tail, k = .and := by
  rw [List.map_append, connectives_imageAll]
  simpa [isConjunction] using h

mutual

/-- A request that insists on a value is written, and fails together with the tests that need it. -/
theorem eval_image_ne_yes (col : String → Column) (code : String) (v : Valuation) :
    ∀ r : Request, insists code r = true → (∀ place ∈ sites code r, v place ≠ .yes) →
      (image col r).isHollow = false ∧ (image col r).eval v ≠ .yes
  | .test connective c t, hi, hv => by
    have hc : c = code ∧ t.needsValue = true := by simpa [insists] using hi
    refine ⟨rfl, ?_⟩
    rw [image, Condition.eval]
    exact hv [] (by simp [sites, hc])
  | .group connective groupCodes { base, buffer := { requests, .. }, .. }, hi, hv => by
    rw [insists, Bool.and_eq_true] at hi
    obtain ⟨hconj, hi⟩ := hi
    obtain ⟨x, hx, hne⟩ := level_image_ne_yes col code v base.conditions.length requests hi hv
    have hmem : x ∈ Condition.level v 0 (base.conditions ++ imageAll col requests) := by
      rw [Condition.level_append, Nat.zero_add]
      exact List.mem_append_right _ hx
    constructor
    · rw [image, Condition.isHollow, Bool.eq_false_iff]
      intro hh
      rw [(Condition.level_eq_nil_iff v 0 _).mpr hh] at hmem
      simp at hmem
    · rw [image, Condition.eval]
      exact Condition.evalAll_ne_yes v (conjunction_image col hconj) ⟨x, hmem, hne⟩

theorem level_image_ne_yes (col : String → Column) (code : String) (v : Valuation) (i : Nat) :
    ∀ rs : List Request, insistsAll code rs = true → (∀ place ∈ sitesAll code i rs, v place ≠ .yes) →
      ∃ x ∈ Condition.level v i (imageAll col rs), x.2 ≠ .yes
  | [], hi, _ => by simp [insistsAll] at hi
  | r :: rest, hi, hv => by
    rw [insistsAll, Bool.or_eq_true] at hi
    obtain hi | hi := hi
    · obtain ⟨hh, hne⟩ := eval_image_ne_yes col code (v.inside i) r hi
        fun place hp => hv (i :: place) (by simp [sitesAll, hp])
      exact ⟨_, by rw [imageAll, Condition.level, if_neg (by simp [hh])]; exact .head _, hne⟩
    · obtain ⟨x, hx, hne⟩ := level_image_ne_yes col code v (i + 1) rest hi
        fun place hp => hv place (by simp [sitesAll, hp])
      refine ⟨x, ?_, hne⟩
      rw [imageAll, Condition.level]
      split
      · exact hx
      · exact .tail _ hx

end

end Request

namespace Builder

/-- No join that the query has already, for another attribute of its entity, has the name of the join
for `code`. -/
def NameFree (b : Builder) (code : String) : Prop :=
  ∀ e other known, b.entity = some e → b.index.join? other e.code = some known →
    known.label = b.naming.label code → other = code

theorem nameFree_of_index_empty {b : Builder} (h : b.index = ∅) (code : String) :
    b.NameFree code := by
  intro e other known _ hk
  rw [h] at hk
  cases hk

theorem nameFree_of_run {s t : Session} {steps : List Step} (hs : s.builder.index = ∅)
    (h : (s.run steps).2 = .ok t) (ht : t.builder.phase ≠ .processed) (code : String) :
    t.builder.NameFree code :=
  nameFree_of_index_empty (Session.index_of_run hs h ht) code

theorem type_staged {b : Builder} {catalogs : Catalogs} {staged : Staged} {code : String}
    (h : (b.stage catalogs).1 = .ok (some staged)) (hfree : b.NameFree code) {j : Join}
    (hj : j ∈ staged.joins) (hlabel : j.label = some (b.naming.label code)) :
    ∃ attributes, j.type = (b.joinTypes b.expansion attributes).type code := by
  obtain ⟨e, attributes, he, -, hs⟩ := stages_of_stage h
  obtain ⟨s, hr, hjoins, -⟩ := hs.joins
  have ht : JoinStage.Typed (b.rules (b.schema e attributes)) code s :=
    hr.typed ⟨fun other known => hfree e other known he, by simp⟩
  exact ⟨_, ht.type_eq j (hjoins ▸ hj) hlabel⟩

/-- Inner joins lose no row that the where clause would keep: where the tests fail that need the value
of an attribute joined so, the where clause fails. -/
theorem inner_join_keeps_rows {b : Builder} {catalogs : Catalogs} {staged : Staged} {code : String}
    (h : (b.stage catalogs).1 = .ok (some staged)) (hfree : b.NameFree code) {j : Join}
    (hj : j ∈ staged.joins) (hlabel : j.label = some (b.naming.label code))
    (hinner : j.type = .inner) (v : Valuation)
    (hv : ∀ place ∈ Request.sitesAll code b.base.conditions.length b.buffer.requests,
      v place ≠ .yes) :
    Condition.evalAll v (b.commit staged).base.conditions ≠ .yes := by
  obtain ⟨e, attributes, -, -, hs⟩ := stages_of_stage h
  obtain ⟨_, htype⟩ := type_staged h hfree hj hlabel
  obtain ⟨hconj, hi⟩ := (Buffer.demand_eq_inner _ _ _).mp (type_joinTypes.mp (htype ▸ hinner)).2
  obtain ⟨x, hx, hne⟩ := Request.level_image_ne_yes
    ((b.schema e attributes).columnOf (b.rules (b.schema e attributes)) b.index) code v
    b.base.conditions.length b.buffer.requests hi hv
  rw [conditions_commit, hs.conditions]
  refine Condition.evalAll_ne_yes v (Request.conjunction_image _ hconj) ⟨x, ?_, hne⟩
  rw [Condition.level_append, Nat.zero_add]
  exact List.mem_append_right _ hx

theorem inner_join_keeps_rows_sample :
    ∃ staged, (Sample.query.stage Sample.catalogs).1 = .ok (some staged) ∧
      Sample.query.NameFree "color" ∧
      (∃ j ∈ staged.joins, j.label = some "color_attr" ∧ j.type = .inner) ∧
      Condition.evalAll (fun place => if place = [0] then .unknown else .yes)
        (Sample.query.commit staged).base.conditions ≠ .yes := by
  have hfree : Sample.query.NameFree "color" := nameFree_of_index_empty rfl "color"
  have hstage : ∃ staged, (Sample.query.stage Sample.catalogs).1 = .ok (some staged) ∧
      ∃ j ∈ staged.joins, j.label = some "color_attr" ∧ j.type = .inner :=
    ⟨_, rfl, _, .head _, rfl, rfl⟩
  obtain ⟨staged, h, j, hj, hlabel, hinner⟩ := hstage
  exact ⟨staged, h, hfree, ⟨j, hj, hlabel, hinner⟩,
    inner_join_keeps_rows h hfree hj hlabel hinner _ (by decide)⟩

end Builder

namespace Sample

def overlapping : Catalogs :=
  (Catalogs.empty.register entity (.ofEntity entity 1 "a" .varchar)).register entity
    (.ofEntity entity 2 "ab" .varchar)

/-- A query with the join for `ab`, in which joins then get other names: the one for `a` would have
the name of the one for `ab`. -/
def renamed : Builder :=
  let b := { Builder.ofEntity .sqlite entity with naming := { labelSuffix := "c" } }.sortByAttribute
    "ab" .asc
  let b := (b.process overlapping).2.1
  { b with
    naming := { labelSuffix := "bc" }
    buffer := b.buffer.addTest .and "ab" (.isNull true) }.selectAttributes ["a"]

end Sample

/-- Where a query that has its joins already is staged again under other names, a join may be taken
for that of another attribute, and be an inner one that loses rows: here no predicate is about `a`. -/
theorem exists_inner_join_losing_row :
    ∃ staged, (Sample.renamed.stage Sample.overlapping).1 = .ok (some staged) ∧
      (∃ j ∈ staged.joins, j.label = some (Sample.renamed.naming.label "a") ∧ j.type = .inner) ∧
      Request.sitesAll "a" Sample.renamed.base.conditions.length Sample.renamed.buffer.requests =
        [] ∧
      Condition.evalAll (fun _ => .yes) (Sample.renamed.commit staged).base.conditions = .yes :=
  ⟨_, rfl, ⟨_, .head _, rfl, rfl⟩, rfl, rfl⟩

end EntityQuery
