import EntityQuery.Proofs.CommittedJoins
import EntityQuery.Proofs.InnerJoins
import EntityQuery.Proofs.JoinOrder
import Mathlib.Data.List.Induction

namespace EntityQuery

/-- One level of a where clause: the clauses that are there, and the predicates behind them. -/
structure WhereLevel where
  conditions : List Condition
  requests : List Request

namespace WhereLevel

def connectives (l : WhereLevel) : List Connective :=
  l.conditions.map Condition.connective ++ l.requests.map Request.connective

def HasNoOr (l : WhereLevel) : Prop := ∀ k ∈ l.connectives.tail, k ≠ .or

def HasGroup (l m : WhereLevel) : Prop :=
  ∃ k codes q, .group k codes q ∈ l.requests ∧ m = ⟨q.base.conditions, q.buffer.requests⟩

def Needs (l : WhereLevel) (code : String) : Prop :=
  ∃ k t, .test k code t ∈ l.requests ∧ t.needsValue = true

/-- A level that is reached through levels without `or`, and has none itself. -/
inductive Requires : WhereLevel → WhereLevel → Prop
  | here {l : WhereLevel} (h : l.HasNoOr) : Requires l l
  | inside {l m n : WhereLevel} (h : l.HasNoOr) (hgroup : l.HasGroup m) (hm : Requires m n) :
    Requires l n

variable {l m : WhereLevel} {code : String}

theorem isConjunction_iff : isConjunction l.connectives = true ↔ l.HasNoOr := by
  unfold isConjunction HasNoOr
  rw [List.all_eq_true]
  refine forall₂_congr fun k _ => ?_
  cases k <;> simp

end WhereLevel

namespace Request

open WhereLevel

theorem insistsAll_eq_true {code : String} {rs : List Request} :
    insistsAll code rs = true ↔ ∃ r ∈ rs, insists code r = true := by
  induction rs with
  | nil => simp [insistsAll]
  | cons r rest ih => simp [insistsAll, ih]

theorem insists_group {code : String} {k : Connective} {codes : CodeSet} {q : Builder} :
    insists code (.group k codes q) =
      (isConjunction (connectives ⟨q.base.conditions, q.buffer.requests⟩) &&
        insistsAll code q.buffer.requests) := by
  obtain ⟨_, _, ⟨⟩⟩ := q
  rfl

theorem insists_of_requires {code : String} {l m : WhereLevel} (h : l.Requires m)
    (hneeds : m.Needs code) : l.HasNoOr ∧ insistsAll code l.requests = true := by
  induction h with
  | here h =>
    obtain ⟨k, t, hm, ht⟩ := hneeds
    exact ⟨h, insistsAll_eq_true.mpr ⟨_, hm, by simp [insists, ht]⟩⟩
  | @inside l m _ h hgroup _ ih =>
    obtain ⟨k, codes, q, hm, rfl⟩ := hgroup
    obtain ⟨hor, hall⟩ := ih hneeds
    refine ⟨h, insistsAll_eq_true.mpr ⟨_, hm, ?_⟩⟩
    rw [insists_group, isConjunction_iff.mpr hor, hall, Bool.and_self]

mutual

theorem requires_of_insists {code : String} {l : WhereLevel} (h : l.HasNoOr) :
    ∀ r : Request, r ∈ l.requests → insists code r = true → ∃ m, l.Requires m ∧ m.Needs code
  | .test k c t, hm, hi => by
    have hc : c = code ∧ t.needsValue = true := by simpa [insists] using hi
    obtain ⟨rfl, ht⟩ := hc
    exact ⟨l, .here h, k, t, hm, ht⟩
  | .group k codes { base, buffer := { requests, .. }, .. }, hm, hi => by
    rw [insists_group, Bool.and_eq_true] at hi
    obtain ⟨hor, hi⟩ := hi
    obtain ⟨n, hn, hneeds⟩ := requires_of_insistsAll (l := ⟨base.conditions, requests⟩)
      (isConjunction_iff.mp hor) requests (fun _ hr => hr) hi
    exact ⟨n, .inside h ⟨k, codes, _, hm, rfl⟩ hn, hneeds⟩

theorem requires_of_insistsAll {code : String} {l : WhereLevel} (h : l.HasNoOr) :
    ∀ rs : List Request, (∀ r ∈ rs, r ∈ l.requests) → insistsAll code rs = true →
      ∃ m, l.Requires m ∧ m.Needs code
  | [], _, hi => by simp [insistsAll] at hi
  | r :: rest, hm, hi => by
    rw [insistsAll, Bool.or_eq_true] at hi
    obtain ⟨hr, hrest⟩ := List.forall_mem_cons.mp hm
    obtain hi | hi := hi
    · exact requires_of_insists h r hr hi
    · exact requires_of_insistsAll h rest hrest hi

end

end Request

/-- The predicates of a query demand an inner join where the whole where clause requires a level with a
predicate that needs a value. -/
theorem Buffer.demand_eq_inner_iff (b : Buffer) (conditions : List Condition) (code : String) :
    (b.demand conditions).type code = .inner ↔
      ∃ m, WhereLevel.Requires ⟨conditions, b.requests⟩ m ∧ m.Needs code := by
  rw [b.demand_eq_inner]
  constructor
  · rintro ⟨hor, hi⟩
    exact Request.requires_of_insistsAll (WhereLevel.isConjunction_iff.mp hor) b.requests
      (fun _ hr => hr) hi
  · rintro ⟨m, hm, hneeds⟩
    obtain ⟨hor, hi⟩ := Request.insists_of_requires hm hneeds
    exact ⟨WhereLevel.isConjunction_iff.mpr hor, hi⟩

namespace JoinStage

variable {rules : JoinRules} {order : List Attribute}

/-- What attributes are joined does not depend on the order in which they are asked for, nor does the
type of a join. -/
theorem mem_joinAll {attributes : Attributes} (h : ∀ a ∈ order, a ∈ attributes.toList) {j : Join} :
    j ∈ (joinAll rules order {}).joins ↔ ∃ id code table storage,
      .dynamic id code table storage ∈ order ∧
        j = rules.join id code table (rules.types.type code) := by
  rw [(joinAll_eq h).2, List.mem_filterMap]
  simp only [List.mem_eraseDups]
  constructor
  · rintro ⟨a, ha, hj⟩
    cases a with
    | static => cases hj
    | dynamic id code table storage =>
      cases hj
      exact ⟨id, code, table, storage, ha, rfl⟩
  · rintro ⟨id, code, table, storage, ha, rfl⟩
    exact ⟨_, ha, rfl⟩

theorem nodup_joinAll : (joinAll rules order {}).joins.Nodup :=
  .of_map _ ((Reaches.joinAll rules order {}).paired (.nil : Paired rules {})).nodup_references

end JoinStage

namespace Builder

/-- The join for an attribute is to be an inner one: no wildcard keeps the attribute optional, and the
where clause requires a level with a predicate that needs a value of it. -/
def WantsInner (b : Builder) (code : String) : Prop :=
  .attributes ∉ b.base.items ∧
    ∃ m, WhereLevel.Requires ⟨b.base.conditions, b.buffer.requests⟩ m ∧ m.Needs code

variable {b : Builder} {schema : Schema}

theorem type_rules {a : Attribute} (ha : a ∈ schema.attributes.toList) (hd : a.isDynamic = true) :
    (b.rules schema).types.type a.code = .inner ↔ b.WantsInner a.code := by
  have hadded : b.expansion.isEvery = true ∧ a.code ∈ b.expansion.added schema.attributes ↔
      .attributes ∈ b.base.items := by
    rw [expansion, ← Expansion.isEvery_classify]
    refine and_iff_left_of_imp fun hevery => ?_
    cases hx : Expansion.classify b.base.items with
    | every kept => exact List.mem_map_of_mem (List.mem_filter.mpr ⟨ha, hd⟩)
    | untouched | named => rw [hx] at hevery; cases hevery
  unfold WantsInner rules
  rw [type_joinTypes, hadded, b.buffer.demand_eq_inner_iff]

theorem mem_of_asked {a : Attribute} (ha : a ∈ b.asked schema) : a ∈ schema.attributes.toList := by
  have hnamed {codes : List String} (h : a ∈ schema.named codes) : a ∈ schema.attributes.toList := by
    obtain ⟨code, -, hfind⟩ := List.mem_filterMap.mp h
    exact List.mem_of_find?_eq_some hfind
  unfold asked at ha
  obtain ha | ha := List.mem_append.mp ha
  · obtain ha | ha := List.mem_append.mp ha
    · unfold Expansion.projected at ha
      split at ha
      · cases ha
      · exact (List.mem_filter.mp ha).1
    · exact hnamed ha
  · exact hnamed ha

theorem Joins.joins_eq {staged : Staged} (hj : b.Joins schema staged) (hindex : b.index = ∅) :
    staged.joins = (JoinStage.joinAll (b.rules schema) (b.asked schema) {}).joins := by
  have hstage := hj.stage
  rw [hindex] at hstage
  exact congrArg JoinStage.joins hstage

theorem Joins.mem_iff {staged : Staged} (hj : b.Joins schema staged) (hindex : b.index = ∅) {j : Join} :
    j ∈ staged.joins ↔ ∃ id code table storage, .dynamic id code table storage ∈ b.asked schema ∧
      j = (b.rules schema).join id code table ((b.rules schema).types.type code) := by
  rw [hj.joins_eq hindex, JoinStage.mem_joinAll fun a ha => mem_of_asked ha]

/-- The joins that a pass stages are those of dynamic attributes of the entity, and a join is an inner
one just if one is wanted for its attribute. Who comes to an attribute first does not matter: the joins
are the same, in another order, if the attributes are asked for in another order. -/
theorem staged_join_types {catalogs : Catalogs} {staged : Staged} (hindex : b.index = ∅)
    (h : (b.stage catalogs).1 = .ok (some staged)) :
    ∃ e attributes, b.entity = some e ∧ catalogs.attributes? e = some attributes ∧
      b.Joins (b.schema e attributes) staged ∧
      (∀ j ∈ staged.joins, ∃ id code table storage,
        attributes.find? code = some (.dynamic id code table storage) ∧
          j = (b.rules (b.schema e attributes)).join id code table j.type ∧
          (j.type = .inner ↔ b.WantsInner code)) ∧
      ∀ order, order.Perm (b.asked (b.schema e attributes)) →
        (JoinStage.joinAll (b.rules (b.schema e attributes)) order {}).joins.Perm staged.joins := by
  obtain ⟨e, attributes, he, ha, -, hjoins⟩ := joins_of_stage h
  refine ⟨e, attributes, he, ha, hjoins, fun j hj => ?_, fun order horder => ?_⟩
  · obtain ⟨id, code, table, storage, hasked, rfl⟩ := (hjoins.mem_iff hindex).mp hj
    have hfind := Keyed.find?_of_mem (mem_of_asked hasked)
    rw [find?_schema (by rw [hfind]; rfl)] at hfind
    exact ⟨id, code, table, storage, hfind, rfl, type_rules (mem_of_asked hasked) rfl⟩
  · rw [hjoins.joins_eq hindex,
      List.perm_ext_iff_of_nodup JoinStage.nodup_joinAll JoinStage.nodup_joinAll]
    intro j
    rw [JoinStage.mem_joinAll fun a ha => mem_of_asked ha,
      JoinStage.mem_joinAll fun a ha => mem_of_asked (horder.mem_iff.mp ha)]
    simp only [horder.mem_iff]

/-- The predicate on the color has to hold. The one on the size is an alternative to a clause of its
group. -/
theorem staged_join_types_sample :
    Sample.query.index = ∅ ∧ ∃ staged, (Sample.query.stage Sample.catalogs).1 = .ok (some staged) ∧
      staged.joins.map (fun j => (j.label, j.type)) =
        [(some "color_attr", .inner), (some "size_attr", .left)] ∧
      Sample.query.WantsInner "color" ∧ ¬ Sample.query.WantsInner "size" := by
  have hstage : ∃ staged, (Sample.query.stage Sample.catalogs).1 = .ok (some staged) ∧
      ∃ color size, staged.joins = [color, size] ∧
        color.label = some "color_attr" ∧ color.type = .inner ∧
        size.label = some "size_attr" ∧ size.type = .left :=
    ⟨_, rfl, _, _, rfl, rfl, rfl, rfl, rfl⟩
  obtain ⟨staged, h, color, size, hpair, hcolor, hinner, hsize, hleft⟩ := hstage
  obtain ⟨e, attributes, -, -, -, hjoins, -⟩ := staged_join_types rfl h
  have hwanted {code : String} {j : Join} (hj : j ∈ staged.joins)
      (hl : j.label = some (Sample.query.naming.label code)) :
      j.type = .inner ↔ Sample.query.WantsInner code := by
    obtain ⟨id, other, table, storage, -, hjoin, htype⟩ := hjoins j hj
    obtain rfl : other = code := by
      rw [hjoin] at hl
      exact Sample.query.naming.label_injective (Option.some.inj hl)
    exact htype
  refine ⟨rfl, staged, h, by simp [hpair, hcolor, hinner, hsize, hleft], ?_, fun hs => ?_⟩
  · exact (hwanted (by simp [hpair]) hcolor).mp hinner
  · have hwrong := (hwanted (by simp [hpair]) hsize).mpr hs
    rw [hleft] at hwrong
    cases hwrong

end Builder

end EntityQuery
