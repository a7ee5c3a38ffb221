import EntityQuery.Proofs.JoinTypeCalls
import EntityQuery.Query.Staging

namespace EntityQuery

namespace Request

mutual

/-- Whether a request holds only where some predicate on `code` holds that needs a value. -/
def insists (code : String) : Request → Bool
  | test _ c t => c = code && t.needsValue
  | group _ _ { base, buffer := { requests, .. }, .. } =>
    isConjunction (base.conditions.map Condition.connective ++ requests.map Request.connective) &&
      insistsAll code requests

def insistsAll (code : String) : List Request → Bool
  | [] => false
  | r :: rest => insists code r || insistsAll code rest

end

mutual

theorem asksInner_demand (code : String) (required : Bool) (types : JoinTypes) :
    ∀ r : Request, (demand required types r).AsksInner code ↔
      types.AsksInner code ∨ (required = true ∧ insists code r = true)
  | .test connective c t => by
    rw [demand, JoinTypes.asksInner_request, insists]
    cases required <;> cases t.needsValue <;> simp
  | .group connective groupCodes { buffer := { requests, .. }, .. } => by
    rw [demand, insists, asksInner_demandAll]
    simp [and_assoc]

theorem asksInner_demandAll (code : String) (required : Bool) (types : JoinTypes) :
    ∀ rs : List Request, (demandAll required types rs).AsksInner code ↔
      types.AsksInner code ∨ (required = true ∧ insistsAll code rs = true)
  | [] => by simp [demandAll, insistsAll]
  | r :: rest => by
    rw [demandAll, asksInner_demandAll, asksInner_demand, insistsAll, Bool.or_eq_true, and_or_left,
      or_assoc]

end

end Request

mutual

theorem Request.pinned_demand (required : Bool) (types : JoinTypes) :
    ∀ r : Request, (r.demand required types).pinned = types.pinned
  | .test connective c t => rfl
  | .group connective groupCodes { buffer := { requests, .. }, .. } => by
    rw [Request.demand, Request.pinned_demandAll]

theorem Request.pinned_demandAll (required : Bool) (types : JoinTypes) :
    ∀ rs : List Request, (Request.demandAll required types rs).pinned = types.pinned
  | [] => rfl
  | r :: rest => by
    rw [Request.demandAll, Request.pinned_demandAll, Request.pinned_demand]

end

/-- The predicates of a query demand an inner join where the whole where clause insists on a value. -/
theorem Buffer.demand_eq_inner (b : Buffer) (conditions : List Condition) (code : String) :
    (b.demand conditions).type code = .inner ↔
      isConjunction (conditions.map Condition.connective ++ b.requests.map Request.connective) = true ∧
        Request.insistsAll code b.requests = true := by
  rw [JoinTypes.asksInner_of_type, demand, Request.asksInner_demandAll]
  · simp
  · rw [demand, Request.pinned_demandAll]
    rfl

namespace Builder

variable {b : Builder} {x : Expansion} {attributes : Attributes} {code : String}

def typeCalls (b : Builder) (x : Expansion) (attributes : Attributes) : List JoinTypeCall :=
  b.buffer.sorts.map (fun s => .request s.code .left) ++ (x.added attributes).map fun code =>
    if x.isEvery then .pin code .left else .request code .left

theorem joinTypes_eq : b.joinTypes x attributes =
    (b.typeCalls x attributes).foldl JoinTypes.perform (b.buffer.demand b.base.conditions) := by
  unfold joinTypes typeCalls
  rw [List.foldl_append, List.foldl_map, List.foldl_map]
  cases x.isEvery <;> rfl

theorem inner_notMem_typeCalls : .request code .inner ∉ b.typeCalls x attributes := by
  unfold typeCalls
  cases x.isEvery <;> simp

theorem pin_mem_typeCalls {type : JoinType} : .pin code type ∈ b.typeCalls x attributes ↔
    x.isEvery = true ∧ code ∈ x.added attributes ∧ type = .left := by
  unfold typeCalls
  cases x.isEvery <;> simp [eq_comm]

/-- Neither a select list nor orderings make a join an inner one, and a select list that asks for all
attributes makes the joins of those that it adds left joins. -/
theorem type_joinTypes : (b.joinTypes x attributes).type code = .inner ↔
    ¬ (x.isEvery = true ∧ code ∈ x.added attributes) ∧
      (b.buffer.demand b.base.conditions).type code = .inner := by
  have hunpinned : (b.buffer.demand b.base.conditions).pinned.find? code = none := by
    rw [Buffer.demand, Request.pinned_demandAll]
    rfl
  rw [joinTypes_eq, JoinTypes.type_foldl _ hunpinned, if_neg inner_notMem_typeCalls]
  cases hlast : (JoinTypeCall.pins (b.typeCalls x attributes) code).getLast? with
  | none =>
    have hnone : ¬ (x.isEvery = true ∧ code ∈ x.added attributes) := by
      rintro ⟨hevery, hadded⟩
      have hpin : .left ∈ JoinTypeCall.pins (b.typeCalls x attributes) code :=
        JoinTypeCall.mem_pins.mpr (pin_mem_typeCalls.mpr ⟨hevery, hadded, rfl⟩)
      rw [List.getLast?_eq_none_iff.mp hlast] at hpin
      cases hpin
    simp [hnone]
  | some type =>
    obtain ⟨hevery, hadded, rfl⟩ :=
      pin_mem_typeCalls.mp (JoinTypeCall.mem_pins.mp (List.mem_of_getLast? hlast))
    simp [hevery, hadded]

end Builder

end EntityQuery
