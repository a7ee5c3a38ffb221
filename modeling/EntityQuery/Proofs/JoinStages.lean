import EntityQuery.Query.AttributeJoins
import Mathlib.Logic.Relation

namespace EntityQuery

theorem JoinIndex.join?_put (index : JoinIndex) (key : String × String) (j : AttributeJoin)
    (code entity : String) :
    JoinIndex.join? (index.put (key, j)) code entity =
      if key = (code, entity) then some j else index.join? code entity := by
  unfold join?
  rw [Keyed.find?_put]
  split <;> rfl

theorem Naming.label_injective (n : Naming) : Function.Injective n.label := by
  intro a b h
  have hl := congrArg String.toList h
  simp only [label, String.toList_append, List.append_cancel_right_eq] at hl
  exact String.toList_injective hl

namespace JoinType

@[simp] theorem merge_left (t : JoinType) : t.merge left = t := by cases t <;> rfl

@[simp] theorem merge_inner (t : JoinType) : t.merge inner = inner := by cases t <;> rfl

@[simp] theorem merge_self (t : JoinType) : t.merge t = t := by cases t <;> rfl

end JoinType

namespace JoinRules

def columnOf (rules : JoinRules) (index : JoinIndex) : Attribute → Column
  | .static _ column _ => .qualified rules.entity.table column
  | .dynamic _ code _ _ =>
    match index.join? code rules.entity.code with
    | some known => known.column
    | none => .qualified (rules.naming.label code) rules.naming.valueColumn

/-- No known join of another attribute has the name of the join for `code`. -/
def Unclaimed (rules : JoinRules) (index : JoinIndex) (code : String) : Prop :=
  ∀ other known, index.join? other rules.entity.code = some known →
    known.label = rules.naming.label code → other = code

theorem Unclaimed.put {rules : JoinRules} {index : JoinIndex} {code : String}
    (h : rules.Unclaimed index code) (other : String) (j : AttributeJoin)
    (hj : j.label = rules.naming.label code → other = code) :
    rules.Unclaimed (index.put ((other, rules.entity.code), j)) code := by
  intro third known hk hl
  rw [JoinIndex.join?_put] at hk
  split at hk
  · next he =>
    cases hk
    exact (Prod.mk.inj he).1 ▸ hj hl
  · exact h third known hk hl

end JoinRules

namespace JoinStage

variable {rules : JoinRules}

theorem add_column (rules : JoinRules) (a : Attribute) (type : JoinType) (s : JoinStage) :
    (s.add rules a type).1 = rules.columnOf s.index a := by
  cases a with
  | static code column storage => rfl
  | dynamic id code table storage =>
    unfold add JoinRules.columnOf
    cases hj : s.index.join? code rules.entity.code with
    | none => simp [hj]
    | some known => simp only [hj]; split <;> rfl

/-- A request changes nothing, makes a known left join an inner one, or joins a new attribute. -/
theorem add_cases (rules : JoinRules) (a : Attribute) (type : JoinType) (s : JoinStage) :
    (s.add rules a type).2 = s ∨
    (∃ id code table storage known, a = .dynamic id code table storage ∧
      s.index.join? code rules.entity.code = some known ∧ type = .inner ∧
      (s.add rules a type).2 =
        { index := s.index.put ((code, rules.entity.code), { known with type := .inner })
          joins := retype known.label .inner s.joins }) ∨
    ∃ id code table storage, a = .dynamic id code table storage ∧
      s.index.join? code rules.entity.code = none ∧
      (s.add rules a type).2 =
        { index := s.index.put ((code, rules.entity.code),
            { label := rules.naming.label code
              column := .qualified (rules.naming.label code) rules.naming.valueColumn
              type })
          joins := s.joins ++ [rules.join id code table type] } := by
  cases a with
  | static code column storage => exact .inl rfl
  | dynamic id code table storage =>
    cases hj : s.index.join? code rules.entity.code with
    | none =>
      refine .inr (.inr ⟨id, code, table, storage, rfl, hj, ?_⟩)
      simp [add, hj]
    | some known =>
      by_cases hm : known.type.merge type = known.type
      · exact .inl (by simp [add, hj, hm])
      · have ht : type = .inner := by
          cases type with
          | inner => rfl
          | left => exact absurd (JoinType.merge_left _) hm
        subst type
        refine .inr (.inl ⟨id, code, table, storage, known, rfl, hj, rfl, ?_⟩)
        simp only [JoinType.merge_inner] at hm
        simp [add, hj, hm]

/-- Columns do not depend on when they are asked for. -/
theorem columnOf_add (a : Attribute) (type : JoinType) (s : JoinStage) :
    rules.columnOf (s.add rules a type).2.index = rules.columnOf s.index := by
  have hput (code : String) (j : AttributeJoin)
      (hc : ∀ id table storage,
        j.column = rules.columnOf s.index (.dynamic id code table storage)) :
      rules.columnOf (s.index.put ((code, rules.entity.code), j)) = rules.columnOf s.index := by
    funext b
    cases b with
    | static code' column storage' => rfl
    | dynamic id' code' table' storage' =>
      by_cases hk : code = code'
      · subst code'
        rw [JoinRules.columnOf, JoinIndex.join?_put, if_pos rfl]
        exact hc id' table' storage'
      · simp [JoinRules.columnOf, JoinIndex.join?_put, hk]
  obtain h | ⟨id, code, table, storage, known, rfl, hj, -, h⟩ |
    ⟨id, code, table, storage, rfl, hj, h⟩ := add_cases rules a type s
  · rw [h]
  · rw [h]
    exact hput code _ fun _ _ _ => by simp [JoinRules.columnOf, hj]
  · rw [h]
    exact hput code _ fun _ _ _ => by simp [JoinRules.columnOf, hj]

/-- The stages that requests lead to. -/
abbrev Reaches (rules : JoinRules) : JoinStage → JoinStage → Prop :=
  Relation.ReflTransGen fun s t => ∃ a, t = (s.column rules a).2

theorem Reaches.column (rules : JoinRules) (a : Attribute) (s : JoinStage) :
    Reaches rules s (s.column rules a).2 :=
  .single ⟨a, rfl⟩

theorem Reaches.columnOf {s t : JoinStage} (h : Reaches rules s t) :
    rules.columnOf t.index = rules.columnOf s.index := by
  induction h with
  | refl => rfl
  | tail _ hstep ih =>
    obtain ⟨a, rfl⟩ := hstep
    exact (columnOf_add a _ _).trans ih

theorem mem_retype {j : Join} {label : String} {type : JoinType} {joins : List Join}
    (h : j ∈ retype label type joins) :
    j ∈ joins ∨ ∃ k ∈ joins, k.reference = label ∧ j = { k with type } := by
  induction joins with
  | nil => exact .inl h
  | cons k rest ih =>
    rw [retype] at h
    split at h
    · next hk =>
      obtain rfl | h := List.mem_cons.mp h
      · exact .inr ⟨k, by simp, hk, rfl⟩
      · exact .inl (by simp [h])
    · obtain rfl | h := List.mem_cons.mp h
      · exact .inl (by simp)
      · obtain h | ⟨k', hk', hr, he⟩ := ih h
        · exact .inl (by simp [h])
        · exact .inr ⟨k', by simp [hk'], hr, he⟩

structure Typed (rules : JoinRules) (code : String) (s : JoinStage) : Prop where
  unclaimed : rules.Unclaimed s.index code
  type_eq : ∀ j ∈ s.joins, j.label = some (rules.naming.label code) → j.type = rules.types.type code

theorem Typed.column {code : String} {s : JoinStage} (h : Typed rules code s) (a : Attribute) :
    Typed rules code (s.column rules a).2 := by
  unfold JoinStage.column
  obtain hs | ⟨id, other, table, storage, known, rfl, hj, ht, hs⟩ |
    ⟨id, other, table, storage, rfl, -, hs⟩ := add_cases rules a (rules.types.type a.code) s
  · rwa [hs]
  · rw [hs]
    refine ⟨h.unclaimed.put other _ (h.unclaimed other known hj), ?_⟩
    intro j hm hl
    obtain hm | ⟨k, -, hr, rfl⟩ := mem_retype hm
    · exact h.type_eq j hm hl
    · -- The join made inner has the name of the one for `code`, so it was found under that code.
      have hk : k.reference = rules.naming.label code := by
        simp only at hl
        simp [Join.reference, hl]
      have ho : other = code := h.unclaimed other known hj (hr ▸ hk)
      subst other
      exact ht.symm
  · rw [hs]
    refine ⟨h.unclaimed.put other _ fun hl => rules.naming.label_injective hl, ?_⟩
    intro j hm hl
    obtain hm | hm := List.mem_append.mp hm
    · exact h.type_eq j hm hl
    · obtain rfl := List.mem_singleton.mp hm
      have ho : other = code := rules.naming.label_injective (Option.some.inj hl)
      subst other
      rfl

theorem Reaches.typed {code : String} {s t : JoinStage} (h : Reaches rules s t)
    (hs : Typed rules code s) : Typed rules code t := by
  induction h with
  | refl => exact hs
  | tail _ hstep ih =>
    obtain ⟨a, rfl⟩ := hstep
    exact ih.column a

end JoinStage

end EntityQuery
