import EntityQuery.Proofs.JoinStages
import EntityQuery.Query.Staging

namespace EntityQuery

theorem bind_eq_ok {ε α β : Type} {x : Except ε α} {f : α → Except ε β} {b : β} :
    (x >>= f) = .ok b ↔ ∃ a, x = .ok a ∧ f a = .ok b := by
  cases x <;> simp [bind, Except.bind]

theorem map_eq_ok {ε α β : Type} {x : Except ε α} {f : α → β} {b : β} :
    f <$> x = .ok b ↔ ∃ a, x = .ok a ∧ f a = b := by
  cases x <;> simp [Functor.map, Except.map]

theorem mapError_eq_ok {ε ε' α : Type} {x : Except ε α} {f : ε → ε'} {a : α} :
    x.mapError f = .ok a ↔ x = .ok a := by
  cases x with
  | error e => exact ⟨nofun, nofun⟩
  | ok b => constructor <;> rintro ⟨⟩ <;> rfl

namespace Request

mutual

/-- The clause of a request whose codes stand for the columns given. -/
def image (col : String → Column) : Request → Condition
  | test connective code t => .test connective (col code) t
  | group connective _ { base, buffer := { requests, .. }, .. } =>
    .group connective (base.conditions ++ imageAll col requests)

def imageAll (col : String → Column) : List Request → List Condition
  | [] => []
  | r :: rest => image col r :: imageAll col rest

end

mutual

def codes : Request → List String
  | test _ code _ => [code]
  | group _ _ { buffer := { requests, .. }, .. } => codesAll requests

def codesAll : List Request → List String
  | [] => []
  | r :: rest => codes r ++ codesAll rest

end

theorem imageAll_eq_map (col : String → Column) (rs : List Request) :
    imageAll col rs = rs.map (image col) := by
  induction rs with
  | nil => rfl
  | cons r rest ih => rw [imageAll, ih, List.map_cons]

theorem image_group (col : String → Column) (k : Connective) (codes : CodeSet) (q : Builder) :
    image col (.group k codes q) =
      .group k (q.base.conditions ++ imageAll col q.buffer.requests) := by
  obtain ⟨_, _, ⟨⟩⟩ := q
  rfl

theorem imageAll_append (col : String → Column) (rs rs' : List Request) :
    imageAll col (rs ++ rs') = imageAll col rs ++ imageAll col rs' := by
  simp only [imageAll_eq_map, List.map_append]

theorem imageAll_eq_nil_iff {col : String → Column} {rs : List Request} :
    imageAll col rs = [] ↔ rs = [] := by
  simp only [imageAll_eq_map, List.map_eq_nil_iff]

theorem connective_image (col : String → Column) (r : Request) :
    (image col r).connective = r.connective := by
  cases r with
  | test connective code t => rfl
  | group connective groupCodes q =>
    rw [image_group]
    rfl

theorem connectives_imageAll (col : String → Column) (rs : List Request) :
    (imageAll col rs).map Condition.connective = rs.map connective := by
  rw [imageAll_eq_map, List.map_map]
  exact List.map_congr_left fun r _ => connective_image col r

mutual

theorem image_congr {f g : String → Column} :
    ∀ {r : Request}, (∀ code ∈ codes r, f code = g code) → image f r = image g r
  | .test connective code t, h => by rw [image, image, h code (by simp [codes])]
  | .group connective groupCodes { buffer := { requests, .. }, .. }, h => by
    rw [image, image, imageAll_congr (by simpa [codes] using h)]

theorem imageAll_congr {f g : String → Column} :
    ∀ {rs : List Request}, (∀ code ∈ codesAll rs, f code = g code) → imageAll f rs = imageAll g rs
  | [], _ => rfl
  | r :: rest, h => by
    rw [imageAll, imageAll, image_congr fun code hm => h code (by simp [codesAll, hm]),
      imageAll_congr fun code hm => h code (by simp [codesAll, hm])]

end

end Request

def SortRequest.image (col : String → Column) (r : SortRequest) : SortScope × SortKey :=
  (r.scope, { column := col r.code, direction := r.direction })

def Schema.columnOf (schema : Schema) (rules : JoinRules) (index : JoinIndex) (code : String) :
    Column :=
  match schema.attributes.find? code with
  | some a => rules.columnOf index a
  | none => .bare code

variable {schema : Schema} {rules : JoinRules}

theorem Schema.column_eq_ok {code : String} {s t : JoinStage} {c : Column}
    (h : schema.column rules code s = .ok (c, t)) :
    c = schema.columnOf rules s.index code ∧ JoinStage.Reaches rules s t ∧
      (schema.attributes.find? code).isSome := by
  unfold column at h
  unfold columnOf
  cases ha : schema.attributes.find? code with
  | none => simp [ha] at h
  | some a =>
    simp only [ha, Except.ok.injEq] at h
    have ht : t = (s.column rules a).2 := by rw [h]
    have hc : c = (s.column rules a).1 := by rw [h]
    refine ⟨?_, ht ▸ JoinStage.Reaches.column rules a s, rfl⟩
    rw [hc]
    exact JoinStage.add_column rules a _ s

theorem Schema.exists_column {code : String} (hk : (schema.attributes.find? code).isSome)
    (rules : JoinRules) (s : JoinStage) : ∃ out, schema.column rules code s = .ok out := by
  obtain ⟨a, ha⟩ := Option.isSome_iff_exists.mp hk
  exact ⟨s.column rules a, by simp [column, ha]⟩

theorem Schema.columnOf_reaches {s t : JoinStage} (h : JoinStage.Reaches rules s t) :
    schema.columnOf rules t.index = schema.columnOf rules s.index := by
  funext code
  unfold columnOf
  rw [h.columnOf]

namespace Request

theorem compile_test_eq_ok {k : Connective} {code : String} {asked : Test} {s t : JoinStage}
    {c : Condition} (h : compile schema rules s (.test k code asked) = .ok (c, t)) :
    ∃ column, schema.column rules code s = .ok (column, t) ∧ c = .test k column asked := by
  rw [compile] at h
  obtain ⟨⟨column, u⟩, hc, h⟩ := bind_eq_ok.mp h
  cases h
  exact ⟨column, hc, rfl⟩

theorem compile_group_eq_ok {k : Connective} {groupCodes : CodeSet} {q : Builder}
    {s t : JoinStage} {c : Condition}
    (h : compile schema rules s (.group k groupCodes q) = .ok (c, t)) :
    ∃ compiled, compileAll schema rules s q.buffer.requests = .ok (compiled, t) ∧
      c = .group k (q.base.conditions ++ compiled) := by
  obtain ⟨_, _, ⟨⟩⟩ := q
  rw [compile] at h
  obtain ⟨⟨compiled, u⟩, hc, h⟩ := bind_eq_ok.mp h
  cases h
  exact ⟨compiled, hc, rfl⟩

theorem compileAll_cons_eq_ok {r : Request} {rest : List Request} {s t : JoinStage}
    {cs : List Condition} (h : compileAll schema rules s (r :: rest) = .ok (cs, t)) :
    ∃ condition u conditions, compile schema rules s r = .ok (condition, u) ∧
      compileAll schema rules u rest = .ok (conditions, t) ∧ cs = condition :: conditions := by
  rw [compileAll] at h
  obtain ⟨⟨condition, u⟩, hc, h⟩ := bind_eq_ok.mp h
  obtain ⟨⟨conditions, w⟩, hr, h⟩ := bind_eq_ok.mp h
  cases h
  exact ⟨condition, u, conditions, hc, hr, rfl⟩

mutual

theorem compile_eq_ok {s t : JoinStage} {c : Condition} :
    ∀ {r : Request}, compile schema rules s r = .ok (c, t) →
      c = image (schema.columnOf rules s.index) r ∧ JoinStage.Reaches rules s t ∧
        ∀ code ∈ codes r, (schema.attributes.find? code).isSome
  | .test connective code asked, h => by
    obtain ⟨column, hc, rfl⟩ := compile_test_eq_ok h
    obtain ⟨rfl, hr, hk⟩ := Schema.column_eq_ok hc
    exact ⟨rfl, hr, by simpa [codes] using hk⟩
  | .group connective groupCodes { buffer := { requests, .. }, .. }, h => by
    obtain ⟨compiled, hc, rfl⟩ := compile_group_eq_ok h
    obtain ⟨rfl, hr, hk⟩ := compileAll_eq_ok hc
    exact ⟨rfl, hr, by simpa [codes] using hk⟩

theorem compileAll_eq_ok {s t : JoinStage} {cs : List Condition} :
    ∀ {rs : List Request}, compileAll schema rules s rs = .ok (cs, t) →
      cs = imageAll (schema.columnOf rules s.index) rs ∧ JoinStage.Reaches rules s t ∧
        ∀ code ∈ codesAll rs, (schema.attributes.find? code).isSome
  | [], h => by
    rw [compileAll] at h
    cases h
    exact ⟨rfl, .refl, by simp [codesAll]⟩
  | r :: rest, h => by
    obtain ⟨condition, u, conditions, hc, hr, rfl⟩ := compileAll_cons_eq_ok h
    obtain ⟨rfl, hsu, hk⟩ := compile_eq_ok hc
    obtain ⟨rfl, huw, hks⟩ := compileAll_eq_ok hr
    refine ⟨by rw [imageAll, Schema.columnOf_reaches hsu], hsu.trans huw, ?_⟩
    intro code hm
    obtain hm | hm := List.mem_append.mp (by simpa [codesAll] using hm)
    · exact hk code hm
    · exact hks code hm

end

mutual

theorem exists_compile (rules : JoinRules) (s : JoinStage) :
    ∀ r : Request, (∀ code ∈ codes r, (schema.attributes.find? code).isSome) →
      ∃ out, compile schema rules s r = .ok out
  | .test connective code asked, hk => by
    obtain ⟨out, ho⟩ := Schema.exists_column (hk code (by simp [codes])) rules s
    exact ⟨_, by rw [compile, ho]; rfl⟩
  | .group connective groupCodes { buffer := { requests, .. }, .. }, hk => by
    obtain ⟨out, ho⟩ := exists_compileAll rules s requests (by simpa [codes] using hk)
    exact ⟨_, by rw [compile, ho]; rfl⟩

theorem exists_compileAll (rules : JoinRules) (s : JoinStage) :
    ∀ rs : List Request, (∀ code ∈ codesAll rs, (schema.attributes.find? code).isSome) →
      ∃ out, compileAll schema rules s rs = .ok out
  | [], _ => ⟨([], s), rfl⟩
  | r :: rest, hk => by
    obtain ⟨⟨c, u⟩, hc⟩ := exists_compile rules s r fun code hm => hk code (by simp [codesAll, hm])
    obtain ⟨out, ho⟩ := exists_compileAll rules u rest
      fun code hm => hk code (by simp [codesAll, hm])
    exact ⟨_, by rw [compileAll, hc]; simp only [bind, Except.bind, ho]; rfl⟩

end

end Request

namespace SortRequest

theorem compileAll_cons_eq_ok {r : SortRequest} {rest : List SortRequest} {s t : JoinStage}
    {keys : List (SortScope × SortKey)}
    (h : compileAll schema rules s (r :: rest) = .ok (keys, t)) :
    ∃ column u keys', schema.column rules r.code s = .ok (column, u) ∧
      compileAll schema rules u rest = .ok (keys', t) ∧
        keys = (r.scope, { column, direction := r.direction }) :: keys' := by
  rw [compileAll] at h
  obtain ⟨⟨column, u⟩, hc, h⟩ := bind_eq_ok.mp h
  obtain ⟨⟨keys', w⟩, hr, h⟩ := bind_eq_ok.mp h
  cases h
  exact ⟨column, u, keys', hc, hr, rfl⟩

theorem compileAll_eq_ok {s t : JoinStage} {keys : List (SortScope × SortKey)}
    {rs : List SortRequest} (h : compileAll schema rules s rs = .ok (keys, t)) :
    keys = rs.map (image (schema.columnOf rules s.index)) ∧ JoinStage.Reaches rules s t ∧
      ∀ r ∈ rs, (schema.attributes.find? r.code).isSome := by
  induction rs generalizing s keys with
  | nil =>
    rw [compileAll] at h
    cases h
    exact ⟨rfl, .refl, by simp⟩
  | cons r rest ih =>
    obtain ⟨column, u, keys', hc, hr, rfl⟩ := compileAll_cons_eq_ok h
    obtain ⟨rfl, hsu, hk⟩ := Schema.column_eq_ok hc
    obtain ⟨rfl, huw, hks⟩ := ih hr
    refine ⟨by rw [Schema.columnOf_reaches hsu]; rfl, hsu.trans huw, ?_⟩
    intro q hq
    obtain rfl | hq := List.mem_cons.mp hq
    · exact hk
    · exact hks q hq

theorem exists_compileAll (rules : JoinRules) {rs : List SortRequest}
    (hk : ∀ r ∈ rs, (schema.attributes.find? r.code).isSome) (s : JoinStage) :
    ∃ out, compileAll schema rules s rs = .ok out := by
  induction rs generalizing s with
  | nil => exact ⟨([], s), rfl⟩
  | cons r rest ih =>
    obtain ⟨⟨c, u⟩, hc⟩ := Schema.exists_column (hk r (by simp)) rules s
    obtain ⟨out, ho⟩ := ih (fun q hq => hk q (by simp [hq])) u
    exact ⟨_, by rw [compileAll, hc]; simp only [bind, Except.bind, ho]; rfl⟩

end SortRequest

namespace Expansion

theorem columns_reaches (rules : JoinRules) (s : JoinStage) (attributes : List Attribute) :
    JoinStage.Reaches rules s (columns rules s attributes).2 := by
  induction attributes generalizing s with
  | nil => exact .refl
  | cons a rest ih => exact (JoinStage.Reaches.column rules a s).trans (ih _)

theorem resolve_reaches (x : Expansion) (rules : JoinRules) (attributes : Attributes)
    (referenced : CodeSet) (s : JoinStage) :
    JoinStage.Reaches rules s (x.resolve rules attributes referenced s).2 := by
  unfold resolve
  cases x.kept? with
  | none => exact .refl
  | some kept => exact columns_reaches rules s _

end Expansion

end EntityQuery
