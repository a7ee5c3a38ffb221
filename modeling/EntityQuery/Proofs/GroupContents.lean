import EntityQuery.Proofs.Passes

namespace EntityQuery

def Builder.ofContents (conditions : List Condition) (requests : List Request) : Builder where
  base := { dialect := .mysql, table := "", conditions }
  buffer := { requests }

namespace Request

mutual

/-- The request with nothing left of the queries in its groups, at any depth, but their clauses and
requests. -/
def stripped : Request → Request
  | test k code t => .test k code t
  | group k _ { base, buffer := { requests, .. }, .. } =>
    .group k ∅ (.ofContents base.conditions (strippedAll requests))

def strippedAll : List Request → List Request
  | [] => []
  | r :: rest => r.stripped :: strippedAll rest

end

theorem stripped_group (k : Connective) (codes : CodeSet) (q : Builder) :
    (group k codes q).stripped =
      .group k ∅ (.ofContents q.base.conditions (strippedAll q.buffer.requests)) := by
  obtain ⟨_, _, ⟨⟩⟩ := q
  rfl

theorem strippedAll_eq_map (rs : List Request) : strippedAll rs = rs.map stripped := by
  induction rs with
  | nil => rfl
  | cons r rest ih => rw [strippedAll, ih, List.map_cons]

theorem strippedAll_append (xs ys : List Request) :
    strippedAll (xs ++ ys) = strippedAll xs ++ strippedAll ys := by
  simp only [strippedAll_eq_map, List.map_append]

@[simp] theorem connective_stripped (r : Request) : r.stripped.connective = r.connective := by
  cases r with
  | test => rfl
  | group => rw [stripped_group, connective, connective]

theorem connectives_strippedAll (rs : List Request) :
    (strippedAll rs).map connective = rs.map connective := by
  simp only [strippedAll_eq_map, List.map_map, Function.comp_def, connective_stripped]

mutual

@[simp] theorem stripped_stripped : ∀ r : Request, r.stripped.stripped = r.stripped
  | .test .. => rfl
  | .group _ _ { buffer := { requests, .. }, .. } => by
    have hrequests := strippedAll_strippedAll requests
    simp only [stripped, Builder.ofContents, hrequests]

@[simp] theorem strippedAll_strippedAll :
    ∀ rs : List Request, strippedAll (strippedAll rs) = strippedAll rs
  | [] => rfl
  | r :: rest => by
    have hr := stripped_stripped r
    have hrest := strippedAll_strippedAll rest
    simp only [strippedAll, hr, hrest]

end

mutual

/-- Planning the joins, a pass reads nothing of the queries in groups but clauses and requests. -/
theorem demand_stripped : ∀ (r : Request) (required : Bool) (types : JoinTypes),
    r.stripped.demand required types = r.demand required types
  | .test .., _, _ => rfl
  | .group _ _ { buffer := { requests, .. }, .. }, _, _ => by
    simp only [stripped, Builder.ofContents, demand, connectives_strippedAll]
    exact demandAll_stripped requests _ _

theorem demandAll_stripped : ∀ (rs : List Request) (required : Bool) (types : JoinTypes),
    demandAll required types (strippedAll rs) = demandAll required types rs
  | [], _, _ => rfl
  | r :: rest, required, types => by
    have hr := demand_stripped r required types
    have hrest := demandAll_stripped rest required
    simp only [strippedAll, demandAll, hr, hrest]

end

mutual

theorem compile_stripped (schema : Schema) (rules : JoinRules) :
    ∀ (r : Request) (s : JoinStage), r.stripped.compile schema rules s = r.compile schema rules s
  | .test .., _ => rfl
  | .group _ _ { buffer := { requests, .. }, .. }, s => by
    have hrequests := compileAll_stripped schema rules requests s
    simp only [stripped, Builder.ofContents, compile, hrequests]

theorem compileAll_stripped (schema : Schema) (rules : JoinRules) :
    ∀ (rs : List Request) (s : JoinStage),
      compileAll schema rules s (strippedAll rs) = compileAll schema rules s rs
  | [], _ => rfl
  | r :: rest, s => by
    have hr := compile_stripped schema rules r s
    have hrest := compileAll_stripped schema rules rest
    simp only [strippedAll, compileAll, hr, hrest]

end

end Request

/-- The query with nothing left of the queries in its groups but clauses and requests. -/
def Builder.stripped (b : Builder) : Builder :=
  { b with buffer := { b.buffer with requests := Request.strippedAll b.buffer.requests } }

namespace Builder

variable (b : Builder)

@[simp] theorem stripped_stripped : b.stripped.stripped = b.stripped := by
  simp only [stripped, Request.strippedAll_strippedAll]

theorem joinTypes_stripped (expansion : Expansion) (attributes : Attributes) :
    b.stripped.joinTypes expansion attributes = b.joinTypes expansion attributes := by
  simp only [joinTypes, stripped, Buffer.demand, Request.connectives_strippedAll,
    Request.demandAll_stripped]

theorem stageWith_stripped (expansion : Expansion) (schema : Schema) :
    b.stripped.stageWith expansion schema = b.stageWith expansion schema := by
  have hneeded : b.stripped.neededCodes expansion = b.neededCodes expansion := rfl
  unfold stageWith
  rw [hneeded, joinTypes_stripped]
  simp only [stripped, Request.compileAll_stripped]

/-- A pass comes out the same, and looks into the same catalog, whatever else the queries in groups
have: an entity and a provider, names, a table, a select list, orderings, unions, a phase. -/
theorem stage_stripped (cs : Catalogs) : b.stripped.stage cs = b.stage cs := by
  have hplain : b.stripped.isPlain = b.isPlain := rfl
  unfold stage
  rw [hplain]
  simp only [stageWith_stripped]
  rfl

end Builder

end EntityQuery
