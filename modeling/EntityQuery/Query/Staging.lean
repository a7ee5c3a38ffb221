import EntityQuery.Query.Builder
import EntityQuery.Query.Expansion

namespace EntityQuery

/-- Whether clauses are joined by `and` alone. The connective of the first one is never written. -/
def isConjunction (connectives : List Connective) : Bool := connectives.tail.all (· = .and)

mutual

/-- Requests the joins that a predicate needs. An inner join will do only where the predicate has to
hold for every row of the result, as `required` says, and needs a value to hold. -/
def Request.demand (required : Bool) (types : JoinTypes) : Request → JoinTypes
  | .test _ code t => types.request code (if required && t.needsValue then .inner else .left)
  | .group _ _ { base, buffer := { requests, .. }, .. } =>
    demandAll (required && isConjunction
      (base.conditions.map Condition.connective ++ requests.map Request.connective)) types requests

def Request.demandAll (required : Bool) (types : JoinTypes) : List Request → JoinTypes
  | [] => types
  | r :: rest => demandAll required (Request.demand required types r) rest

end

def Buffer.demand (b : Buffer) (conditions : List Condition) : JoinTypes :=
  Request.demandAll
    (isConjunction (conditions.map Condition.connective ++ b.requests.map Request.connective)) {}
    b.requests

def Schema.column (schema : Schema) (rules : JoinRules) (code : String) (s : JoinStage) :
    Except QueryError (Column × JoinStage) :=
  match schema.attributes.find? code with
  | none => .error (.unknownAttribute schema.entity.code code)
  | some a => .ok (s.column rules a)

namespace Request

mutual

/-- The clause that a predicate stands for. A group is its own clauses, followed by the clauses that
its predicates stand for. -/
def compile (schema : Schema) (rules : JoinRules) (s : JoinStage) :
    Request → Except QueryError (Condition × JoinStage)
  | test connective code t => do
    let (column, s) ← schema.column rules code s
    .ok (.test connective column t, s)
  | group connective _ { base, buffer := { requests, .. }, .. } => do
    let (compiled, s) ← compileAll schema rules s requests
    .ok (.group connective (base.conditions ++ compiled), s)

def compileAll (schema : Schema) (rules : JoinRules) (s : JoinStage) :
    List Request → Except QueryError (List Condition × JoinStage)
  | [] => .ok ([], s)
  | r :: rest => do
    let (condition, s) ← compile schema rules s r
    let (conditions, s) ← compileAll schema rules s rest
    .ok (condition :: conditions, s)

end

end Request

def SortRequest.compileAll (schema : Schema) (rules : JoinRules) (s : JoinStage) :
    List SortRequest → Except QueryError (List (SortScope × SortKey) × JoinStage)
  | [] => .ok ([], s)
  | r :: rest => do
    let (column, s) ← schema.column rules r.code s
    let (keys, s) ← compileAll schema rules s rest
    .ok ((r.scope, { column, direction := r.direction }) :: keys, s)

structure Staged where
  /-- The select list, where it changes. -/
  items : Option (List SelectItem)
  joins : List Join
  conditions : List Condition
  sortKeys : List (SortScope × SortKey)
  index : JoinIndex

namespace Builder

/-- The type of each join: the predicates decide, except that attributes which only the wildcard
brings in stay optional, whatever is asked of them. -/
def joinTypes (b : Builder) (expansion : Expansion) (attributes : Attributes) : JoinTypes :=
  let types := b.buffer.demand b.base.conditions
  let types := b.buffer.sorts.foldl (fun types s => types.request s.code .left) types
  (expansion.added attributes).foldl
    (fun types code => if expansion.isEvery then types.pin code .left else types.request code .left)
    types

def neededCodes (b : Builder) (expansion : Expansion) : CodeSet :=
  b.buffer.referenced.insertAll expansion.codes

def stageWith (b : Builder) (expansion : Expansion) (schema : Schema) :
    Except QueryError Staged :=
  match (b.neededCodes expansion).toList.find? (!schema.attributes.contains ·) with
  | some code => .error (.unknownAttribute schema.entity.code code)
  | none => do
    let rules : JoinRules :=
      { entity := schema.entity, naming := b.naming
        types := b.joinTypes expansion schema.attributes }
    let (items, s) :=
      expansion.resolve rules schema.attributes b.buffer.referenced { index := b.index }
    let (conditions, s) ← Request.compileAll schema rules s b.buffer.requests
    let (sortKeys, s) ← SortRequest.compileAll schema rules s b.buffer.sorts
    .ok { items, joins := s.joins, conditions, sortKeys, index := s.index }

/-- Whether nothing is asked of attributes. Bare names in the select list of a query without an entity
are columns. -/
def isPlain (b : Builder) : Bool :=
  let expansion := Expansion.classify b.base.items
  !b.buffer.hasConditions &&
    (expansion.isUntouched || (b.entity.isNone && !expansion.isEvery))

/-- Stages the attributes that a query asks for, if it asks for any. Of the catalogs only that of the
query's own provider is looked into, once at most. -/
def stage (b : Builder) (catalogs : Catalogs) : Except QueryError (Option Staged) × Catalogs :=
  if b.isPlain then (.ok none, catalogs)
  else
    match b.entity with
    | none => (.error .missingEntity, catalogs)
    | some entity =>
      let expansion := Expansion.classify b.base.items
      let codes := if expansion.isEvery then none else some (b.neededCodes expansion)
      let (schema, catalogs) := catalogs.load entity codes
      (schema >>= fun schema => some <$> b.stageWith expansion schema, catalogs)

def commit (b : Builder) (staged : Staged) : Builder :=
  let base := staged.joins.foldl Select.addJoin
    { b.base with items := staged.items.getD b.base.items }
  let base := staged.conditions.foldl Select.addCondition base
  let base := staged.sortKeys.foldl (fun q key => q.addSortKey key.1 key.2) base
  { b with base, index := staged.index }

/-- Processes the attributes of a query, unless that was done. After a failure the query is as it was
but for its phase. -/
def process (b : Builder) (catalogs : Catalogs) : Except QueryError Unit × Builder × Catalogs :=
  if b.phase = .processed then (.ok (), b, catalogs)
  else
    match b.stage catalogs with
    | (.ok none, catalogs) => (.ok (), { b with phase := .processed }, catalogs)
    | (.ok (some staged), catalogs) =>
      (.ok (), { b.commit staged with phase := .processed }, catalogs)
    | (.error e, catalogs) => (.error e, { b with phase := .failed }, catalogs)

def statement (b : Builder) (catalogs : Catalogs) :
    Except QueryError Statement × Builder × Catalogs :=
  match b.process catalogs with
  | (.ok (), b, catalogs) => (b.base.statement.mapError QueryError.render, b, catalogs)
  | (.error e, b, catalogs) => (.error e, b, catalogs)

def union (b : Builder) (type : UnionType) (member : Builder) (catalogs : Catalogs) :
    Except QueryError Builder × Catalogs :=
  match member.process catalogs with
  | (.ok (), member, catalogs) => (.ok { b with base := b.base.addUnion type member.base }, catalogs)
  | (.error e, _, catalogs) => (.error e, catalogs)

end Builder

end EntityQuery
