import EntityQuery.Query.Staging

namespace EntityQuery

/-- What a query that is built for another one starts from: an entity, a table, or an empty query like
the other one. -/
inductive Origin where
  | entity (dialect : Dialect) (e : EntityContext)
  | table (dialect : Dialect) (name : String)
  | fresh

inductive Step where
  | filter (connective : Connective) (code : String) (f : Filter)
  | filterColumn (connective : Connective) (column : String) (f : ColumnFilter)
  /-- Builds a query like this one and adds it as a group. -/
  | group (connective : Connective) (body : List Step)
  /-- Builds a query of its own and adds it as a group. -/
  | fold (connective : Connective) (origin : Origin) (naming : Option Naming) (body : List Step)
  | union (type : UnionType) (origin : Origin) (naming : Option Naming) (body : List Step)
  | sortByAttribute (code : String) (direction : Direction)
  | sortBy (column : String) (direction : Direction)
  | sortByTimestamp (direction : Direction)
  | select (columns : List String)
  | selectAttributes (codes : List String)
  | limit (n : Nat)
  | offset (n : Nat)
  /-- Goes on with an empty query like this one. -/
  | restart
  /-- Goes on with the base query alone. -/
  | rewrap
  | withEntity (e : EntityContext)
  | withNaming (naming : Naming)
  | register (e : EntityContext) (a : Attribute)
  | process
  | statement
  /-- Stages the attributes without applying them. -/
  | preview
  | insert (rows : List Row)

/-- A query under construction, and the catalogs that it and others look into. -/
structure Session where
  builder : Builder
  catalogs : Catalogs := .empty

inductive Reply where
  | silent
  | processed (result : Except QueryError Unit)
  | statement (result : Except QueryError Statement)
  | staged (result : Except QueryError (Option Staged))
  | inserted (result : Except QueryError (Option String))

/-- What came of a step: the outcomes of the steps inside it that ran, its reply, and the session after
it. -/
structure Outcome where
  inner : List Outcome := []
  reply : Reply := .silent
  after : Except QueryError Session

namespace Origin

def builder (origin : Origin) (naming : Option Naming) (current : Builder) : Builder :=
  let b : Builder := match origin with
    | entity d e => .ofEntity d e
    | table d name => .ofSelect { dialect := d, table := name }
    | fresh => current.fresh
  { b with naming := naming.getD b.naming }

end Origin

namespace Session

def withBuilder (s : Session) (b : Builder) : Session := { s with builder := b }

def change (s : Session) (f : Builder → Except QueryError Builder) : Except QueryError Session :=
  s.withBuilder <$> f s.builder

mutual

def step (s : Session) : Step → Outcome
  | .filter connective code f => { after := s.change (·.filter connective code f) }
  | .filterColumn connective column f => { after := s.change (·.filterColumn connective column f) }
  | .group connective body =>
    let (inner, done) := run (s.withBuilder s.builder.fresh) body
    { inner, after := done.map fun t =>
        { t with builder := s.builder.addGroup connective t.builder } }
  | .fold connective origin naming body =>
    let (inner, done) := run (s.withBuilder (origin.builder naming s.builder)) body
    { inner, after := done.map fun t =>
        { t with builder := s.builder.addGroup connective t.builder } }
  | .union type origin naming body =>
    let (inner, done) := run (s.withBuilder (origin.builder naming s.builder)) body
    { inner, after := done >>= fun t =>
        let (builder, catalogs) := s.builder.union type t.builder t.catalogs
        builder.map fun builder => { builder, catalogs } }
  | .sortByAttribute code direction =>
    { after := .ok (s.withBuilder (s.builder.sortByAttribute code direction)) }
  | .sortBy column direction => { after := s.change (·.sortBy column direction) }
  | .sortByTimestamp direction => { after := s.change (·.sortByTimestamp direction) }
  | .select columns => { after := s.change (·.select columns) }
  | .selectAttributes codes => { after := .ok (s.withBuilder (s.builder.selectAttributes codes)) }
  | .limit n => { after := .ok (s.withBuilder (s.builder.limit n)) }
  | .offset n => { after := .ok (s.withBuilder (s.builder.offset n)) }
  | .restart => { after := .ok (s.withBuilder s.builder.fresh) }
  | .rewrap => { after := .ok (s.withBuilder (.ofSelect s.builder.base)) }
  | .withEntity e => { after := .ok (s.withBuilder { s.builder with entity := some e }) }
  | .withNaming naming => { after := .ok (s.withBuilder { s.builder with naming }) }
  | .register e a => { after := .ok { s with catalogs := s.catalogs.register e a } }
  | .process =>
    let (result, builder, catalogs) := s.builder.process s.catalogs
    { reply := .processed result, after := .ok { builder, catalogs } }
  | .statement =>
    let (result, builder, catalogs) := s.builder.statement s.catalogs
    { reply := .statement result, after := .ok { builder, catalogs } }
  | .preview =>
    let (result, catalogs) := s.builder.stage s.catalogs
    { reply := .staged result, after := .ok { s with catalogs } }
  | .insert rows => { reply := .inserted (s.builder.insertText rows), after := .ok s }

def run (s : Session) : List Step → List Outcome × Except QueryError Session
  | [] => ([], .ok s)
  | x :: rest =>
    let outcome := step s x
    match outcome.after with
    | .error e => ([outcome], .error e)
    | .ok t =>
      let (outcomes, done) := run t rest
      (outcome :: outcomes, done)

end

end Session

end EntityQuery
