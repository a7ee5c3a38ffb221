import EntityQuery.Proofs.ProcessedQueries

namespace EntityQuery

namespace Origin

def select (q : Select) : Origin → Select
  | entity d e => { dialect := d, table := e.table }
  | table d name => { dialect := d, table := name }
  | fresh => q.fresh q.table

def entity? (current : Option EntityContext) : Origin → Option EntityContext
  | entity _ e => some e
  | table .. => none
  | fresh => current

def names (current : Naming) (given : Option Naming) : Origin → Naming
  | fresh => given.getD current
  | _ => given.getD {}

end Origin

namespace Select

def addGroup (q : Select) (k : Connective) (members : List Condition) : Select :=
  if members.isEmpty then q else q.addCondition (.group k members)

def timestampColumn (q : Select) (c : Column) : Column :=
  if q.sortScope = .own ∧ c.table = none then .qualified q.table c.name else c

mutual

/-- What a step that is not about attributes does to a plain query. -/
def perform (names : Naming) (q : Select) : Step → Except QueryError Select
  | .filterColumn k column f => do
    let t ← f.test.mapError QueryError.parse
    let c ← (Column.parse column).mapError QueryError.parse
    .ok (q.addCondition (.test k c t))
  | .group k body => (performAll names (q.fresh q.table) body).map fun u => q.addGroup k u.conditions
  | .fold k origin given body =>
    (performAll (origin.names names given) (origin.select q) body).map fun u =>
      q.addGroup k u.conditions
  | .union type origin given body =>
    (performAll (origin.names names given) (origin.select q) body).map fun u => q.addUnion type u
  | .sortBy column direction => do
    let c ← (Column.parse column).mapError QueryError.parse
    .ok (q.addSortKey q.sortScope ⟨c, direction⟩)
  | .sortByTimestamp direction => do
    let c ← (Column.parse names.timestampColumn).mapError QueryError.parse
    .ok (q.addSortKey q.sortScope ⟨q.timestampColumn c, direction⟩)
  | .select columns => do
    let items ← columns.mapM fun text => (SelectItem.parse text).mapError QueryError.parse
    .ok { q with items }
  | .limit n => .ok { q with limit := some n }
  | .offset n => .ok { q with offset := some n }
  | _ => .ok q

def performAll (names : Naming) (q : Select) : List Step → Except QueryError Select
  | [] => .ok q
  | x :: rest => perform names q x >>= fun u => performAll names u rest

end

/-- No entry of the select list is the code of an attribute, or there is no entity that could have
attributes. -/
def NamesNoAttribute (e : Option EntityContext) (q : Select) : Prop :=
  e = none ∨ ∀ item ∈ q.items, item.code? = none

end Select

namespace Step

mutual

/-- The steps on columns: clauses, groups and unions made of such steps, orderings, select lists
without the wildcard, limits. A union member is processed, so that its select list counts as well. -/
def Physical (e : Option EntityContext) (names : Naming) : Step → Prop
  | .filterColumn .. | .sortBy .. | .sortByTimestamp _ | .limit _ | .offset _ | .insert _ => True
  | .select columns => ∀ text ∈ columns, Text.trim text.toList ≠ names.wildcard.toList
  | .group _ body => PhysicalAll e names body
  | .fold _ origin given body => PhysicalAll (origin.entity? e) (origin.names names given) body
  | .union _ origin given body =>
    PhysicalAll (origin.entity? e) (origin.names names given) body ∧
      ∀ q u : Select, (origin.select q).performAll (origin.names names given) body = .ok u →
        u.NamesNoAttribute (origin.entity? e)
  | _ => False

def PhysicalAll (e : Option EntityContext) (names : Naming) : List Step → Prop
  | [] => True
  | x :: rest => Physical e names x ∧ PhysicalAll e names rest

end

end Step

theorem SelectItem.parse_ne_attributes {text : String} {item : SelectItem}
    (h : SelectItem.parse text = .ok item) : item ≠ .attributes := by
  rintro rfl
  unfold SelectItem.parse at h
  dsimp only at h
  split at h
  · cases h
  · split at h
    · split at h <;> cases h
    · split at h
      · obtain ⟨c, -, h⟩ := bind_eq_ok.mp h
        split at h <;> cases h
      · obtain ⟨c, -, h⟩ := bind_eq_ok.mp h
        cases h

theorem mem_of_mapM {ε α β : Type} {f : α → Except ε β} {l : List α} {out : List β}
    (h : l.mapM f = .ok out) : ∀ y ∈ out, ∃ x ∈ l, f x = .ok y := by
  induction l generalizing out with
  | nil =>
    rw [List.mapM_nil] at h
    cases h
    simp
  | cons a rest ih =>
    rw [List.mapM_cons] at h
    obtain ⟨y, hy, h⟩ := bind_eq_ok.mp h
    obtain ⟨ys, hys, h⟩ := bind_eq_ok.mp h
    cases h
    intro z hz
    obtain rfl | hz := List.mem_cons.mp hz
    · exact ⟨a, List.mem_cons_self, hy⟩
    · obtain ⟨x, hx, hxz⟩ := ih hys z hz
      exact ⟨x, List.mem_cons_of_mem a hx, hxz⟩

theorem mapM_congr {ε α β : Type} {f g : α → Except ε β} {l : List α}
    (h : ∀ x ∈ l, f x = g x) : l.mapM f = l.mapM g := by
  induction l with
  | nil => simp only [List.mapM_nil]
  | cons a rest ih =>
    rw [List.mapM_cons, List.mapM_cons, h a List.mem_cons_self,
      ih fun x hx => h x (List.mem_cons_of_mem a hx)]

namespace Select

variable {q u : Select} {names : Naming}

theorem items_addSortKey (q : Select) (scope : SortScope) (key : SortKey) :
    (q.addSortKey scope key).items = q.items := by
  cases scope <;> rfl

theorem items_addGroup (q : Select) (k : Connective) (members : List Condition) :
    (q.addGroup k members).items = q.items := by
  unfold addGroup
  split <;> rfl

theorem no_marker_perform {x : Step} (hq : .attributes ∉ q.items)
    (h : q.perform names x = .ok u) : .attributes ∉ u.items := by
  cases x with
  | select columns =>
    rw [perform] at h
    obtain ⟨items, hitems, h⟩ := bind_eq_ok.mp h
    cases h
    intro hm
    obtain ⟨text, -, htext⟩ := mem_of_mapM hitems _ hm
    exact SelectItem.parse_ne_attributes (mapError_eq_ok.mp htext) rfl
  | filterColumn k column f =>
    rw [perform] at h
    obtain ⟨t, -, h⟩ := bind_eq_ok.mp h
    obtain ⟨c, -, h⟩ := bind_eq_ok.mp h
    cases h
    exact hq
  | sortBy | sortByTimestamp =>
    rw [perform] at h
    obtain ⟨c, -, h⟩ := bind_eq_ok.mp h
    cases h
    rwa [items_addSortKey]
  | group | fold =>
    rw [perform] at h
    obtain ⟨m, -, rfl⟩ := map_eq_ok.mp h
    rwa [items_addGroup]
  | union =>
    rw [perform] at h
    obtain ⟨m, -, rfl⟩ := map_eq_ok.mp h
    exact hq
  | _ =>
    cases h
    exact hq

theorem no_marker_performAll {steps : List Step} (hq : .attributes ∉ q.items)
    (h : q.performAll names steps = .ok u) : .attributes ∉ u.items := by
  induction steps generalizing q with
  | nil =>
    rw [performAll] at h
    cases h
    exact hq
  | cons x rest ih =>
    rw [performAll] at h
    obtain ⟨v, hx, h⟩ := bind_eq_ok.mp h
    exact ih (no_marker_perform hq hx) h

theorem no_marker_origin (q : Select) (origin : Origin) :
    .attributes ∉ (origin.select q).items := by
  cases origin <;> exact List.not_mem_nil

end Select

namespace Expansion

variable {items : List SelectItem}

theorem classify_of_no_code (h : .attributes ∉ items) (hcodes : ∀ item ∈ items, item.code? = none) :
    classify items = untouched := by
  have hc : items.contains .attributes = false := by simpa using h
  have hnone : items.filterMap SelectItem.code? = [] := List.filterMap_eq_nil_iff.mpr hcodes
  unfold classify
  rw [if_neg (by rw [hc]; exact Bool.false_ne_true)]
  simp [hnone]

end Expansion

namespace Builder

/-- A builder that has been asked nothing about attributes. -/
def around (e : Option EntityContext) (names : Naming) (q : Select) : Builder :=
  { base := q, entity := e, buffer := {}, naming := names }

variable {e : Option EntityContext} {names : Naming} {q : Select}

theorem builder_origin (origin : Origin) (given : Option Naming) :
    origin.builder given (around e names q) =
      around (origin.entity? e) (origin.names names given) (origin.select q) := by
  cases origin <;> rfl

theorem addGroup_around (k : Connective) {e' : Option EntityContext} {names' : Naming} (u : Select) :
    (around e names q).addGroup k (around e' names' u) =
      around e names (q.addGroup k u.conditions) := by
  change (if false = true then _ else if u.conditions.isEmpty = true then _ else _) = _
  unfold Select.addGroup
  rw [if_neg Bool.false_ne_true]
  split <;> rfl

theorem select_around {columns : List String}
    (h : ∀ text ∈ columns, Text.trim text.toList ≠ names.wildcard.toList) :
    (around e names q).select columns =
      (do
        let items ← columns.mapM fun text => (SelectItem.parse text).mapError QueryError.parse
        .ok (around e names { q with items })) := by
  unfold select
  rw [mapM_congr (g := fun text => (SelectItem.parse text).mapError QueryError.parse)]
  · rfl
  · intro text htext
    exact if_neg (h text htext)

theorem isPlain_around (hmarker : .attributes ∉ q.items) (hq : q.NamesNoAttribute e) :
    (around e names q).isPlain = true := by
  change (true && ((Expansion.classify q.items).isUntouched ||
    (e.isNone && !(Expansion.classify q.items).isEvery))) = true
  obtain rfl | hq := hq
  · rw [Bool.eq_false_iff.mpr (mt (Expansion.isEvery_classify _).mp hmarker)]
    simp
  · rw [Expansion.classify_of_no_code hmarker hq]
    rfl

theorem process_around (hmarker : .attributes ∉ q.items) (hq : q.NamesNoAttribute e)
    (c : Catalogs) :
    (around e names q).process c = (.ok (), { around e names q with phase := .processed }, c) :=
  process_of_isPlain (nofun : Phase.unprocessed ≠ .processed) (isPlain_around hmarker hq)

theorem union_around {e' : Option EntityContext} {names' : Naming} {u : Select} (type : UnionType)
    (c : Catalogs) (hmarker : .attributes ∉ u.items) (hu : u.NamesNoAttribute e') :
    (around e names q).union type (around e' names' u) c =
      (.ok (around e names (q.addUnion type u)), c) := by
  unfold union
  rw [process_around hmarker hu]
  rfl

end Builder

namespace Session

def around (e : Option EntityContext) (names : Naming) (c : Catalogs) (q : Select) : Session :=
  ⟨.around e names q, c⟩

theorem grouped_around {e e' : Option EntityContext} {names names' : Naming} {c : Catalogs} {q : Select}
    (k : Connective) (u : Select) :
    grouped (.around e names q) k (around e' names' c u) =
      around e names c (q.addGroup k u.conditions) :=
  congrArg (Session.mk · c) (Builder.addGroup_around k u)

open Select Step in
mutual

theorem step_around {e : Option EntityContext} {names : Naming} {q : Select} (c : Catalogs) :
    ∀ x : Step, Physical e names x →
      (step (around e names c q) x).after = (q.perform names x).map (around e names c)
  | .filterColumn k column f, _ => by
    unfold perform
    change Session.withBuilder _ <$> Builder.filterColumn _ k column f = _
    unfold Builder.filterColumn
    cases f.test <;> cases Column.parse column <;> rfl
  | .sortBy column direction, _ => by
    unfold perform
    change Session.withBuilder _ <$> Builder.sortBy _ column direction = _
    unfold Builder.sortBy
    cases Column.parse column <;> rfl
  | .sortByTimestamp direction, _ => by
    unfold perform
    change Session.withBuilder _ <$> Builder.sortByTimestamp _ direction = _
    unfold Builder.sortByTimestamp
    change _ <$> ((Column.parse names.timestampColumn).mapError _ >>= _) = _
    cases Column.parse names.timestampColumn <;> rfl
  | .select columns, h => by
    unfold perform
    change Session.withBuilder _ <$> Builder.select (.around e names q) columns = _
    rw [Builder.select_around h]
    cases columns.mapM fun text => (SelectItem.parse text).mapError QueryError.parse <;> rfl
  | .group k body, h => by
    rw [step_group]
    change (run (around e names c (q.fresh q.table)) body).2.map _ = _
    rw [run_around c body h, perform]
    cases performAll names (q.fresh q.table) body with
    | error fault => rfl
    | ok u => exact congrArg Except.ok (grouped_around k u)
  | .fold k origin given body, h => by
    rw [step_fold]
    change (run ⟨origin.builder given (.around e names q), c⟩ body).2.map _ = _
    rw [Builder.builder_origin]
    change (run (around _ _ c (origin.select q)) body).2.map _ = _
    rw [run_around c body h, perform]
    cases performAll (origin.names names given) (origin.select q) body with
    | error fault => rfl
    | ok u => exact congrArg Except.ok (grouped_around k u)
  | .union type origin given body, h => by
    rw [step_union]
    change (run ⟨origin.builder given (.around e names q), c⟩ body).2 >>= _ = _
    rw [Builder.builder_origin]
    change (run (around _ _ c (origin.select q)) body).2 >>= _ = _
    rw [run_around c body h.1, perform]
    cases hbody : performAll (origin.names names given) (origin.select q) body with
    | error fault => rfl
    | ok u =>
      -- The pass over the member finds nothing to do, so that the member is what the plain query is.
      have hmarker := no_marker_performAll (no_marker_origin q origin) hbody
      change united (.around e names q) type (around _ _ c u) = _
      unfold united around
      rw [Builder.union_around type c hmarker (h.2 q u hbody)]
      rfl
  | .limit _, _ | .offset _, _ | .insert _, _ => rfl

theorem run_around {e : Option EntityContext} {names : Naming} {q : Select} (c : Catalogs) :
    ∀ steps : List Step, PhysicalAll e names steps →
      (run (around e names c q) steps).2 = (q.performAll names steps).map (around e names c)
  | [], _ => rfl
  | x :: rest, h => by
    have hx := step_around (q := q) c x h.1
    rw [performAll]
    cases hp : q.perform names x with
    | error fault =>
      rw [hp] at hx
      rw [run_cons_error hx]
      rfl
    | ok u =>
      rw [hp] at hx
      rw [run_cons_ok hx]
      exact run_around c rest h.2

end

/-- A builder of which nothing is asked about attributes is transparent. A run of steps on columns
fails as the plain query's run fails, or ends with the plain query as its base; the statement is then the
plain query's, the query counts as processed, and the catalogs are as they were, the counts of looks
included. With an entity this takes a select list without a bare name in it, since that would be the
code of an attribute. A group or a union member on any other base is added as the plain query that it
is. -/
theorem plain_run_transparent (e : Option EntityContext) (names : Naming) (c : Catalogs) (q : Select)
    (steps : List Step) (h : Step.PhysicalAll e names steps) :
    (run ⟨.around e names q, c⟩ steps).2 =
      (q.performAll names steps).map (fun u => ⟨.around e names u, c⟩) ∧
    (∀ u, q.performAll names steps = .ok u →
      (.attributes ∉ q.items → .attributes ∉ u.items) ∧
      (.attributes ∉ u.items → u.NamesNoAttribute e →
        (Builder.around e names u).statement c =
          (u.statement.mapError QueryError.render, { Builder.around e names u with phase := .processed },
            c))) ∧
    (∀ k e' names' u,
      (Builder.around e names q).addGroup k (.around e' names' u) =
        .around e names (q.addGroup k u.conditions)) ∧
    ∀ type e' names' u, .attributes ∉ u.items → u.NamesNoAttribute e' →
      (Builder.around e names q).union type (.around e' names' u) c =
        (.ok (.around e names (q.addUnion type u)), c) := by
  refine ⟨run_around c steps h, fun u hu => ⟨fun hq => Select.no_marker_performAll hq hu, ?_⟩,
    fun k _ _ u => Builder.addGroup_around k u, fun type _ _ _ => Builder.union_around type c⟩
  intro hmarker hnames
  unfold Builder.statement
  rw [Builder.process_around hmarker hnames c]
  rfl

end Session

namespace Sample

def listing : List Step :=
  [.select ["products.sku", "price as cost"], .group .or [],
    .filterColumn .and "price" (.compare ">" (.int 10)),
    .group .or [.filterColumn .and "sku" .isNull,
      .filterColumn .or "id" (.oneOf [.int 1, .int 2])], .sortByTimestamp .desc,
    .union .all .fresh none [.sortBy "id" .asc, .limit 1],
    .union .distinct (.table .mysql "archive") none [.select ["sku", "cost"]],
    .sortBy "cost" .asc, .limit 5, .offset 2]

end Sample

theorem Session.plain_run_transparent_sample :
    Step.PhysicalAll (some Sample.entity) {} Sample.listing ∧
      ∃ u, (run ⟨.ofEntity .sqlite Sample.entity, Sample.catalogs⟩ Sample.listing).2 =
          .ok ⟨.around (some Sample.entity) {} u, Sample.catalogs⟩ ∧
        (Builder.around (some Sample.entity) {} u).statement Sample.catalogs =
          (u.statement.mapError QueryError.render,
            { Builder.around (some Sample.entity) {} u with phase := .processed }, Sample.catalogs) := by
  have hlisting : Step.PhysicalAll (some Sample.entity) {} Sample.listing := by
    refine ⟨?_, trivial, trivial, ⟨trivial, trivial, trivial⟩, trivial,
      ⟨⟨trivial, trivial, trivial⟩, fun q u hu => .inr ?_⟩,
      ⟨⟨?_, trivial⟩, fun _ _ _ => .inl rfl⟩, trivial, trivial, trivial, trivial⟩
    · unfold Step.Physical
      decide +kernel
    · cases hu
      exact fun item hitem => absurd hitem List.not_mem_nil
    · unfold Step.Physical
      decide +kernel
  have hitems : ((Select.performAll {} { dialect := .sqlite, table := "products" }
      Sample.listing).map Select.items).toOption =
        some [.column (.qualified "products" "sku") none,
          .column (.bare "price") (some "cost")] := by decide +kernel
  obtain ⟨hrun, hstatement, -, -⟩ := plain_run_transparent (some Sample.entity) {} Sample.catalogs
    { dialect := .sqlite, table := "products" } Sample.listing hlisting
  cases hu : Select.performAll {} { dialect := .sqlite, table := "products" } Sample.listing with
  | error fault =>
    rw [hu] at hitems
    cases hitems
  | ok u =>
    rw [hu] at hitems hrun
    obtain ⟨-, hpass⟩ := hstatement u hu
    have hitems : u.items = _ := Option.some.inj hitems
    exact ⟨hlisting, u, hrun, hpass (by rw [hitems]; decide) (.inr (by rw [hitems]; decide))⟩

end EntityQuery
