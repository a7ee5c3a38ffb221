import EntityQuery.Proofs.Compilation

namespace EntityQuery

theorem Keyed.find?_filter {α κ : Type} [DecidableEq κ] {key : α → κ} (p : κ → Bool)
    (s : Keyed key) (k : κ) :
    (s.filter fun a => p (key a)).find? k = if p k then s.find? k else none := by
  unfold Keyed.find? Keyed.filter
  rw [List.find?_filter]
  by_cases hp : p k = true
  · rw [if_pos hp]
    congr 1
    funext a
    by_cases ha : key a = k <;> simp [ha, hp]
  · rw [if_neg hp]
    apply List.find?_eq_none.mpr
    intro a _
    by_cases ha : key a = k <;> simp [ha, hp]

theorem Keyed.filter_true {α κ : Type} {key : α → κ} (s : Keyed key) :
    (s.filter fun _ => true) = s :=
  Keyed.ext (List.filter_eq_self.mpr fun _ _ => rfl)

def Catalogs.looked (cs : Catalogs) (e : EntityContext) : Catalogs :=
  cs.put e.provider { cs e.provider with loads := (cs e.provider).loads + 1 }

theorem CodeSet.mem_insert {s : CodeSet} {a code : String} :
    code ∈ (s.insert a).toList ↔ code = a ∨ code ∈ s.toList := by
  have hplace (l : List String) : code ∈ SortedBy.place id a l ↔ code = a ∨ code ∈ l := by
    induction l with
    | nil => simp [SortedBy.place]
    | cons b rest ih =>
      unfold SortedBy.place
      by_cases hb : a = b
      · subst hb
        simp
      · split
        · simp
        · simp [hb, ih, or_left_comm]
  exact hplace s.toList

theorem CodeSet.mem_insertAll {s : CodeSet} {l : List String} {code : String} :
    code ∈ (s.insertAll l).toList ↔ code ∈ s.toList ∨ code ∈ l := by
  unfold SortedBy.insertAll
  induction l generalizing s with
  | nil => simp
  | cons a rest ih => simp [ih, CodeSet.mem_insert, or_assoc, or_left_comm]

/-- The column by which a query without joins refers to an attribute: that of the entity's table for a
static one, and the one with the value in its join for a dynamic one. -/
def Naming.columnOf (n : Naming) (e : Entity) (attributes : Attributes) (code : String) : Column :=
  match attributes.find? code with
  | some (.static _ column _) => .qualified e.table column
  | some (.dynamic ..) => .qualified (n.label code) n.valueColumn
  | none => .bare code

def SortKey.inScope (scope : SortScope) (keys : List (SortScope × SortKey)) : List SortKey :=
  (keys.filter (·.1 = scope)).map Prod.snd

namespace Select

theorem foldl_addJoin (q : Select) (joins : List Join) :
    joins.foldl addJoin q = { q with joins := q.joins ++ joins } := by
  induction joins generalizing q with
  | nil => cases q; simp
  | cons j rest ih => simp [ih, addJoin]

theorem foldl_addCondition (q : Select) (cs : List Condition) :
    cs.foldl addCondition q = { q with conditions := q.conditions ++ cs } := by
  induction cs generalizing q with
  | nil => cases q; simp
  | cons c rest ih => simp [ih, addCondition]

theorem foldl_addSortKey (q : Select) (keys : List (SortScope × SortKey)) :
    keys.foldl (fun q key => q.addSortKey key.1 key.2) q =
      { q with
        sortKeys := q.sortKeys ++ SortKey.inScope .own keys
        unionSortKeys := q.unionSortKeys ++ SortKey.inScope .union keys } := by
  induction keys generalizing q with
  | nil => cases q; simp [SortKey.inScope]
  | cons key rest ih =>
    obtain ⟨scope, key⟩ := key
    rw [List.foldl_cons, ih]
    cases scope <;> simp [addSortKey, SortKey.inScope]

end Select

theorem Expansion.isEvery_classify (items : List SelectItem) :
    (classify items).isEvery = true ↔ .attributes ∈ items := by
  unfold classify
  by_cases hm : .attributes ∈ items
  · simp [hm, isEvery]
  · rw [if_neg (by simpa using hm)]
    split <;> simp [hm, isEvery]

namespace Builder

abbrev expansion (b : Builder) : Expansion := Expansion.classify b.base.items

def schema (b : Builder) (e : Entity) (attributes : Attributes) : Schema where
  entity := e
  attributes :=
    if b.expansion.isEvery then attributes
    else attributes.filter fun a => (b.neededCodes b.expansion).contains a.code

def rules (b : Builder) (schema : Schema) : JoinRules where
  entity := schema.entity
  naming := b.naming
  types := b.joinTypes b.expansion schema.attributes

/-- What a pass stages, in terms of what was asked for. -/
structure Stages (b : Builder) (schema : Schema) (staged : Staged) : Prop where
  needed : ∀ code ∈ (b.neededCodes b.expansion).toList, schema.attributes.contains code = true
  requests : ∀ code ∈ Request.codesAll b.buffer.requests, (schema.attributes.find? code).isSome
  sorts : ∀ r ∈ b.buffer.sorts, (schema.attributes.find? r.code).isSome
  conditions : staged.conditions =
    Request.imageAll (schema.columnOf (b.rules schema) b.index) b.buffer.requests
  sortKeys : staged.sortKeys =
    b.buffer.sorts.map (SortRequest.image (schema.columnOf (b.rules schema) b.index))
  joins : ∃ s, JoinStage.Reaches (b.rules schema) { index := b.index } s ∧
    staged.joins = s.joins ∧ staged.index = s.index

theorem stages_of_stageWith {b : Builder} {schema : Schema} {staged : Staged}
    (h : b.stageWith b.expansion schema = .ok staged) : b.Stages schema staged := by
  unfold stageWith at h
  cases hn : (b.neededCodes b.expansion).toList.find? (!schema.attributes.contains ·) with
  | some code => simp [hn] at h
  | none =>
    simp only [hn] at h
    generalize hresolved : b.expansion.resolve _ _ _ _ = resolved at h
    obtain ⟨items, s⟩ := resolved
    have hs : JoinStage.Reaches (b.rules schema) { index := b.index } s := by
      have hs := b.expansion.resolve_reaches (b.rules schema) schema.attributes
        b.buffer.referenced { index := b.index }
      unfold rules at hs ⊢
      rwa [hresolved] at hs
    obtain ⟨⟨conditions, t⟩, hc, h⟩ := bind_eq_ok.mp h
    obtain ⟨⟨sortKeys, u⟩, hk, h⟩ := bind_eq_ok.mp h
    cases h
    obtain ⟨hcs, hst, hrequests⟩ := @Request.compileAll_eq_ok _ (b.rules schema) _ _ _ _ hc
    obtain ⟨hks, htu, hsorts⟩ := @SortRequest.compileAll_eq_ok _ (b.rules schema) _ _ _ _ hk
    rw [Schema.columnOf_reaches hs] at hcs
    rw [Schema.columnOf_reaches (hs.trans hst)] at hks
    refine ⟨?_, hrequests, hsorts, hcs, hks, u, (hs.trans hst).trans htu, rfl, rfl⟩
    simpa using List.find?_eq_none.mp hn

theorem stage_of_entity {b : Builder} {catalogs : Catalogs} {e : EntityContext}
    {attributes : Attributes} (hp : b.isPlain = false) (he : b.entity = some e)
    (ha : catalogs.attributes? e = some attributes) :
    b.stage catalogs =
      (some <$> b.stageWith b.expansion (b.schema e attributes), catalogs.looked e) := by
  unfold stage schema
  simp only [hp, he, Bool.false_eq_true, if_false]
  by_cases hx : b.expansion.isEvery = true
  · simp only [hx, if_true, Catalogs.load_of_attributes? ha, Option.all_none, Keyed.filter_true]
    rfl
  · simp only [hx, Catalogs.load_of_attributes? ha]
    rfl

theorem stageWith_of_stage {b : Builder} {catalogs : Catalogs} {staged : Staged}
    (h : (b.stage catalogs).1 = .ok (some staged)) :
    ∃ e attributes, b.entity = some e ∧ catalogs.attributes? e = some attributes ∧
      b.stageWith b.expansion (b.schema e attributes) = .ok staged := by
  cases hp : b.isPlain with
  | true => simp [stage, hp] at h
  | false =>
    cases he : b.entity with
    | none => simp [stage, hp, he] at h
    | some e =>
      cases ha : catalogs.attributes? e with
      | none => simp [stage, hp, he, Catalogs.load_of_none ha, bind, Except.bind] at h
      | some attributes =>
        rw [stage_of_entity hp he ha] at h
        obtain ⟨out, hs, hout⟩ := map_eq_ok.mp h
        cases hout
        exact ⟨e, attributes, rfl, ha, hs⟩

theorem stages_of_stage {b : Builder} {catalogs : Catalogs} {staged : Staged}
    (h : (b.stage catalogs).1 = .ok (some staged)) :
    ∃ e attributes, b.entity = some e ∧ catalogs.attributes? e = some attributes ∧
      b.Stages (b.schema e attributes) staged := by
  obtain ⟨e, attributes, he, ha, hs⟩ := stageWith_of_stage h
  exact ⟨e, attributes, he, ha, stages_of_stageWith hs⟩

theorem find?_schema {b : Builder} {e : Entity} {attributes : Attributes} {code : String}
    (h : ((b.schema e attributes).attributes.find? code).isSome) :
    (b.schema e attributes).attributes.find? code = attributes.find? code := by
  unfold schema at h ⊢
  split at h
  · next hx => rw [if_pos hx]
  · next hx =>
    rw [if_neg hx, Keyed.find?_filter (fun code => (b.neededCodes b.expansion).contains code)]
    rw [Keyed.find?_filter (fun code => (b.neededCodes b.expansion).contains code)] at h
    split at h
    · next hc => rw [if_pos hc]
    · simp at h

theorem find?_schema_of_needed {b : Builder} {e : Entity} {attributes : Attributes} {code : String}
    (h : code ∈ (b.neededCodes b.expansion).toList) :
    (b.schema e attributes).attributes.find? code = attributes.find? code := by
  have hc : (b.neededCodes b.expansion).contains code = true := by simpa [CodeSet.contains] using h
  unfold schema
  split
  · rfl
  · rw [Keyed.find?_filter (fun code => (b.neededCodes b.expansion).contains code), if_pos hc]

theorem exists_stage {b : Builder} {catalogs : Catalogs} {e : EntityContext} {attributes : Attributes}
    (hp : b.isPlain = false) (he : b.entity = some e)
    (ha : catalogs.attributes? e = some attributes)
    (hneeded : ∀ code ∈ (b.neededCodes b.expansion).toList, attributes.contains code = true)
    (hrequests : ∀ code ∈ Request.codesAll b.buffer.requests,
      code ∈ (b.neededCodes b.expansion).toList)
    (hsorts : ∀ r ∈ b.buffer.sorts, r.code ∈ (b.neededCodes b.expansion).toList) :
    ∃ staged, (b.stage catalogs).1 = .ok (some staged) := by
  have hknown : ∀ code ∈ (b.neededCodes b.expansion).toList,
      ((b.schema e attributes).attributes.find? code).isSome := by
    intro code hc
    rw [find?_schema_of_needed hc]
    exact hneeded code hc
  have hfind : (b.neededCodes b.expansion).toList.find?
      (!(b.schema e attributes).attributes.contains ·) = none := by
    simpa [List.find?_eq_none, Keyed.contains, Option.isSome_iff_ne_none] using hknown
  have hwith : ∃ staged, b.stageWith b.expansion (b.schema e attributes) = .ok staged := by
    unfold stageWith
    simp only [hfind]
    generalize b.expansion.resolve _ _ _ _ = resolved
    obtain ⟨items, s⟩ := resolved
    obtain ⟨⟨conditions, t⟩, hc⟩ := Request.exists_compileAll (b.rules (b.schema e attributes)) s
      b.buffer.requests fun code hm => hknown code (hrequests code hm)
    obtain ⟨⟨keys, u⟩, hk⟩ := SortRequest.exists_compileAll (b.rules (b.schema e attributes))
      (fun r hr => hknown r.code (hsorts r hr)) t
    unfold rules at hc hk
    exact ⟨_, by simp only [hc, hk, bind, Except.bind]; rfl⟩
  obtain ⟨staged, hs⟩ := hwith
  exact ⟨staged, by rw [stage_of_entity hp he ha, hs]; rfl⟩

/-- A pass that succeeds stages something, unless nothing is asked of attributes. -/
theorem exists_staged {b : Builder} {catalogs : Catalogs} {out : Option Staged}
    (hp : b.isPlain = false) (h : (b.stage catalogs).1 = .ok out) : ∃ staged, out = some staged := by
  cases out with
  | some staged => exact ⟨staged, rfl⟩
  | none =>
    exfalso
    unfold stage at h
    simp only [hp, Bool.false_eq_true, if_false] at h
    split at h
    · cases h
    · obtain ⟨schema, -, h⟩ := bind_eq_ok.mp h
      obtain ⟨staged, -, hout⟩ := map_eq_ok.mp h
      cases hout

theorem known_of_stage {b : Builder} {catalogs : Catalogs} {out : Option Staged}
    (hp : b.isPlain = false) (h : (b.stage catalogs).1 = .ok out) :
    ∃ e attributes, b.entity = some e ∧ catalogs.attributes? e = some attributes ∧
      ∀ code ∈ (b.neededCodes b.expansion).toList, attributes.contains code = true := by
  obtain ⟨staged, rfl⟩ := exists_staged hp h
  obtain ⟨e, attributes, he, ha, hs⟩ := stages_of_stage h
  refine ⟨e, attributes, he, ha, ?_⟩
  intro code hc
  have hk := hs.needed code hc
  unfold Keyed.contains at hk ⊢
  rwa [find?_schema_of_needed hc] at hk

theorem process_of_stage {b : Builder} {catalogs : Catalogs} {staged : Staged}
    (hphase : b.phase ≠ .processed) (h : (b.stage catalogs).1 = .ok (some staged)) :
    b.process catalogs =
      (.ok (), { b.commit staged with phase := .processed }, (b.stage catalogs).2) := by
  unfold process
  rw [if_neg hphase]
  generalize b.stage catalogs = out at h ⊢
  obtain ⟨result, catalogs'⟩ := out
  subst h
  rfl

theorem process_of_isPlain {b : Builder} {catalogs : Catalogs} (hphase : b.phase ≠ .processed)
    (h : b.isPlain = true) :
    b.process catalogs = (.ok (), { b with phase := .processed }, catalogs) := by
  unfold process stage
  rw [if_neg hphase, if_pos h]

/-- What the base query of a commit is, field by field: the select list is replaced if it was expanded,
and everything else that was staged comes behind what was there. -/
theorem base_commit (b : Builder) (staged : Staged) :
    (b.commit staged).base =
      { b.base with
        items := staged.items.getD b.base.items
        joins := b.base.joins ++ staged.joins
        conditions := b.base.conditions ++ staged.conditions
        sortKeys := b.base.sortKeys ++ SortKey.inScope .own staged.sortKeys
        unionSortKeys := b.base.unionSortKeys ++ SortKey.inScope .union staged.sortKeys } := by
  simp only [commit, Select.foldl_addSortKey, Select.foldl_addCondition, Select.foldl_addJoin]

theorem conditions_commit (b : Builder) (staged : Staged) :
    (b.commit staged).base.conditions = b.base.conditions ++ staged.conditions := by
  rw [base_commit]

theorem columnOf_schema {b : Builder} {e : Entity} {attributes : Attributes} {code : String}
    (hindex : b.index = ∅) (h : ((b.schema e attributes).attributes.find? code).isSome) :
    (b.schema e attributes).columnOf (b.rules (b.schema e attributes)) b.index code =
      b.naming.columnOf e attributes code := by
  unfold Schema.columnOf Naming.columnOf
  rw [hindex, find?_schema h]
  cases ha : attributes.find? code with
  | none => rfl
  | some a =>
    have hcode : a.code = code := by simpa using List.find?_some ha
    subst hcode
    cases a <;> rfl

/-- The clauses and orderings staged are the image of what was asked for, under one function from
codes to columns. -/
theorem staged_image {b : Builder} {catalogs : Catalogs} {staged : Staged} (hindex : b.index = ∅)
    (h : (b.stage catalogs).1 = .ok (some staged)) :
    ∃ e attributes, b.entity = some e ∧ catalogs.attributes? e = some attributes ∧
      (∀ code ∈ Request.codesAll b.buffer.requests ++ b.buffer.sorts.map SortRequest.code,
        attributes.contains code = true) ∧
      staged.conditions =
        Request.imageAll (b.naming.columnOf e attributes) b.buffer.requests ∧
      staged.sortKeys =
        b.buffer.sorts.map (SortRequest.image (b.naming.columnOf e attributes)) := by
  obtain ⟨e, attributes, he, ha, hs⟩ := stages_of_stage h
  refine ⟨e, attributes, he, ha, ?_, ?_, ?_⟩
  · intro code hm
    have hk : ((b.schema e attributes).attributes.find? code).isSome := by
      obtain hm | hm := List.mem_append.mp hm
      · exact hs.requests code hm
      · obtain ⟨r, hr, rfl⟩ := List.mem_map.mp hm
        exact hs.sorts r hr
    rwa [find?_schema hk] at hk
  · rw [hs.conditions]
    exact Request.imageAll_congr fun code hm => columnOf_schema hindex (hs.requests code hm)
  · rw [hs.sortKeys]
    apply List.map_congr_left
    intro r hr
    rw [SortRequest.image, SortRequest.image, columnOf_schema hindex (hs.sorts r hr)]

end Builder

namespace Sample

def entity : EntityContext := { code := "product", table := "products", provider := 0 }

def catalogs : Catalogs :=
  ((Catalogs.empty.register entity (.ofColumn "sku" .varchar)).register entity
    (.ofEntity entity 2 "color" .varchar)).register entity (.ofEntity entity 3 "size" .varchar)

def weight : Attribute := .ofEntity entity 4 "weight" .int

def group : Builder where
  base :=
    { dialect := .sqlite, table := "products"
      conditions := [.test .and (.bare "id") (.compare .gt (.int 10))] }
  entity := some entity
  buffer := (Buffer.addTest {} .or "size" (.compare .eq (.string "L"))).addSort
    { code := "size", direction := .asc, scope := .own }

def query : Builder :=
  ({ Builder.ofEntity .sqlite entity with
    buffer := Buffer.addTest {} .and "color" (.oneOf [.string "red"] true) }.addGroup .and
    group).sortByAttribute "sku" .desc

end Sample

theorem Builder.staged_image_sample :
    Sample.query.index = ∅ ∧ ∃ staged, (Sample.query.stage Sample.catalogs).1 = .ok (some staged) ∧
      ∃ e attributes, Sample.query.entity = some e ∧
        Sample.catalogs.attributes? e = some attributes ∧
        (∀ code ∈ Request.codesAll Sample.query.buffer.requests ++
            Sample.query.buffer.sorts.map SortRequest.code, attributes.contains code = true) ∧
        staged.conditions =
          Request.imageAll (Sample.query.naming.columnOf e attributes)
            Sample.query.buffer.requests ∧
        staged.sortKeys =
          Sample.query.buffer.sorts.map
            (SortRequest.image (Sample.query.naming.columnOf e attributes)) :=
  ⟨rfl, _, rfl, Builder.staged_image rfl rfl⟩

end EntityQuery
