import EntityQuery.Proofs.PassOutcomes
import EntityQuery.Proofs.SelectLists
import EntityQuery.Proofs.StagedJoinTypes

namespace EntityQuery

def Attributes.isDynamic (attributes : Attributes) (code : String) : Bool :=
  (attributes.find? code).any Attribute.isDynamic

theorem Attributes.isDynamic_code {attributes : Attributes} {a : Attribute}
    (ha : a ∈ attributes.toList) : attributes.isDynamic a.code = a.isDynamic := by
  unfold isDynamic
  rw [attributes.find?_of_mem ha]
  rfl

theorem Attributes.isDynamic_iff {attributes : Attributes} {code : String} :
    attributes.isDynamic code = true ↔
      ∃ id table storage, attributes.find? code = some (.dynamic id code table storage) := by
  unfold isDynamic
  constructor
  · intro h
    cases hfind : attributes.find? code with
    | none => simp [hfind] at h
    | some a =>
      have hcode : a.code = code := by simpa using List.find?_some hfind
      cases a with
      | static => simp [hfind, Attribute.isDynamic] at h
      | dynamic id other table storage =>
        obtain rfl : other = code := hcode
        exact ⟨id, table, storage, rfl⟩
  · rintro ⟨id, table, storage, hfind⟩
    rw [hfind]
    rfl

theorem Schema.map_code_named {schema : Schema} {codes : List String}
    (h : ∀ code ∈ codes, (schema.attributes.find? code).isSome) :
    (schema.named codes).map Attribute.code = codes := by
  induction codes with
  | nil => rfl
  | cons code rest ih =>
    obtain ⟨hcode, hrest⟩ := List.forall_mem_cons.mp h
    obtain ⟨a, ha⟩ := Option.isSome_iff_exists.mp hcode
    have hkey : a.code = code := by simpa using List.find?_some ha
    have ih := ih hrest
    unfold named at ih ⊢
    rw [List.filterMap_cons_some ha, List.map_cons, hkey, ih]

theorem JoinRules.forall₂_joinFor {rules : JoinRules} {attributes : Attributes} {l : List Attribute}
    (hl : ∀ a ∈ l, a ∈ attributes.toList) :
    List.Forall₂
      (fun code j => ∃ id table storage,
        attributes.find? code = some (.dynamic id code table storage) ∧
          j = rules.join id code table (rules.types.type code))
      ((l.map Attribute.code).filter attributes.isDynamic).eraseDups
      (l.eraseDups.filterMap rules.joinFor?) := by
  induction l using List.reverseRecOn with
  | nil => exact .nil
  | append_singleton l a ih =>
    obtain ⟨hbefore, ha⟩ := List.forall_mem_append.mp hl
    have ha := ha a (List.mem_singleton_self a)
    have ih := ih hbefore
    have hdynamic := Attributes.isDynamic_code ha
    have hfind := attributes.find?_of_mem ha
    rw [List.map_append, List.filter_append, List.map_singleton, eraseDups_concat]
    cases a with
    | static code column storage =>
      have hjoin : rules.joinFor? (.static code column storage) = none := rfl
      rw [List.filter_cons_of_neg (by simp [hdynamic, Attribute.isDynamic]), List.filter_nil,
        List.append_nil]
      split
      · exact ih
      · rwa [List.filterMap_append, List.filterMap_cons_none hjoin, List.filterMap_nil,
          List.append_nil]
    | dynamic id code table storage =>
      have hmem : code ∈ (l.map Attribute.code).filter attributes.isDynamic ↔
          .dynamic id code table storage ∈ l := by
        constructor
        · intro hm
          obtain ⟨b, hb, hcode⟩ := List.mem_map.mp (List.mem_filter.mp hm).1
          exact Keyed.eq_of_code (hbefore b hb) ha hcode ▸ hb
        · intro hm
          exact List.mem_filter.mpr ⟨List.mem_map.mpr ⟨_, hm, rfl⟩, hdynamic⟩
      rw [List.filter_cons_of_pos (by simp [hdynamic, Attribute.isDynamic]), List.filter_nil,
        Attribute.code, eraseDups_concat]
      simp only [hmem]
      split
      · exact ih
      · rw [List.filterMap_append]
        exact List.rel_append ih (.cons ⟨id, table, storage, hfind, rfl⟩ .nil)

namespace Builder

/-- The codes of the dynamic attributes that a query asks for, one by one: those that its select list
shows, those of its predicates, depth first, and those of its own orderings. -/
def dynamicCodes (b : Builder) (attributes : Attributes) : List String :=
  ((SelectItem.shown b.base.items attributes b.buffer.referenced).map Attribute.code ++
      Request.codesAll b.buffer.requests ++ b.buffer.sorts.map SortRequest.code).filter
    attributes.isDynamic

/-- The join of an entity's rows with the values of a dynamic attribute. -/
def IsJoinFor (b : Builder) (e : Entity) (attributes : Attributes) (code : String) (j : Join) : Prop :=
  ∃ id storage, attributes.find? code = some (.dynamic id code j.table storage) ∧
    j.label = some (code ++ b.naming.labelSuffix) ∧
    j.tests = [
      .columns (.qualified (code ++ b.naming.labelSuffix) b.naming.entityColumn)
        (.qualified e.table e.key),
      .value (.qualified (code ++ b.naming.labelSuffix) b.naming.attributeColumn) (.int id)]

variable {b : Builder} {e : EntityContext} {attributes : Attributes} {staged : Staged}

theorem mem_of_mem_schema {a : Attribute} (h : a ∈ (b.schema e attributes).attributes.toList) :
    a ∈ attributes.toList := by
  have hfind := Keyed.find?_of_mem h
  rw [find?_schema (by rw [hfind]; rfl)] at hfind
  exact List.mem_of_find?_eq_some hfind

theorem map_code_asked (hs : b.Stages (b.schema e attributes) staged) :
    ((b.asked (b.schema e attributes)).map Attribute.code).filter attributes.isDynamic =
      b.dynamicCodes attributes := by
  have hsorts : ∀ code ∈ b.buffer.sorts.map SortRequest.code,
      ((b.schema e attributes).attributes.find? code).isSome := by
    intro code hm
    obtain ⟨r, hr, rfl⟩ := List.mem_map.mp hm
    exact hs.sorts r hr
  unfold asked dynamicCodes expansion
  rw [List.map_append, List.map_append, Schema.map_code_named hs.requests,
    Schema.map_code_named hsorts, SelectItem.projected_eq, shown_schema]

theorem Joins.forall₂_isJoinFor (hindex : b.index = ∅) (hs : b.Stages (b.schema e attributes) staged)
    (hj : b.Joins (b.schema e attributes) staged) :
    List.Forall₂ (b.IsJoinFor e attributes) (b.dynamicCodes attributes).eraseDups staged.joins := by
  have hasked : ∀ a ∈ b.asked (b.schema e attributes), a ∈ attributes.toList :=
    fun a ha => mem_of_mem_schema (mem_of_asked ha)
  rw [hj.joins_eq hindex, (JoinStage.joinAll_eq hasked).2, ← map_code_asked hs]
  refine (JoinRules.forall₂_joinFor hasked).imp fun code j hjoin => ?_
  obtain ⟨id, table, storage, hfind, rfl⟩ := hjoin
  exact ⟨id, storage, hfind, rfl, rfl⟩

theorem exists_label_iff {codes : List String} {joins : List Join}
    (h : List.Forall₂ (b.IsJoinFor e attributes) codes.eraseDups joins) {code : String} :
    (∃ j ∈ joins, j.label = some (b.naming.label code)) ↔ code ∈ codes := by
  constructor
  · rintro ⟨j, hm, hl⟩
    obtain ⟨other, hother, id, storage, -, hlabel, -⟩ := exists_of_mem_right h hm
    obtain rfl : other = code := b.naming.label_injective (Option.some.inj (hlabel.symm.trans hl))
    exact List.mem_eraseDups.mp hother
  · intro hm
    obtain ⟨j, hm, id, storage, -, hlabel, -⟩ := exists_of_mem_left h (List.mem_eraseDups.mpr hm)
    exact ⟨j, hm, hlabel⟩

theorem AsksNothing.dynamicCodes_eq (h : b.AsksNothing) (he : b.entity = some e) :
    b.dynamicCodes attributes = [] := by
  obtain ⟨hrequests, hsorts, hlist | ⟨hnone, -⟩⟩ := h
  · have hshow (code : String) : ¬ SelectItem.Show b.base.items b.buffer.referenced code := by
      rw [← Expansion.includes_iff, show Expansion.classify b.base.items = .untouched from hlist]
      simp [Expansion.includes]
    simp [dynamicCodes, SelectItem.shown, hshow, hrequests, hsorts, Request.codesAll]
  · rw [he] at hnone
    cases hnone

theorem asksNothing_of_stage (hb : b.Reachable) {catalogs : Catalogs}
    (h : (b.stage catalogs).1 = .ok none) : b.AsksNothing := by
  obtain ⟨hasks, -⟩ | ⟨-, -, hs⟩ | ⟨-, other, -, -, hs⟩ := stage_cases (hb _ kept_exact) catalogs
  · exact hasks
  · simp [hs] at h
  · obtain ⟨-, hs⟩ | ⟨known, -, ⟨code, -, -, hs⟩ | ⟨-, staged, hs⟩⟩ := hs <;> simp [hs] at h

/-- The joins that a pass stages are those for the codes that the query asks for, in the order in which
it first does and each once. An attribute in the table has none, and neither has one that only groups
order by, unless the select list shows it. A pass that stages nothing was asked for no attribute. -/
theorem staged_joins_in_order (hindex : b.index = ∅) (catalogs : Catalogs) :
    (∀ staged, (b.stage catalogs).1 = .ok (some staged) →
      ∃ e attributes, b.entity = some e ∧ catalogs.attributes? e = some attributes ∧
        List.Forall₂ (b.IsJoinFor e attributes) (b.dynamicCodes attributes).eraseDups staged.joins ∧
        (staged.joins.map Join.reference).Nodup ∧
        (∀ code, (∃ j ∈ staged.joins, j.label = some (b.naming.label code)) ↔
          code ∈ b.dynamicCodes attributes) ∧
        (∀ code column storage, attributes.find? code = some (.static code column storage) →
          ∀ j ∈ staged.joins, j.label ≠ some (b.naming.label code)) ∧
        ∀ code, code ∉ Request.codesAll b.buffer.requests →
          code ∉ b.buffer.sorts.map SortRequest.code →
          ¬ SelectItem.Show b.base.items b.buffer.referenced code →
          ∀ j ∈ staged.joins, j.label ≠ some (b.naming.label code)) ∧
    (b.Reachable → (b.stage catalogs).1 = .ok none → ∀ e attributes, b.entity = some e →
      b.dynamicCodes attributes = []) := by
  refine ⟨fun staged h => ?_, fun hb hnone e attributes he =>
    (asksNothing_of_stage hb hnone).dynamicCodes_eq he⟩
  obtain ⟨e, attributes, he, ha, hs, hj⟩ := joins_of_stage h
  obtain ⟨-, rules, -, -, -, hpaired⟩ := paired_of_stage hindex h
  have hjoins := hj.forall₂_isJoinFor hindex hs
  refine ⟨e, attributes, he, ha, hjoins, hpaired.nodup_references, fun code => exists_label_iff hjoins,
    ?_, ?_⟩
  · intro code column storage hfind j hm hl
    have hcode := (exists_label_iff hjoins).mp ⟨j, hm, hl⟩
    obtain ⟨id, table, storage', hdynamic⟩ :=
      Attributes.isDynamic_iff.mp (List.mem_filter.mp hcode).2
    rw [hfind] at hdynamic
    cases hdynamic
  · intro code hrequests hsorts hshow j hm hl
    have hcode := (List.mem_filter.mp ((exists_label_iff hjoins).mp ⟨j, hm, hl⟩)).1
    simp only [List.mem_append, hrequests, hsorts, or_false] at hcode
    obtain ⟨a, hshown, rfl⟩ := List.mem_map.mp hcode
    have hshown := (List.mem_filter.mp hshown).2
    simp [hshow] at hshown

end Builder

namespace Sample

def repeated : Builder :=
  ({ Builder.ofEntity .sqlite entity with
    buffer := Buffer.addTest {} .and "color" (.compare .eq (.string "red")) }.addGroup .or
    { Builder.ofEntity .sqlite entity with
      buffer := ((Buffer.addTest {} .and "sku" (.isNull true)).addTest .or "color"
        (.compare .eq (.string "blue"))).addSort { code := "size", direction := .asc, scope := .own } }
    ).sortByAttribute "color" .desc

def repeatedWith (items : List SelectItem) : Builder :=
  { repeated with base := { repeated.base with items } }

end Sample

/-- Sizes are joined only where the select list names an attribute, whichever that is. -/
theorem Builder.staged_joins_in_order_sample :
    (∃ staged, (Sample.repeated.stage Sample.catalogs).1 = .ok (some staged) ∧
      staged.joins.map Join.reference = ["color_attr"] ∧
      ∀ j ∈ staged.joins, j.label ≠ some "size_attr") ∧
    ∃ staged,
      ((Sample.repeatedWith [.column (.bare "sku") none]).stage Sample.catalogs).1 =
        .ok (some staged) ∧
      staged.joins.map Join.reference = ["color_attr", "size_attr"] := by
  have hrepeated := Builder.staged_joins_in_order (b := Sample.repeated) rfl Sample.catalogs
  obtain ⟨staged, h, hreferences⟩ : ∃ staged,
      (Sample.repeated.stage Sample.catalogs).1 = .ok (some staged) ∧
        staged.joins.map Join.reference = ["color_attr"] := ⟨_, rfl, rfl⟩
  obtain ⟨e, attributes, he, ha, -, -, -, -, hgroups⟩ := hrepeated.1 staged h
  refine ⟨⟨staged, h, hreferences, hgroups "size" (by decide) (by decide) (by decide)⟩, ?_⟩
  exact ⟨_, rfl, rfl⟩

end EntityQuery
