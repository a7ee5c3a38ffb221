import EntityQuery.Proofs.PassOutcomes
import EntityQuery.Proofs.Scope
import EntityQuery.Proofs.SelectLists
import EntityQuery.Proofs.StagedJoinTypes

namespace EntityQuery

theorem SelectItem.filter_isKept (items : List SelectItem) :
    (items.filter (·.code?.isNone)).filter SelectItem.isKept = items.filter SelectItem.isKept := by
  rw [List.filter_filter]
  congr 1
  funext item
  cases item <;> simp [SelectItem.isKept]

namespace Builder

variable {b : Builder} {catalogs : Catalogs} {e : EntityContext} {attributes : Attributes} {code : String}
  {staged : Staged}

theorem kept?_of_name (hname : .column (.bare code) none ∈ b.base.items) :
    b.expansion.kept? = some (b.base.items.filter (·.Stays)) := by
  obtain ⟨-, h⟩ | ⟨hnone, -⟩ := Expansion.kept?_eq b.base.items
  · exact h
  · exact absurd (.inr ⟨code, hname⟩) hnone

theorem isPlain_of_name (he : b.entity = some e) (hname : .column (.bare code) none ∈ b.base.items) :
    b.isPlain = false := by
  have hkept : (Expansion.classify b.base.items).kept? = some _ := kept?_of_name hname
  have hx : (Expansion.classify b.base.items).isUntouched = false := by
    cases h : Expansion.classify b.base.items with
    | untouched =>
      rw [h] at hkept
      cases hkept
    | every kept => rfl
    | named codes kept => rfl
  simp [isPlain, hx, he]

theorem show_of_name (hname : .column (.bare code) none ∈ b.base.items) (referenced : CodeSet) :
    SelectItem.Show b.base.items referenced code := by
  by_cases hm : .attributes ∈ b.base.items
  · exact .inl hm
  · exact .inr ⟨⟨code, hname⟩, .inl hname⟩

theorem mem_projected {a : Attribute} (hname : .column (.bare code) none ∈ b.base.items)
    (hfind : attributes.find? code = some a) (hd : a.isDynamic = true) :
    a ∈ b.expansion.projected (b.schema e attributes).attributes b.buffer.referenced := by
  have hcode : a.code = code := by simpa using List.find?_some hfind
  have hshow := show_of_name hname b.buffer.referenced
  rw [expansion, SelectItem.projected_eq, shown_schema]
  exact List.mem_filter.mpr ⟨List.mem_of_find?_eq_some hfind, by simp [hd, hcode, hshow]⟩

/-- What a query has in its select list for an attribute once it took over a pass: the columns of the
entity's table, with that of a static attribute among them, or the labelled value column of one of its
joins. Where the query was not processed before, that is the join for the attribute. -/
def Shows (b : Builder) (e : Entity) (staged : Staged) : Attribute → Prop
  | .static .. => .allOf e.table ∈ (b.commit staged).base.items
  | .dynamic id code table _ => ∃ c, .column c (some code) ∈ (b.commit staged).base.items ∧
      (∃ j ∈ (b.commit staged).base.joins, ∃ name, j.label = some name ∧ c.table = some name) ∧
      (b.phase ≠ .processed →
        c = .qualified (b.naming.label code) b.naming.valueColumn ∧
        ∃ type, JoinRules.join { entity := e, naming := b.naming } id code table type ∈
          (b.commit staged).base.joins)

theorem shows_of_stage (hb : b.Reachable) (he : b.entity = some e)
    (ha : catalogs.attributes? e = some attributes)
    (hname : .column (.bare code) none ∈ b.base.items)
    (h : (b.stage catalogs).1 = .ok (some staged)) {a : Attribute}
    (hfind : attributes.find? code = some a) : b.Shows e staged a := by
  obtain ⟨e', attributes', he', ha', -, hj⟩ := joins_of_stage h
  obtain rfl : e = e' := Option.some.inj (he.symm.trans he')
  obtain rfl : attributes = attributes' := Option.some.inj (ha.symm.trans ha')
  have hitems : (b.commit staged).base.items = .allOf e.table ::
      b.base.items.filter (·.Stays) ++
        (b.expansion.projected (b.schema e attributes).attributes b.buffer.referenced).map fun a =>
          .column ((b.rules (b.schema e attributes)).columnOf b.index a) (some a.code) := by
    rw [base_commit, hj.items, kept?_of_name hname]
    rfl
  have hcode : a.code = code := by simpa using List.find?_some hfind
  cases a with
  | static =>
    unfold Shows
    rw [hitems]
    exact List.mem_cons_self
  | dynamic id other table storage =>
    obtain rfl : other = code := hcode
    have hprojected := mem_projected (e := e) hname hfind rfl
    have hasked : .dynamic id other table storage ∈ b.asked (b.schema e attributes) :=
      List.mem_append_left _ (List.mem_append_left _ hprojected)
    have hstart := (hb _ kept_knowsJoins).scoped (b.rules (b.schema e attributes))
    refine ⟨_, ?_, exists_join_of_asked hstart hj hasked rfl, fun hphase => ?_⟩
    · rw [hitems]
      exact List.mem_append_right _ (List.mem_map.mpr ⟨_, hprojected, rfl⟩)
    · have hindex : b.index = ∅ := hb _ kept_index hphase
      refine ⟨?_, (b.rules (b.schema e attributes)).types.type other, ?_⟩
      · rw [hindex]
        rfl
      · rw [base_commit]
        exact List.mem_append_right _ ((hj.mem_iff hindex).mpr ⟨_, _, _, _, hasked, rfl⟩)

/-- Without the marker a name that is no attribute's makes the pass fail, for the least code that the
query lacks an attribute for. -/
theorem stage_of_unknown_name (he : b.entity = some e)
    (ha : catalogs.attributes? e = some attributes)
    (hname : .column (.bare code) none ∈ b.base.items) (hmarker : .attributes ∉ b.base.items)
    (hunknown : attributes.find? code = none) :
    ∃ missing, b.Lacks attributes missing ∧ (∀ other, b.Lacks attributes other → missing ≤ other) ∧
      (b.stage catalogs).1 = .error (.unknownAttribute e.code missing) := by
  have hlacks : b.Lacks attributes code := by
    refine lacks_iff.mpr ⟨?_, by simp [Keyed.contains, hunknown]⟩
    exact mem_neededCodes_of_show hmarker (show_of_name hname b.buffer.referenced)
  cases hf : (b.neededCodes b.expansion).toList.find?
      (!(b.schema e attributes).attributes.contains ·) with
  | none =>
    obtain ⟨hneeded, hmissing⟩ := lacks_iff.mp hlacks
    have hfound := List.find?_eq_none.mp hf code hneeded
    simp [contains_schema hneeded, hmissing] at hfound
  | some missing =>
    obtain ⟨hl, hleast⟩ := find?_neededCodes.mp hf
    refine ⟨missing, hl, hleast, ?_⟩
    rw [stage_of_entity (isPlain_of_name he hname) he ha, stageWith, hf]
    rfl

def withoutNames (b : Builder) : Builder :=
  { b with base := { b.base with items := b.base.items.filter (·.code?.isNone) } }

theorem stage_withoutNames (hmarker : .attributes ∈ b.base.items) (catalogs : Catalogs) :
    b.stage catalogs = b.withoutNames.stage catalogs := by
  have hrest : .attributes ∈ b.withoutNames.base.items := List.mem_filter.mpr ⟨hmarker, rfl⟩
  have hsame : Expansion.classify b.base.items = Expansion.classify b.withoutNames.base.items := by
    rw [Expansion.classify_of_marker hmarker, Expansion.classify_of_marker hrest, withoutNames,
      SelectItem.filter_isKept]
  unfold stage isPlain
  rw [hsame]
  rfl

/-- What becomes of a bare name in a select list. If the pass succeeds and the name is the code of an
attribute, the query shows it. If it is not, the pass fails, unless the list has the attribute marker: a
list with the marker is taken as if it had no bare names. -/
theorem stage_of_name (hb : b.Reachable) (he : b.entity = some e)
    (ha : catalogs.attributes? e = some attributes)
    (hname : .column (.bare code) none ∈ b.base.items) :
    (∀ out, (b.stage catalogs).1 = .ok out → ∃ staged, out = some staged ∧
      ∀ a, attributes.find? code = some a → b.Shows e staged a) ∧
    (attributes.find? code = none → .attributes ∉ b.base.items → ∃ missing,
      b.Lacks attributes missing ∧ (∀ other, b.Lacks attributes other → missing ≤ other) ∧
        (b.stage catalogs).1 = .error (.unknownAttribute e.code missing)) ∧
    (.attributes ∈ b.base.items → b.stage catalogs = b.withoutNames.stage catalogs) := by
  refine ⟨fun out h => ?_, fun hunknown hmarker => ?_, fun hmarker => ?_⟩
  · obtain ⟨staged, rfl⟩ := exists_staged (isPlain_of_name he hname) h
    exact ⟨staged, rfl, fun a hfind => shows_of_stage hb he ha hname h hfind⟩
  · exact stage_of_unknown_name he ha hname hmarker hunknown
  · exact stage_withoutNames hmarker catalogs

end Builder

namespace Sample

def chosen : Builder :=
  { Builder.ofEntity .sqlite entity with
    base :=
      { dialect := .sqlite, table := "products"
        items := [.column (.bare "sku") none, .column (.qualified "products" "id") (some "key"),
          .column (.bare "color") none] } }

def chosenWithMarker : Builder :=
  { Builder.ofEntity .sqlite entity with
    base :=
      { dialect := .sqlite, table := "products"
        items := [.attributes, .column (.bare "weight") none] } }

end Sample

theorem Builder.stage_of_name_sample :
    Sample.chosen.Reachable ∧ ∃ staged, (Sample.chosen.stage Sample.catalogs).1 = .ok (some staged) ∧
      Sample.chosen.Shows Sample.entity staged (.ofColumn "sku" .varchar) ∧
      Sample.chosen.Shows Sample.entity staged (.ofEntity Sample.entity 2 "color" .varchar) := by
  have hb : Sample.chosen.Reachable := Builder.reachable_blank _ _ _
  have hstage : ∃ staged, (Sample.chosen.stage Sample.catalogs).1 = .ok (some staged) := ⟨_, rfl⟩
  obtain ⟨staged, h⟩ := hstage
  have ha : Sample.catalogs.attributes? Sample.entity = some _ := rfl
  obtain ⟨hsku, -⟩ := Builder.stage_of_name hb rfl ha
    (.head _ : .column (.bare "sku") none ∈ Sample.chosen.base.items)
  obtain ⟨hcolor, -⟩ := Builder.stage_of_name hb rfl ha
    (.tail _ (.tail _ (.head _)) : .column (.bare "color") none ∈ Sample.chosen.base.items)
  obtain ⟨_, ⟨⟩, hsku⟩ := hsku _ h
  obtain ⟨_, ⟨⟩, hcolor⟩ := hcolor _ h
  exact ⟨hb, _, h, hsku _ rfl, hcolor _ rfl⟩

/-- Beside the marker a name passes that is no attribute's. -/
theorem exists_unknown_name_accepted :
    .column (.bare "weight") none ∈ Sample.chosenWithMarker.base.items ∧
      Sample.chosenWithMarker.entity = some Sample.entity ∧
      (Sample.catalogs.attributes? Sample.entity).map (·.contains "weight") = some false ∧
      ∃ staged, (Sample.chosenWithMarker.stage Sample.catalogs).1 = .ok (some staged) :=
  ⟨.tail _ (.head _), rfl, rfl, _, rfl⟩

end EntityQuery
