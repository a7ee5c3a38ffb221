import EntityQuery.Proofs.JoinOrder
import Mathlib.Data.List.Nodup

namespace EntityQuery

namespace SelectItem

def Stays (item : SelectItem) : Prop :=
  item ≠ .all ∧ item ≠ .attributes ∧ ∀ name, item ≠ .column (.bare name) none

theorem isKept_iff (item : SelectItem) : item.isKept = true ↔ item.Stays := by
  unfold Stays
  rcases item with _ | table | ⟨⟨_ | table, name⟩, _ | label⟩ | _ <;>
    simp [isKept, code?, Column.bare]

instance : DecidablePred Stays := fun item => decidable_of_iff _ item.isKept_iff

def AskForAttributes (items : List SelectItem) : Prop :=
  .attributes ∈ items ∨ ∃ name, .column (.bare name) none ∈ items

/-- Whether a list shows the attribute with a code: the marker shows all of them, and a list with bare
names those that it names or that the query refers to elsewhere. -/
def Show (items : List SelectItem) (referenced : CodeSet) (code : String) : Prop :=
  .attributes ∈ items ∨ (∃ name, .column (.bare name) none ∈ items) ∧
    (.column (.bare code) none ∈ items ∨ code ∈ referenced.toList)

theorem code?_eq_some {item : SelectItem} {code : String} :
    item.code? = some code ↔ item = .column (.bare code) none := by
  rcases item with _ | table | ⟨⟨_ | table, name⟩, _ | label⟩ | _ <;> simp [code?, Column.bare]

end SelectItem

namespace Expansion

open SelectItem

variable {items : List SelectItem}

theorem mem_names {code : String} :
    code ∈ (items.filterMap SelectItem.code?).eraseDups ↔ .column (.bare code) none ∈ items := by
  simp only [List.mem_eraseDups, List.mem_filterMap, code?_eq_some, exists_eq_right]

theorem classify_of_marker (h : .attributes ∈ items) :
    classify items = .every (items.filter SelectItem.isKept) := by
  simp [classify, h]

theorem classify_cases (items : List SelectItem) :
    (.attributes ∈ items ∧ classify items = .every (items.filter SelectItem.isKept)) ∨
    (.attributes ∉ items ∧ (∃ name, .column (.bare name) none ∈ items) ∧
      classify items =
        .named (items.filterMap SelectItem.code?).eraseDups (items.filter SelectItem.isKept)) ∨
    (¬ AskForAttributes items ∧ classify items = .untouched) := by
  by_cases hm : .attributes ∈ items
  · exact .inl ⟨hm, classify_of_marker hm⟩
  · right
    unfold classify AskForAttributes
    rw [if_neg (by simpa using hm)]
    by_cases hn : ∃ name, .column (.bare name) none ∈ items
    · obtain ⟨name, hname⟩ := hn
      refine .inl ⟨hm, ⟨name, hname⟩, if_neg ?_⟩
      simpa using List.ne_nil_of_mem (mem_names.mpr hname)
    · refine .inr ⟨by simp [hm, hn], if_pos ?_⟩
      rw [List.isEmpty_iff, List.eq_nil_iff_forall_not_mem]
      exact fun code hcode => hn ⟨code, mem_names.mp hcode⟩

theorem kept?_eq (items : List SelectItem) :
    (AskForAttributes items ∧ (classify items).kept? = some (items.filter (·.Stays))) ∨
      (¬ AskForAttributes items ∧ (classify items).kept? = none) := by
  have hfilter : items.filter SelectItem.isKept = items.filter (·.Stays) :=
    List.filter_congr fun item _ => Bool.eq_iff_iff.mpr (by simp [isKept_iff])
  obtain ⟨hm, h⟩ | ⟨-, hn, h⟩ | ⟨hnone, h⟩ := classify_cases items
  · exact .inl ⟨.inl hm, by rw [h, ← hfilter]; rfl⟩
  · exact .inl ⟨.inr hn, by rw [h, ← hfilter]; rfl⟩
  · exact .inr ⟨hnone, by rw [h]; rfl⟩

theorem includes_iff (referenced : CodeSet) (code : String) :
    (classify items).includes referenced code = true ↔ Show items referenced code := by
  unfold Show
  obtain ⟨hm, h⟩ | ⟨hm, hn, h⟩ | ⟨hnone, h⟩ := classify_cases items
  · rw [h]
    simp [includes, hm]
  · rw [h]
    simp only [includes, CodeSet.contains, Bool.or_eq_true, decide_eq_true_eq, List.contains_iff_mem,
      mem_names, hm, hn, true_and, false_or]
    exact or_comm
  · rw [h]
    unfold AskForAttributes at hnone
    simp only [not_or] at hnone
    simp [includes, hnone]

end Expansion

instance (items : List SelectItem) (referenced : CodeSet) (code : String) :
    Decidable (SelectItem.Show items referenced code) :=
  decidable_of_iff _ (Expansion.includes_iff referenced code)

namespace SelectItem

/-- The dynamic attributes that a list shows, in the order of their definitions. -/
def shown (items : List SelectItem) (attributes : Attributes) (referenced : CodeSet) :
    List Attribute :=
  attributes.toList.filter fun a => a.isDynamic && decide (Show items referenced a.code)

theorem projected_eq (items : List SelectItem) (attributes : Attributes) (referenced : CodeSet) :
    (Expansion.classify items).projected attributes referenced = shown items attributes referenced := by
  have hincludes (code : String) : (Expansion.classify items).includes referenced code =
      decide (Show items referenced code) :=
    Bool.eq_iff_iff.mpr (by rw [Expansion.includes_iff, decide_eq_true_eq])
  unfold Expansion.projected shown
  obtain ⟨-, h⟩ | ⟨hnone, h⟩ := Expansion.kept?_eq items
  · simp only [h, hincludes]
  · rw [h]
    symm
    apply List.filter_eq_nil_iff.mpr
    intro a _
    have hshow : ¬ Show items referenced a.code := by
      rintro (hm | ⟨hn, -⟩)
      · exact hnone (.inl hm)
      · exact hnone (.inr hn)
    simp [hshow]

theorem nodup_shown (items : List SelectItem) (attributes : Attributes) (referenced : CodeSet) :
    ((shown items attributes referenced).map Attribute.code).Nodup :=
  attributes.nodup.sublist (List.filter_sublist.map _)

end SelectItem

namespace Builder

variable {b : Builder} {e : Entity} {attributes : Attributes}

theorem mem_neededCodes_of_show {code : String} (hmarker : .attributes ∉ b.base.items)
    (h : SelectItem.Show b.base.items b.buffer.referenced code) :
    code ∈ (b.neededCodes b.expansion).toList := by
  rw [neededCodes, CodeSet.mem_insertAll]
  obtain hm | ⟨⟨name, hn⟩, hname | href⟩ := h
  · exact absurd hm hmarker
  · obtain ⟨hm, -⟩ | ⟨-, -, hx⟩ | ⟨hnone, -⟩ := Expansion.classify_cases b.base.items
    · exact absurd hm hmarker
    · rw [expansion, hx]
      exact .inr (Expansion.mem_names.mpr hname)
    · exact absurd (.inr ⟨name, hn⟩) hnone
  · exact .inl href

theorem shown_schema : SelectItem.shown b.base.items (b.schema e attributes).attributes
    b.buffer.referenced = SelectItem.shown b.base.items attributes b.buffer.referenced := by
  unfold schema
  split
  · rfl
  · next hevery =>
    have hmarker : .attributes ∉ b.base.items :=
      fun hm => hevery ((Expansion.isEvery_classify _).mpr hm)
    unfold SelectItem.shown Keyed.filter
    rw [List.filter_filter]
    refine List.filter_congr fun a _ => ?_
    by_cases hshow : SelectItem.Show b.base.items b.buffer.referenced a.code
    · simp [hshow, CodeSet.contains, mem_neededCodes_of_show hmarker hshow]
    · simp [hshow]

end Builder

namespace Expansion

open SelectItem

/-- What comes of a select list. It is left as it is if it has neither the marker nor a bare name;
otherwise it becomes the columns of the table, the entries that stay, and a labelled column for each
attribute shown. Where nothing was joined before, these columns are those of new joins, one for each
attribute shown and no others. -/
theorem resolve_classify (items : List SelectItem) (rules : JoinRules) (attributes : Attributes)
    (referenced : CodeSet) :
    (∀ s, ((classify items).resolve rules attributes referenced s).1 = none ↔
      ¬ AskForAttributes items) ∧
    (AskForAttributes items → ∀ s,
      ((classify items).resolve rules attributes referenced s).1 =
        some (.allOf rules.entity.table :: items.filter (·.Stays) ++
          (shown items attributes referenced).map fun a =>
            .column (rules.columnOf s.index a) (some a.code))) ∧
    (∀ a ∈ shown items attributes referenced,
      rules.columnOf ∅ a = .qualified (rules.naming.label a.code) rules.naming.valueColumn) ∧
    ((shown items attributes referenced).map Attribute.code).Nodup ∧
    ((classify items).resolve rules attributes referenced {}).2.joins =
      (shown items attributes referenced).filterMap rules.joinFor? ∧
    ((classify items).resolve rules attributes referenced {}).2.index.toList =
      (shown items attributes referenced).filterMap rules.entryFor? := by
  have hnodup := nodup_shown items attributes referenced
  have hresolve (s : JoinStage) := resolve_eq (classify items) rules attributes referenced s
  simp only [projected_eq] at hresolve
  have hknown : ∀ a ∈ shown items attributes referenced, a ∈ attributes.toList :=
    fun a ha => (List.mem_filter.mp ha).1
  have hstage := @JoinStage.joinAll_eq rules _ _ hknown
  rw [eraseDups_of_nodup hnodup.of_map] at hstage
  refine ⟨fun s => ?_, fun hask s => ?_, fun a ha => ?_, hnodup, ?_, ?_⟩
  · rw [hresolve, Option.map_eq_none_iff]
    obtain ⟨hask, h⟩ | ⟨hask, h⟩ := kept?_eq items
    · simp [h, hask]
    · simp [h, hask]
  · obtain ⟨-, h⟩ | ⟨hnone, -⟩ := kept?_eq items
    · rw [hresolve, h]
      rfl
    · exact absurd hask hnone
  · obtain ⟨-, hshown⟩ := List.mem_filter.mp ha
    cases a with
    | static => simp [Attribute.isDynamic] at hshown
    | dynamic => rfl
  · rw [hresolve]
    exact hstage.2
  · rw [hresolve]
    exact hstage.1

end Expansion

namespace Sample

def attributes : Attributes := (catalogs.attributes? entity).getD ∅

def mixedList : List SelectItem :=
  [.all, .column (.bare "sku") none, .column (.qualified "products" "id") (some "key"),
    .allOf "stock", .column (.bare "sku") none, .column (.bare "color") (some "hue"), .allOf "stock"]

end Sample

/-- The name is that of a static attribute, and the color is referred to elsewhere. -/
theorem Expansion.resolve_classify_sample :
    SelectItem.AskForAttributes Sample.mixedList ∧
      (((classify Sample.mixedList).resolve { entity := Sample.entity } Sample.attributes
        (SortedBy.ofList ["color"]) {}).1 =
          some [.allOf "products", .column (.qualified "products" "id") (some "key"), .allOf "stock",
            .column (.bare "color") (some "hue"), .allOf "stock",
            .column (.qualified "color_attr" "value") (some "color")]) ∧
      ((classify Sample.mixedList).resolve { entity := Sample.entity } Sample.attributes
        (SortedBy.ofList ["color"]) {}).2.joins.map Join.reference = ["color_attr"] := by
  obtain ⟨-, hlist, -, -, hjoins, -⟩ := Expansion.resolve_classify Sample.mixedList
    { entity := Sample.entity } Sample.attributes (SortedBy.ofList ["color"])
  have hask : SelectItem.AskForAttributes Sample.mixedList := .inr ⟨"sku", .tail _ (.head _)⟩
  refine ⟨hask, (hlist hask {}).trans ?_, ?_⟩
  · decide
  · rw [hjoins]
    decide

end EntityQuery
