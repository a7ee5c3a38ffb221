import EntityQuery.Proofs.Passes
import Mathlib.Data.List.Induction
import Mathlib.Data.List.Nodup

namespace EntityQuery

theorem eraseDups_concat {α : Type} [DecidableEq α] (l : List α) (a : α) :
    (l ++ [a]).eraseDups = if a ∈ l then l.eraseDups else l.eraseDups ++ [a] := by
  rw [List.eraseDups_append]
  by_cases ha : a ∈ l
  · simp [List.removeAll, ha]
  · simp [List.removeAll, ha, List.eraseDups_cons]

theorem eraseDups_of_nodup {α : Type} [DecidableEq α] {l : List α} (h : l.Nodup) :
    l.eraseDups = l := by
  induction l using List.reverseRecOn with
  | nil => rfl
  | append_singleton l a ih =>
    obtain ⟨hl, -, hnew⟩ := List.nodup_append.mp h
    have ha : a ∉ l := fun hm => hnew a hm a (List.mem_singleton_self a) rfl
    rw [eraseDups_concat, if_neg ha, ih hl]

theorem nodup_eraseDups {α : Type} [DecidableEq α] (l : List α) : l.eraseDups.Nodup := by
  induction l using List.reverseRecOn with
  | nil => exact List.nodup_nil
  | append_singleton l a ih =>
    rw [eraseDups_concat]
    split
    · exact ih
    · next ha => exact List.concat_eq_append ▸ ih.concat (by simpa using ha)

theorem Keyed.eq_of_code {attributes : Attributes} {a b : Attribute} (ha : a ∈ attributes.toList)
    (hb : b ∈ attributes.toList) (h : a.code = b.code) : a = b := by
  have hfind := attributes.find?_of_mem ha
  rw [h, attributes.find?_of_mem hb] at hfind
  exact (Option.some.inj hfind).symm

def JoinRules.joinFor? (rules : JoinRules) : Attribute → Option Join
  | .static .. => none
  | .dynamic id code table _ => some (rules.join id code table (rules.types.type code))

def JoinRules.entryFor? (rules : JoinRules) :
    Attribute → Option ((String × String) × AttributeJoin)
  | .static .. => none
  | .dynamic _ code _ _ =>
    some ((code, rules.entity.code),
      { label := rules.naming.label code
        column := .qualified (rules.naming.label code) rules.naming.valueColumn
        type := rules.types.type code })

/-- The attributes with the given codes, one for each code that is known. -/
def Schema.named (schema : Schema) (codes : List String) : List Attribute :=
  codes.filterMap schema.attributes.find?

namespace JoinStage

variable {rules : JoinRules} {s t : JoinStage}

def joinAll (rules : JoinRules) (attributes : List Attribute) (s : JoinStage) : JoinStage :=
  attributes.foldl (fun s a => (s.column rules a).2) s

theorem joinAll_append (rules : JoinRules) (l m : List Attribute) (s : JoinStage) :
    joinAll rules (l ++ m) s = joinAll rules m (joinAll rules l s) :=
  List.foldl_append

theorem Reaches.joinAll (rules : JoinRules) (attributes : List Attribute) (s : JoinStage) :
    Reaches rules s (joinAll rules attributes s) := by
  induction attributes generalizing s with
  | nil => exact .refl
  | cons a rest ih => exact (Reaches.column rules a s).trans (ih _)

/-- What a stage knows of an attribute, if it has counted in just the attributes of a list. -/
theorem join?_of_entries {attributes : Attributes} {l : List Attribute}
    (hl : ∀ a ∈ l, a ∈ attributes.toList)
    (hs : s.index.toList = l.eraseDups.filterMap rules.entryFor?) {id : Int64} {code table : String}
    {storage : StorageType} (ha : .dynamic id code table storage ∈ attributes.toList) :
    s.index.join? code rules.entity.code =
      if .dynamic id code table storage ∈ l then
        (rules.entryFor? (.dynamic id code table storage)).map Prod.snd
      else none := by
  unfold JoinIndex.join?
  split
  · next hm =>
    obtain ⟨known, hknown⟩ : ∃ known, rules.entryFor? (.dynamic id code table storage) =
      some ((code, rules.entity.code), known) := ⟨_, rfl⟩
    have hentry : ((code, rules.entity.code), known) ∈ s.index.toList := by
      rw [hs]
      exact List.mem_filterMap.mpr ⟨_, List.mem_eraseDups.mpr hm, hknown⟩
    rw [s.index.find?_of_mem hentry, hknown]
  · next hm =>
    rw [Option.map_eq_none_iff]
    apply List.find?_eq_none.mpr
    intro entry hentry hkey
    rw [hs] at hentry
    obtain ⟨b, hb, hfor⟩ := List.mem_filterMap.mp hentry
    have hb := List.mem_eraseDups.mp hb
    cases b with
    | static => cases hfor
    | dynamic id' code' table' storage' =>
      cases hfor
      have hcode : code' = code := by simpa using hkey
      exact hm (Keyed.eq_of_code (hl _ hb) ha hcode ▸ hb)

/-- The stage of joining attributes one after the other: an entry of the index and a join for each
dynamic attribute, at its first place. -/
theorem joinAll_eq {attributes : Attributes} {l : List Attribute}
    (hl : ∀ a ∈ l, a ∈ attributes.toList) :
    (joinAll rules l {}).index.toList = l.eraseDups.filterMap rules.entryFor? ∧
      (joinAll rules l {}).joins = l.eraseDups.filterMap rules.joinFor? := by
  induction l using List.reverseRecOn with
  | nil => exact ⟨rfl, rfl⟩
  | append_singleton l a ih =>
    obtain ⟨hbefore, ha⟩ := List.forall_mem_append.mp hl
    have ha := ha a (List.mem_singleton_self a)
    obtain ⟨hindex, hjoins⟩ := ih hbefore
    rw [joinAll_append, eraseDups_concat]
    change ((joinAll rules l {}).column rules a).2.index.toList = _ ∧
      ((joinAll rules l {}).column rules a).2.joins = _
    cases a with
    | static code column storage =>
      have hentry : rules.entryFor? (.static code column storage) = none := rfl
      have hjoin : rules.joinFor? (.static code column storage) = none := rfl
      split <;> simp [JoinStage.column, add, List.filterMap_append, hindex, hjoins, hentry, hjoin]
    | dynamic id code table storage =>
      have hknown := join?_of_entries hbefore hindex ha
      by_cases hm : .dynamic id code table storage ∈ l
      · rw [if_pos hm] at hknown ⊢
        simp [JoinStage.column, add, Attribute.code, hknown, JoinRules.entryFor?, hindex, hjoins]
      · rw [if_neg hm] at hknown ⊢
        have hnew : (joinAll rules l {}).index.find? (code, rules.entity.code) = none :=
          Option.map_eq_none_iff.mp hknown
        simp only [JoinStage.column, add, Attribute.code, hknown, List.filterMap_append, hjoins]
        rw [Keyed.toList_put_of_find?_eq_none _ hnew, hindex]
        exact ⟨rfl, rfl⟩

theorem Reaches.known (h : Reaches rules s t) {code entity : String}
    (hs : (s.index.join? code entity).isSome) : (t.index.join? code entity).isSome := by
  have hput (index : JoinIndex) (key : String × String) (j : AttributeJoin)
      (hi : (index.join? code entity).isSome) :
      (JoinIndex.join? (index.put (key, j)) code entity).isSome := by
    rw [JoinIndex.join?_put]
    split
    · rfl
    · exact hi
  induction h with
  | refl => exact hs
  | @tail u _ _ hstep ih =>
    obtain ⟨a, rfl⟩ := hstep
    unfold JoinStage.column
    obtain hu | ⟨_, _, _, _, _, -, -, -, hu⟩ | ⟨_, _, _, _, -, -, hu⟩ :=
      add_cases rules a (rules.types.type a.code) u
    · rwa [hu]
    · rw [hu]
      exact hput _ _ _ ih
    · rw [hu]
      exact hput _ _ _ ih

theorem known_column {a : Attribute} (ha : a.isDynamic = true) (rules : JoinRules) (s : JoinStage) :
    ((s.column rules a).2.index.join? a.code rules.entity.code).isSome := by
  cases a with
  | static => cases ha
  | dynamic id code table storage =>
    cases hj : s.index.join? code rules.entity.code with
    | some known =>
      have hs : (s.index.join? code rules.entity.code).isSome := by simp [hj]
      exact (Reaches.column rules (.dynamic id code table storage) s).known hs
    | none =>
      unfold column add
      simp [Attribute.code, hj, JoinIndex.join?_put]

theorem known_joinAll {a : Attribute} {attributes : List Attribute} (hm : a ∈ attributes)
    (ha : a.isDynamic = true) (rules : JoinRules) (s : JoinStage) :
    ((joinAll rules attributes s).index.join? a.code rules.entity.code).isSome := by
  obtain ⟨before, after, rfl⟩ := List.append_of_mem hm
  rw [joinAll_append]
  exact (Reaches.joinAll rules after _).known (known_column ha rules (joinAll rules before s))

end JoinStage

section Compiling

variable {schema : Schema} {rules : JoinRules}

theorem Schema.stage_of_column {code : String} {s t : JoinStage} {c : Column}
    (h : schema.column rules code s = .ok (c, t)) :
    t = s.joinAll rules (schema.named [code]) := by
  unfold column at h
  cases ha : schema.attributes.find? code with
  | none => simp [ha] at h
  | some a =>
    simp only [ha, Except.ok.injEq] at h
    rw [named, List.filterMap_cons_some ha]
    exact (congrArg Prod.snd h).symm

theorem Schema.named_append (schema : Schema) (l m : List String) :
    schema.named (l ++ m) = schema.named l ++ schema.named m :=
  List.filterMap_append

mutual

theorem Request.stage_of_compile {s t : JoinStage} {c : Condition} :
    ∀ {r : Request}, compile schema rules s r = .ok (c, t) →
      t = s.joinAll rules (schema.named (codes r))
  | .test connective code asked, h => by
    obtain ⟨column, hc, -⟩ := compile_test_eq_ok h
    exact Schema.stage_of_column hc
  | .group connective groupCodes { buffer := { requests, .. }, .. }, h => by
    obtain ⟨compiled, hc, -⟩ := compile_group_eq_ok h
    exact Request.stage_of_compileAll hc

theorem Request.stage_of_compileAll {s t : JoinStage} {cs : List Condition} :
    ∀ {rs : List Request}, compileAll schema rules s rs = .ok (cs, t) →
      t = s.joinAll rules (schema.named (codesAll rs))
  | [], h => by
    rw [compileAll] at h
    cases h
    rfl
  | r :: rest, h => by
    obtain ⟨condition, u, conditions, hc, hr, -⟩ := compileAll_cons_eq_ok h
    rw [codesAll, Schema.named_append, JoinStage.joinAll_append, ← Request.stage_of_compile hc]
    exact Request.stage_of_compileAll hr

end

theorem SortRequest.stage_of_compileAll {s t : JoinStage} {keys : List (SortScope × SortKey)}
    {rs : List SortRequest} (h : compileAll schema rules s rs = .ok (keys, t)) :
    t = s.joinAll rules (schema.named (rs.map SortRequest.code)) := by
  induction rs generalizing s keys with
  | nil =>
    rw [compileAll] at h
    cases h
    rfl
  | cons r rest ih =>
    obtain ⟨column, u, keys', hc, hr, -⟩ := compileAll_cons_eq_ok h
    rw [List.map_cons, ← List.singleton_append, Schema.named_append, JoinStage.joinAll_append,
      ← Schema.stage_of_column hc]
    exact ih hr

namespace Expansion

def projected (x : Expansion) (attributes : Attributes) (referenced : CodeSet) : List Attribute :=
  match x.kept? with
  | none => []
  | some _ => attributes.toList.filter fun a => a.isDynamic && x.includes referenced a.code

theorem columns_eq (rules : JoinRules) (s : JoinStage) (attributes : List Attribute) :
    columns rules s attributes =
      (attributes.map fun a => .column (rules.columnOf s.index a) (some a.code),
        s.joinAll rules attributes) := by
  induction attributes generalizing s with
  | nil => rfl
  | cons a rest ih =>
    have hcolumn : (s.column rules a).1 = rules.columnOf s.index a :=
      JoinStage.add_column rules a _ s
    have hafter : rules.columnOf (s.column rules a).2.index = rules.columnOf s.index :=
      (JoinStage.Reaches.column rules a s).columnOf
    rw [columns]
    simp only [ih, hcolumn, hafter]
    rfl

theorem resolve_eq (x : Expansion) (rules : JoinRules) (attributes : Attributes)
    (referenced : CodeSet) (s : JoinStage) :
    x.resolve rules attributes referenced s =
      (x.kept?.map fun kept => .allOf rules.entity.table :: kept ++
          (x.projected attributes referenced).map fun a =>
            .column (rules.columnOf s.index a) (some a.code),
        s.joinAll rules (x.projected attributes referenced)) := by
  unfold resolve projected
  cases x.kept? with
  | none => rfl
  | some kept =>
    simp only [columns_eq]
    rfl

end Expansion

end Compiling

namespace Builder

/-- The attributes that a pass joins, in the order in which it comes to them. -/
def asked (b : Builder) (schema : Schema) : List Attribute :=
  b.expansion.projected schema.attributes b.buffer.referenced ++
    schema.named (Request.codesAll b.buffer.requests) ++
    schema.named (b.buffer.sorts.map SortRequest.code)

/-- The joins and the select list of a pass, in terms of what was asked for. -/
structure Joins (b : Builder) (schema : Schema) (staged : Staged) : Prop where
  stage : ⟨staged.index, staged.joins⟩ =
    JoinStage.joinAll (b.rules schema) (b.asked schema) { index := b.index }
  items : staged.items = b.expansion.kept?.map fun kept => .allOf schema.entity.table :: kept ++
    (b.expansion.projected schema.attributes b.buffer.referenced).map fun a =>
      .column ((b.rules schema).columnOf b.index a) (some a.code)

theorem joins_of_stageWith {b : Builder} {schema : Schema} {staged : Staged}
    (h : b.stageWith b.expansion schema = .ok staged) : b.Joins schema staged := by
  unfold stageWith at h
  split at h
  · cases h
  · simp only [Expansion.resolve_eq] at h
    obtain ⟨⟨conditions, t⟩, hc, h⟩ := bind_eq_ok.mp h
    obtain ⟨⟨sortKeys, u⟩, hk, h⟩ := bind_eq_ok.mp h
    cases h
    have ht := Request.stage_of_compileAll hc
    have hu := SortRequest.stage_of_compileAll hk
    refine ⟨?_, rfl⟩
    rw [asked, JoinStage.joinAll_append, JoinStage.joinAll_append]
    exact hu.trans (congrArg _ ht)

theorem joins_of_stage {b : Builder} {catalogs : Catalogs} {staged : Staged}
    (h : (b.stage catalogs).1 = .ok (some staged)) :
    ∃ e attributes, b.entity = some e ∧ catalogs.attributes? e = some attributes ∧
      b.Stages (b.schema e attributes) staged ∧ b.Joins (b.schema e attributes) staged := by
  obtain ⟨e, attributes, he, ha, hs⟩ := stageWith_of_stage h
  exact ⟨e, attributes, he, ha, stages_of_stageWith hs, joins_of_stageWith hs⟩

end Builder

end EntityQuery
