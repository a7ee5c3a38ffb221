import EntityQuery.Proofs.JoinOrder

namespace EntityQuery

theorem eraseDups_filter {α : Type} [DecidableEq α] (p : α → Bool) (l : List α) :
    (l.filter p).eraseDups = l.eraseDups.filter p := by
  induction l using List.reverseRecOn with
  | nil => rfl
  | append_singleton l a ih =>
    rw [List.filter_append, eraseDups_concat]
    by_cases hp : p a = true
    · rw [List.filter_cons_of_pos hp, List.filter_nil, eraseDups_concat, ih]
      split
      · next hm => rw [if_pos (List.mem_of_mem_filter hm)]
      · next hm =>
        rw [if_neg fun h => hm (List.mem_filter.mpr ⟨h, hp⟩), List.filter_append,
          List.filter_cons_of_pos hp, List.filter_nil]
    · rw [List.filter_cons_of_neg hp, List.filter_nil, List.append_nil, ih]
      split
      · rfl
      · rw [List.filter_append, List.filter_cons_of_neg hp, List.filter_nil, List.append_nil]

section Keyed

variable {α κ : Type} [DecidableEq κ] {key : α → κ}

def lastWith? (key : α → κ) (l : List α) (k : κ) : Option α := (l.filter (key · = k)).getLast?

theorem lastWith?_concat (l : List α) (a : α) (k : κ) :
    lastWith? key (l ++ [a]) k = if key a = k then some a else lastWith? key l k := by
  unfold lastWith?
  by_cases h : key a = k <;> simp [h]

theorem lastWith?_filter (p : κ → Bool) (l : List α) (k : κ) :
    lastWith? key (l.filter fun a => p (key a)) k = if p k then lastWith? key l k else none := by
  unfold lastWith?
  rw [List.filter_filter]
  split
  · next hp =>
    congr 2
    funext a
    by_cases hk : key a = k <;> simp [hk, hp]
  · next hp =>
    rw [List.getLast?_eq_none_iff, List.filter_eq_nil_iff]
    intro a _
    by_cases hk : key a = k <;> simp [hk, hp]

namespace Keyed

theorem ofList_concat (l : List α) (a : α) : ofList key (l ++ [a]) = (ofList key l).put a :=
  List.foldl_concat ..

theorem keys_ofList (l : List α) : (ofList key l).keys = (l.map key).eraseDups := by
  induction l using List.reverseRecOn with
  | nil => rfl
  | append_singleton l a ih =>
    rw [ofList_concat, keys_put, ih, List.map_append, List.map_singleton, eraseDups_concat]
    simp only [List.mem_eraseDups]

theorem find?_ofList (l : List α) (k : κ) : (ofList key l).find? k = lastWith? key l k := by
  induction l using List.reverseRecOn with
  | nil => rfl
  | append_singleton l a ih => rw [ofList_concat, find?_put, ih, lastWith?_concat]

theorem map_some_toList (s : Keyed key) : s.toList.map some = s.keys.map s.find? := by
  rw [keys, List.map_map]
  exact List.map_congr_left fun a ha => (s.find?_of_mem ha).symm

theorem map_some_toList_ofList (l : List α) :
    (ofList key l).toList.map some = (l.map key).eraseDups.map (lastWith? key l) := by
  rw [map_some_toList, keys_ofList, funext (find?_ofList l)]

theorem filter_ofList (p : κ → Bool) (l : List α) :
    (ofList key l).filter (fun a => p (key a)) = ofList key (l.filter fun a => p (key a)) := by
  have hkeys : ((ofList key l).filter fun a => p (key a)).keys =
      ((l.filter fun a => p (key a)).map key).eraseDups := calc
    _ = (ofList key l).keys.filter p := by
      rw [keys, keys, List.filter_map]
      rfl
    _ = ((l.map key).filter p).eraseDups := by rw [keys_ofList, eraseDups_filter]
    _ = _ := by
      rw [List.filter_map]
      rfl
  have hfind : ((ofList key l).filter fun a => p (key a)).find? =
      lastWith? key (l.filter fun a => p (key a)) := by
    funext k
    rw [find?_filter, find?_ofList, lastWith?_filter]
  apply Keyed.ext
  apply List.map_injective_iff.mpr fun _ _ => Option.some.inj
  rw [map_some_toList_ofList, map_some_toList, hkeys, hfind]

end Keyed

end Keyed

inductive CatalogCall where
  | registerEntity (e : Entity)
  | register (e : Entity) (a : Attribute)
  | load (e : Entity) (codes : Option CodeSet)

namespace CatalogCall

def entity? : CatalogCall → Option String
  | registerEntity e => some e.code
  | register e _ => some e.code
  | load .. => none

def attribute? (entity : String) : CatalogCall → Option Attribute
  | register e a => if e.code = entity then some a else none
  | _ => none

def isLoad : CatalogCall → Bool
  | load .. => true
  | _ => false

/-- Some call registers the entity code, with an attribute or alone. -/
def registers (calls : List CatalogCall) (entity : String) : Bool :=
  calls.any (·.entity? = some entity)

def attributes (calls : List CatalogCall) (entity : String) : List Attribute :=
  calls.filterMap (attribute? entity)

variable (calls : List CatalogCall) (call : CatalogCall) (entity : String)

theorem registers_concat : registers (calls ++ [call]) entity =
    (registers calls entity || decide (call.entity? = some entity)) := by
  simp [registers]

theorem attributes_concat : attributes (calls ++ [call]) entity =
    attributes calls entity ++ (call.attribute? entity).toList := by
  unfold attributes
  rw [List.filterMap_append]
  cases h : call.attribute? entity <;> simp [h]

variable {calls entity}

theorem attributes_of_not_registers (h : registers calls entity = false) :
    attributes calls entity = [] := by
  unfold attributes
  rw [List.filterMap_eq_nil_iff]
  intro call hm
  have hentity := List.any_eq_false.mp h call hm
  cases call with
  | register e a => simp_all [attribute?, entity?]
  | registerEntity e => rfl
  | load e codes => rfl

theorem registers_filter :
    registers (calls.filter (·.entity? = some entity)) entity = registers calls entity := by
  simp [registers, List.any_filter]

theorem attributes_filter :
    attributes (calls.filter (·.entity? = some entity)) entity = attributes calls entity := by
  unfold attributes
  rw [List.filterMap_filter]
  apply List.filterMap_congr
  intro call _
  cases call with
  | register e a => by_cases he : e.code = entity <;> simp [attribute?, entity?, he]
  | registerEntity e => simp [attribute?]
  | load e codes => simp [attribute?]

end CatalogCall

namespace Catalog

def perform (c : Catalog) : CatalogCall → Catalog
  | .registerEntity e => c.registerEntity e
  | .register e a => c.register e a
  | .load e codes => (c.load e codes).2

def performAll (calls : List CatalogCall) : Catalog := calls.foldl perform {}

theorem performAll_concat (calls : List CatalogCall) (call : CatalogCall) :
    performAll (calls ++ [call]) = (performAll calls).perform call :=
  List.foldl_concat ..

theorem attributes?_put (c : Catalog) (code : String) (attributes : Attributes) (loads : Nat)
    (entity : String) :
    ({ entities := c.entities.put (code, attributes), loads } : Catalog).attributes? entity =
      if code = entity then some attributes else c.attributes? entity := by
  unfold attributes?
  rw [Keyed.find?_put]
  split <;> rfl

/-- What a catalog has for an entity code, which is nothing if the code was never registered. -/
theorem attributes?_performAll (calls : List CatalogCall) (entity : String) :
    (performAll calls).attributes? entity =
      if CatalogCall.registers calls entity then
        some (.ofList _ (CatalogCall.attributes calls entity))
      else none := by
  induction calls using List.reverseRecOn with
  | nil => rfl
  | append_singleton calls call ih =>
    have hknown : ((performAll calls).attributes? entity).getD ∅ =
        .ofList _ (CatalogCall.attributes calls entity) := by
      rw [ih]
      split
      · rfl
      · next h => rw [CatalogCall.attributes_of_not_registers (by simpa using h)]; rfl
    rw [performAll_concat, CatalogCall.registers_concat, CatalogCall.attributes_concat]
    cases call with
    | load e codes =>
      have hsame : ((performAll calls).perform (.load e codes)).attributes? entity =
        (performAll calls).attributes? entity := rfl
      rw [hsame, ih]
      simp [CatalogCall.entity?, CatalogCall.attribute?]
    | registerEntity e =>
      rw [perform, registerEntity, attributes?_put]
      by_cases he : e.code = entity
      · simp [CatalogCall.entity?, CatalogCall.attribute?, he, hknown]
      · simp [CatalogCall.entity?, CatalogCall.attribute?, he, ih]
    | register e a =>
      rw [perform, register, attributes?_put]
      by_cases he : e.code = entity
      · simp [CatalogCall.entity?, CatalogCall.attribute?, he, hknown, Keyed.ofList_concat]
      · simp [CatalogCall.entity?, CatalogCall.attribute?, he, ih]

theorem loads_performAll (calls : List CatalogCall) :
    (performAll calls).loads = calls.countP (·.isLoad) := by
  induction calls using List.reverseRecOn with
  | nil => rfl
  | append_singleton calls call ih =>
    rw [performAll_concat, List.countP_append, ← ih]
    cases call <;> rfl

theorem load_of_not_registers {calls : List CatalogCall} {e : Entity}
    (h : CatalogCall.registers calls e.code = false) (codes : Option CodeSet) :
    ((performAll calls).load e codes).1 = .error (.unknownEntity e.code) := by
  have hnone := attributes?_performAll calls e.code
  rw [if_neg (by simp [h])] at hnone
  rw [load, schema, hnone]

theorem load_of_registers {calls : List CatalogCall} {e : Entity}
    (h : CatalogCall.registers calls e.code = true) (codes : Option CodeSet) :
    ((performAll calls).load e codes).1 = .ok
      { entity := e
        attributes := match codes with
          | none => .ofList _ (CatalogCall.attributes calls e.code)
          | some codes => .ofList _
            ((CatalogCall.attributes calls e.code).filter fun a => codes.contains a.code) } := by
  have hsome := attributes?_performAll calls e.code
  rw [if_pos h] at hsome
  rw [load, schema_of_attributes? hsome]
  cases codes with
  | none => simp only [Option.all_none, Keyed.filter_true]
  | some codes => simp only [Option.all_some, ← Keyed.filter_ofList codes.contains]

/-- A look after any calls. It fails if and only if the entity's code was never registered. What it finds
otherwise is what comes of putting the attributes registered under the code one after the other: each
code is there once, at the place where it was first registered, with the attribute registered last. A
look for some codes finds the same in the same order, less the other codes, which is also what comes of
putting just the attributes with these codes, out of what is there or out of all that was registered.
The calls that register nothing under the code make no difference, and all looks are counted. -/
theorem load_of_calls (calls : List CatalogCall) (e : Entity) :
    (∀ codes, (CatalogCall.registers calls e.code = false ↔
        ∃ error, ((performAll calls).load e codes).1 = .error error) ∧
      ∀ error, ((performAll calls).load e codes).1 = .error error → error = .unknownEntity e.code) ∧
    (CatalogCall.registers calls e.code = true → ∃ found : Attributes,
      ((performAll calls).load e none).1 = .ok { entity := e, attributes := found } ∧
      found.toList.map some = ((CatalogCall.attributes calls e.code).map Attribute.code).eraseDups.map
        (lastWith? Attribute.code (CatalogCall.attributes calls e.code)) ∧
      found = .ofList _ (CatalogCall.attributes calls e.code) ∧
      found = .ofList _ found.toList ∧
      (∀ code, found.find? code =
        lastWith? Attribute.code (CatalogCall.attributes calls e.code) code) ∧
      ∀ codes : CodeSet, ∃ part : Attributes,
        ((performAll calls).load e (some codes)).1 = .ok { entity := e, attributes := part } ∧
        part.toList = found.toList.filter (codes.contains ·.code) ∧
        part = .ofList _ (found.toList.filter (codes.contains ·.code)) ∧
        part = .ofList _ ((CatalogCall.attributes calls e.code).filter (codes.contains ·.code))) ∧
    (∀ codes, ((performAll (calls.filter (·.entity? = some e.code))).load e codes).1 =
      ((performAll calls).load e codes).1) ∧
    (performAll calls).loads = calls.countP (·.isLoad) := by
  refine ⟨fun codes => ⟨⟨fun h => ⟨_, load_of_not_registers h codes⟩, ?_⟩, ?_⟩, fun h => ?_,
    fun codes => ?_, loads_performAll calls⟩
  · rintro ⟨error, herror⟩
    cases h : CatalogCall.registers calls e.code with
    | false => rfl
    | true => cases (load_of_registers h codes).symm.trans herror
  · intro error herror
    cases h : CatalogCall.registers calls e.code with
    | false => exact Except.error.inj (herror.symm.trans (load_of_not_registers h codes))
    | true => cases (load_of_registers h codes).symm.trans herror
  · refine ⟨_, load_of_registers h none, Keyed.map_some_toList_ofList _, rfl,
      (Keyed.ofList_toList _).symm, Keyed.find?_ofList _, fun codes => ?_⟩
    have htoList : (Keyed.ofList Attribute.code (CatalogCall.attributes calls e.code)).toList.filter
        (fun a => codes.contains a.code) =
          (Keyed.ofList Attribute.code ((CatalogCall.attributes calls e.code).filter
            fun a => codes.contains a.code)).toList :=
      congrArg Keyed.toList (Keyed.filter_ofList codes.contains _)
    refine ⟨_, load_of_registers h (some codes), htoList.symm, ?_, rfl⟩
    exact (Keyed.ofList_toList _).symm.trans (congrArg _ htoList.symm)
  · cases h : CatalogCall.registers calls e.code with
    | false => rw [load_of_not_registers h, load_of_not_registers (CatalogCall.registers_filter.trans h)]
    | true =>
      rw [load_of_registers h, load_of_registers (CatalogCall.registers_filter.trans h),
        CatalogCall.attributes_filter]

end Catalog

end EntityQuery
