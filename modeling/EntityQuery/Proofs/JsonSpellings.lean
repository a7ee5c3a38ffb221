import EntityQuery.Json.Query
import Mathlib.Data.List.Nodup

namespace EntityQuery.Json

section Objects

theorem eq_of_perm_of_length_le_one {α : Type} {l l' : List α} (h : l.Perm l') (hl : l'.length ≤ 1) :
    l = l' := by
  cases l' with
  | nil => exact h.eq_nil
  | cons a rest =>
    obtain rfl : rest = [] := List.eq_nil_of_length_eq_zero (Nat.le_zero.mp (Nat.le_of_succ_le_succ hl))
    exact List.perm_singleton.mp h

theorem filter_of_nodup {fields : List (String × Json)} (hn : (fields.map Prod.fst).Nodup)
    {f : String × Json} (hf : f ∈ fields) : fields.filter (·.1 = f.1) = [f] := by
  induction fields with
  | nil => cases hf
  | cons g rest ih =>
    obtain ⟨hg, hrest⟩ := List.nodup_cons.mp hn
    obtain rfl | hf := List.mem_cons.mp hf
    · have hnone : rest.filter (·.1 = f.1) = [] := by
        rw [List.filter_eq_nil_iff]
        intro h hh
        have hne : h.1 ≠ f.1 := fun heq => hg (heq ▸ List.mem_map_of_mem hh)
        simpa using hne
      simp [hnone]
    · have hne : g.1 ≠ f.1 := fun heq => hg (heq ▸ List.mem_map_of_mem hf)
      rw [List.filter_cons_of_neg (by simpa using hne), ih hrest hf]

theorem objectFields?_self (fields : List (String × Json)) (hn : (fields.map Prod.fst).Nodup) :
    objectFields? (fields.map Prod.fst) fields = some (fields.map fun f => some f.2) := by
  rw [objectFields?, if_pos]
  · rw [List.map_map]
    refine congrArg some (List.map_congr_left fun f hf => ?_)
    rw [Function.comp_apply, member?, ← List.head?_filter, filter_of_nodup hn hf]
    rfl
  · rw [List.all_map, List.all_eq_true]
    intro f hf
    simp [filter_of_nodup hn hf]

variable {names : List String} {members members' : List (String × Json)}

theorem objectFields?_of_perm
    (h : (members.filter (·.1 ∈ names)).Perm (members'.filter (·.1 ∈ names))) :
    objectFields? names members = objectFields? names members' := by
  have hperm : ∀ name ∈ names,
      (members.filter (·.1 = name)).Perm (members'.filter (·.1 = name)) := by
    intro name hname
    have hsame (l : List (String × Json)) :
        (l.filter (·.1 ∈ names)).filter (·.1 = name) = l.filter (·.1 = name) := by
      rw [List.filter_filter]
      refine List.filter_congr fun m _ => ?_
      by_cases hm : m.1 = name
      · rw [hm, decide_eq_true hname, Bool.and_true]
      · rw [decide_eq_false hm, Bool.false_and]
    rw [← hsame members, ← hsame members']
    exact h.filter _
  have hall : names.all (fun name => (members.filter (·.1 = name)).length ≤ 1) =
      names.all fun name => (members'.filter (·.1 = name)).length ≤ 1 := by
    rw [Bool.eq_iff_iff, List.all_eq_true, List.all_eq_true]
    exact forall₂_congr fun name hname => by rw [(hperm name hname).length_eq]
  unfold objectFields?
  rw [hall]
  split
  · next honce =>
    refine congrArg some (List.map_congr_left fun name hname => ?_)
    have honce := of_decide_eq_true (List.all_eq_true.mp honce name hname)
    rw [member?, member?, ← List.head?_filter, eq_of_perm_of_length_le_one (hperm name hname) honce,
      List.head?_filter]
  · rfl

theorem objectFields?_cons {f : String × Json} (hf : f.1 ∉ members.map Prod.fst) :
    objectFields? names (f :: members) = (objectFields? names members).bind fun _ =>
      some (names.map fun name => if name = f.1 then some f.2 else member? name members) := by
  have hnone : members.filter (·.1 = f.1) = [] := by
    rw [List.filter_eq_nil_iff]
    intro m hm
    have hne : m.1 ≠ f.1 := fun heq => hf (heq ▸ List.mem_map_of_mem hm)
    simpa using hne
  have hlength (name : String) : ((f :: members).filter (·.1 = name)).length ≤ 1 ↔
      (members.filter (·.1 = name)).length ≤ 1 := by
    by_cases hname : f.1 = name
    · subst hname
      simp [hnone]
    · rw [List.filter_cons_of_neg (by simpa using hname)]
  have hmember (name : String) : member? name (f :: members) =
      if name = f.1 then some f.2 else member? name members := by
    by_cases hname : name = f.1
    · simp [member?, hname]
    · rw [if_neg hname, member?, member?, List.find?_cons_of_neg (by simpa using Ne.symm hname)]
  unfold objectFields?
  simp only [hlength, hmember]
  split <;> rfl

end Objects

/-- A structure is read from its fields. The members of an object may come in any order, and others among
them; an array has the fields in the order of their names; and to leave out a spare field is to give it
the value that it has on the list. -/
structure ReadsFields {α : Type} (read : Json → Option α) (names : List String)
    (spare : List (String × Json) := []) : Prop where
  members : ∀ members members' : List (String × Json),
    (members.filter (·.1 ∈ names)).Perm (members'.filter (·.1 ∈ names)) →
      read (object members) = read (object members')
  array : ∀ values : List Json, values.length = names.length →
    read (array values) = read (object (names.zip values))
  spare : ∀ f ∈ spare, f.1 ∈ names ∧ ∀ members : List (String × Json),
    f.1 ∉ members.map Prod.fst → read (object (f :: members)) = read (object members)

/-- What is made of the fields does not tell a spare one from one that is left out. -/
def Spares {α : Type} (k : List (Option Json) → Option α) (names : List String)
    (spare : List (String × Json)) : Prop :=
  ∀ f ∈ spare, f.1 ∈ names ∧ ∀ given : String → Option Json, given f.1 = none →
    k (names.map fun name => if name = f.1 then some f.2 else given name) = k (names.map given)

theorem Spares.nil {α : Type} {k : List (Option Json) → Option α} {names : List String} :
    Spares k names [] :=
  List.forall_mem_nil _

theorem Spares.cons {α : Type} {k : List (Option Json) → Option α} {names : List String}
    {f : String × Json} {rest : List (String × Json)} (hname : f.1 ∈ names)
    (hk : ∀ given : String → Option Json, given f.1 = none →
      k (names.map fun name => if name = f.1 then some f.2 else given name) = k (names.map given))
    (hrest : Spares k names rest) : Spares k names (f :: rest) :=
  List.forall_mem_cons.mpr ⟨⟨hname, hk⟩, hrest⟩

namespace ReadsFields

variable {α : Type} {read : Json → Option α} {names : List String} {spare : List (String × Json)}
  {k : List (Option Json) → Option α}

theorem intro (hn : names.Nodup)
    (hobject : ∀ members, read (object members) = (objectFields? names members).bind k)
    (harray : ∀ values : List Json, values.length = names.length →
      read (.array values) = k (values.map some))
    (hspare : Spares k names spare) : ReadsFields read names spare where
  members members members' h := by rw [hobject, hobject, objectFields?_of_perm h]
  array values hl := by
    have hnames : (names.zip values).map Prod.fst = names := List.map_fst_zip (Nat.le_of_eq hl.symm)
    have hvalues : (names.zip values).map (fun f => some f.2) = values.map some := calc
      _ = ((names.zip values).map Prod.snd).map some := by
        rw [List.map_map]
        rfl
      _ = _ := by rw [List.map_snd_zip (Nat.le_of_eq hl)]
    have hself := objectFields?_self (names.zip values) (hnames.symm ▸ hn)
    rw [hnames, hvalues] at hself
    rw [harray values hl, hobject, hself]
    rfl
  spare f hf := by
    obtain ⟨hname, hk⟩ := hspare f hf
    refine ⟨hname, fun members hm => ?_⟩
    rw [hobject, hobject, objectFields?_cons hm]
    have hgiven : member? f.1 members = none := by
      rw [member?, Option.map_eq_none_iff, List.find?_eq_none]
      intro m hmem
      have hne : m.1 ≠ f.1 := fun heq => hm (heq ▸ List.mem_map_of_mem hmem)
      simpa using hne
    unfold objectFields?
    split
    · exact hk _ hgiven
    · rfl

theorem of_fields? (hn : names.Nodup) (hread : ∀ j, read j = (fields? names j).bind k)
    (hspare : Spares k names spare) : ReadsFields read names spare := by
  refine .intro hn (fun members => hread _) (fun values hl => ?_) hspare
  rw [hread, fields?, if_pos hl]
  rfl

theorem of_looseFields? (hn : names.Nodup) (hread : ∀ j, read j = (looseFields? names j).bind k)
    (hspare : Spares k names spare) : ReadsFields read names spare := by
  refine .intro hn (fun members => hread _) (fun values hl => ?_) hspare
  rw [hread, looseFields?, if_pos (Nat.le_of_eq hl), hl, Nat.sub_self]
  simp

end ReadsFields

/-- A plain alternative is read from its name as from an object with the name and null. -/
def ReadsNames (α : Type) [Codec α] : Prop :=
  ∀ name : String, (decode? (variant name null) : Option α) = decode? (string name)

theorem readsNames_selectItem : ReadsNames SelectItem := by
  intro name
  simp only [decode?, variant, variant?]
  split
  · next h => cases h
  · next h => cases h; rfl
  · next h => cases h
  · next h => cases h; rfl
  · next h => cases h; rfl
  · next h => cases h; rfl
  · simp_all

theorem readsNames_value : ReadsNames Value := by
  intro name
  have hscalar : decodeScalar? (variant name null) = decodeScalar? (string name) := by
    simp only [decodeScalar?, variant, variant?]
    split
    · next h => cases h
    iterate 7
      · next h => cases h; rfl
    · simp_all
  exact congrArg (Value.scalar <$> ·) hscalar

def groupMembers? : Option Json → Option (List Condition)
  | some (array items) => decodeConditions? items
  | _ => none

def groupOf? : List (Option Json) → Option Condition
  | [clauses, connective] => do
    let members ← groupMembers? clauses
    some (.group (← required? connective) members)
  | _ => none

theorem decodeClauses?_eq (members : List (String × Json)) :
    decodeClauses? members = groupMembers? (member? "clauses" members) := by
  induction members with
  | nil => rfl
  | cons m rest ih =>
    obtain ⟨name, value⟩ := m
    by_cases hname : name = "clauses"
    · subst hname
      cases value <;> simp [decodeClauses?, member?, groupMembers?]
    · have hmember : member? "clauses" ((name, value) :: rest) = member? "clauses" rest := by
        rw [member?, member?, List.find?_cons_of_neg (by simpa using hname)]
      rw [hmember, ← ih]
      cases value <;> simp [decodeClauses?, hname]

theorem decodeGroup?_eq (j : Json) :
    decodeGroup? j = (fields? ["clauses", "boolean"] j).bind groupOf? := by
  cases j with
  | object members =>
    rw [decodeGroup?, decodeClauses?_eq, fields?]
    cases h : objectFields? ["clauses", "boolean"] members with
    | none => rfl
    | some given =>
      obtain rfl : given = ["clauses", "boolean"].map (member? · members) := by
        unfold objectFields? at h
        split at h
        · exact (Option.some.inj h).symm
        · cases h
      rfl
  | array items =>
    obtain _ | ⟨clauses, _ | ⟨connective, _ | ⟨other, rest⟩⟩⟩ := items
    · rfl
    all_goals cases clauses <;> rfl
  | _ => rfl

/-- Whichever way data are given, they are read as from the forms that are written. -/
structure AcceptsForms : Prop where
  operators : ReadsNames Operator
  connectives : ReadsNames Connective
  dateParts : ReadsNames DatePart
  directions : ReadsNames Direction
  sortScopes : ReadsNames SortScope
  joinTypes : ReadsNames JoinType
  storageTypes : ReadsNames StorageType
  dialects : ReadsNames Dialect
  plainItems : ReadsNames SelectItem
  plainValues : ReadsNames Value
  columns : ReadsFields (decode? : Json → Option Column) ["table", "name"] [("table", null)]
  sortKeys : ReadsFields (decode? : Json → Option SortKey) ["column", "direction"]
  columnItems : ReadsFields (fun j => (decode? (variant "Column" j) : Option SelectItem))
    ["column", "alias"] [("alias", null)]
  comparisons : ReadsFields (fun j => (decode? (variant "Basic" j) : Option Condition))
    ["column", "operator", "value", "boolean"]
  ranges : ReadsFields (fun j => (decode? (variant "Between" j) : Option Condition))
    ["column", "low", "high", "boolean", "not"]
  memberships : ReadsFields (fun j => (decode? (variant "In" j) : Option Condition))
    ["column", "values", "boolean", "not"]
  nullTests : ReadsFields (fun j => (decode? (variant "Null" j) : Option Condition))
    ["column", "boolean", "not"]
  dateTests : ReadsFields (fun j => (decode? (variant "Date" j) : Option Condition))
    ["part", "column", "operator", "value", "boolean"]
  groups : ReadsFields (fun j => (decode? (variant "Nested" j) : Option Condition))
    ["clauses", "boolean"]
  joinColumns : ReadsFields (fun j => (decode? (variant "Columns" j) : Option JoinTest))
    ["left", "right"]
  joinValues : ReadsFields (fun j => (decode? (variant "Value" j) : Option JoinTest))
    ["column", "value"]
  joins : ReadsFields (decode? : Json → Option Join) ["kind", "table", "alias", "conditions"]
    [("alias", null)]
  statements : ReadsFields (decode? : Json → Option Statement) ["sql", "bindings"]
  entities : ReadsFields (decode? : Json → Option Entity) ["code", "table", "key_column"]
  staticAttributes : ReadsFields (fun j => (decode? (variant "Static" j) : Option Attribute))
    ["code", "column", "sql_type"]
  dynamicAttributes : ReadsFields (fun j => (decode? (variant "Dynamic" j) : Option Attribute))
    ["id", "code", "table", "sql_type"]
  namings : ReadsFields (decode? : Json → Option Naming)
    ["attribute_wildcard", "join_alias_suffix", "value_column", "entity_key_column",
      "attribute_key_column", "default_timestamp_column"]
    [("attribute_wildcard", string "attr.*"), ("join_alias_suffix", string "_attr"),
      ("value_column", string "value"), ("entity_key_column", string "entity_id"),
      ("attribute_key_column", string "attribute_id"),
      ("default_timestamp_column", string "created_at")]

theorem acceptsForms : AcceptsForms where
  operators _ := rfl
  connectives _ := rfl
  dateParts _ := rfl
  directions _ := rfl
  sortScopes _ := rfl
  joinTypes _ := rfl
  storageTypes _ := rfl
  dialects _ := rfl
  plainItems := readsNames_selectItem
  plainValues := readsNames_value
  columns := by
    refine .of_fields? (by decide) (fun _ => rfl) (.cons (by decide) ?_ .nil)
    intro given hnone
    simp only [List.map_cons, List.map_nil, hnone]
    rfl
  sortKeys := .of_fields? (by decide) (fun _ => rfl) .nil
  columnItems := by
    refine .of_fields? (by decide) (fun _ => rfl) (.cons (by decide) ?_ .nil)
    intro given hnone
    simp only [List.map_cons, List.map_nil, hnone]
    rfl
  comparisons := .of_fields? (by decide) (fun _ => rfl) .nil
  ranges := .of_fields? (by decide) (fun _ => rfl) .nil
  memberships := .of_fields? (by decide) (fun _ => rfl) .nil
  nullTests := .of_fields? (by decide) (fun _ => rfl) .nil
  dateTests := .of_fields? (by decide) (fun _ => rfl) .nil
  groups := .of_fields? (by decide) decodeGroup?_eq .nil
  joinColumns := .of_fields? (by decide) (fun _ => rfl) .nil
  joinValues := .of_fields? (by decide) (fun _ => rfl) .nil
  joins := by
    refine .of_fields? (by decide) (fun _ => rfl) (.cons (by decide) ?_ .nil)
    intro given hnone
    simp only [List.map_cons, List.map_nil, hnone]
    rfl
  statements := .of_fields? (by decide) (fun _ => rfl) .nil
  entities := .of_fields? (by decide) (fun _ => rfl) .nil
  staticAttributes := .of_fields? (by decide) (fun _ => rfl) .nil
  dynamicAttributes := .of_fields? (by decide) (fun _ => rfl) .nil
  namings := by
    refine .of_looseFields? (by decide) (fun _ => rfl)
      (.cons (by decide) ?_ <| .cons (by decide) ?_ <| .cons (by decide) ?_ <|
        .cons (by decide) ?_ <| .cons (by decide) ?_ <| .cons (by decide) ?_ .nil)
    all_goals
      intro given hnone
      simp only [List.map_cons, List.map_nil, hnone]
      rfl

end EntityQuery.Json
