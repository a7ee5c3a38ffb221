import EntityQuery.Catalog.Attribute
import EntityQuery.Data.Keyed
import EntityQuery.Data.SortedBy
import EntityQuery.Error

namespace EntityQuery

/-- Attributes in the order in which their codes were first defined. -/
abbrev Attributes := Keyed Attribute.code

/-- The attributes of an entity, or some of them. -/
structure Schema where
  entity : Entity
  attributes : Attributes := ∅
  deriving DecidableEq

structure Catalog where
  entities : Keyed (Prod.fst : String × Attributes → String) := ∅
  loads : Nat := 0
  deriving DecidableEq

namespace Catalog

def attributes? (c : Catalog) (entity : String) : Option Attributes :=
  (c.entities.find? entity).map Prod.snd

def registerEntity (c : Catalog) (e : Entity) : Catalog :=
  { c with entities := c.entities.put (e.code, (c.attributes? e.code).getD ∅) }

/-- Registers an attribute, in place of the entity's attribute with the same code. -/
def register (c : Catalog) (e : Entity) (a : Attribute) : Catalog :=
  { c with entities := c.entities.put (e.code, ((c.attributes? e.code).getD ∅).put a) }

/-- The attributes of an entity, read out one after the other: all of them or those with the given
codes. -/
def schema (c : Catalog) (e : Entity) (codes : Option CodeSet) : Except QueryError Schema :=
  match c.attributes? e.code with
  | none => .error (.unknownEntity e.code)
  | some attributes =>
    .ok ⟨e, attributes.toList.foldl
      (fun found a => if codes.all (·.contains a.code) then found.put a else found) ∅⟩

theorem schema_of_attributes? {c : Catalog} {e : Entity} {attributes : Attributes}
    (h : c.attributes? e.code = some attributes) (codes : Option CodeSet) :
    c.schema e codes = .ok ⟨e, attributes.filter fun a => codes.all (·.contains a.code)⟩ := by
  simp only [schema, h, Keyed.foldl_put_of_filter]

/-- Looks the attributes up, and counts the look, failing ones as well. -/
def load (c : Catalog) (e : Entity) (codes : Option CodeSet) :
    Except QueryError Schema × Catalog :=
  (c.schema e codes, { c with loads := c.loads + 1 })

end Catalog

/-- An entity, and the number of the provider that is asked for its attributes. -/
structure EntityContext extends Entity where
  provider : Nat
  deriving DecidableEq

instance : Coe EntityContext Entity := ⟨EntityContext.toEntity⟩

/-- The catalogs of the providers, by their numbers. -/
def Catalogs := Nat → Catalog

namespace Catalogs

def empty : Catalogs := fun _ => {}

def put (cs : Catalogs) (provider : Nat) (c : Catalog) : Catalogs :=
  fun p => if p = provider then c else cs p

def attributes? (cs : Catalogs) (e : EntityContext) : Option Attributes :=
  (cs e.provider).attributes? e.code

def register (cs : Catalogs) (e : EntityContext) (a : Attribute) : Catalogs :=
  cs.put e.provider ((cs e.provider).register e.toEntity a)

def load (cs : Catalogs) (e : EntityContext) (codes : Option CodeSet) :
    Except QueryError Schema × Catalogs :=
  let (schema, catalog) := (cs e.provider).load e.toEntity codes
  (schema, cs.put e.provider catalog)

variable {cs : Catalogs} {e : EntityContext}

theorem load_of_none (h : cs.attributes? e = none) (codes : Option CodeSet) :
    (cs.load e codes).1 = .error (.unknownEntity e.code) := by
  unfold attributes? at h
  simp only [load, Catalog.load, Catalog.schema, h]

theorem load_of_attributes? {attributes : Attributes} (h : cs.attributes? e = some attributes)
    (codes : Option CodeSet) : (cs.load e codes).1 =
      .ok ⟨e.toEntity, attributes.filter fun a => codes.all (·.contains a.code)⟩ :=
  Catalog.schema_of_attributes? h codes

end Catalogs

end EntityQuery
