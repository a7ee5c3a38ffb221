import EntityQuery.Query.AttributeJoins

namespace EntityQuery

def SelectItem.code? : SelectItem → Option String
  | column ⟨none, name⟩ none => some name
  | _ => none

def SelectItem.isKept : SelectItem → Bool
  | all | attributes => false
  | item => item.code?.isNone

/-- What a select list asks for: no attribute, all of them, or those with the codes. -/
inductive Expansion where
  | untouched
  | every (kept : List SelectItem)
  | named (codes : List String) (kept : List SelectItem)
  deriving DecidableEq

namespace Expansion

def classify (items : List SelectItem) : Expansion :=
  let codes := (items.filterMap SelectItem.code?).eraseDups
  let kept := items.filter SelectItem.isKept
  if items.contains .attributes then every kept
  else if codes.isEmpty then untouched
  else named codes kept

def codes : Expansion → List String
  | named codes _ => codes
  | _ => []

def isEvery : Expansion → Bool
  | every _ => true
  | _ => false

def isUntouched : Expansion → Bool
  | untouched => true
  | _ => false

/-- The entries kept, where the list is expanded. -/
def kept? : Expansion → Option (List SelectItem)
  | untouched => none
  | every kept => some kept
  | named _ kept => some kept

def added (x : Expansion) (attributes : Attributes) : List String :=
  match x with
  | untouched => []
  | every _ => (attributes.toList.filter Attribute.isDynamic).map Attribute.code
  | named codes _ => codes

/-- Whether an attribute gets a column: one that the list asks for, and beside named ones also those
that the query refers to elsewhere. -/
def includes (x : Expansion) (referenced : CodeSet) (code : String) : Bool :=
  match x with
  | untouched => false
  | every _ => true
  | named codes _ => referenced.contains code || codes.contains code

def columns (rules : JoinRules) (s : JoinStage) : List Attribute → List SelectItem × JoinStage
  | [] => ([], s)
  | a :: rest =>
    let (column, s) := s.column rules a
    let (items, s) := columns rules s rest
    (.column column (some a.code) :: items, s)

/-- The list in terms of columns, and the joins that it needs. -/
def resolve (x : Expansion) (rules : JoinRules) (attributes : Attributes) (referenced : CodeSet)
    (s : JoinStage) : Option (List SelectItem) × JoinStage :=
  match x.kept? with
  | none => (none, s)
  | some kept =>
    let (items, s) := columns rules s
      (attributes.toList.filter fun a => a.isDynamic && x.includes referenced a.code)
    (some (.allOf rules.entity.table :: kept ++ items), s)

end Expansion

end EntityQuery
