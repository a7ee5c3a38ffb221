import EntityQuery.Sql.Render

namespace EntityQuery

def SelectItem.normalList : List SelectItem → List SelectItem
  | [] => [.all]
  | items => items

/-- Equality with null is a test for null. -/
def Test.normal : Test → Test
  | compare .eq .null => .isNull false
  | compare .ne .null | compare .bangNe .null => .isNull true
  | t => t

namespace Condition

def withConnective (k : Connective) : Condition → Condition
  | test _ c t => .test k c t
  | group _ members => .group k members

/-- The conditions of a level, the first of which has no connective of its own. -/
def leading : List Condition → List Condition
  | [] => []
  | c :: rest => c.withConnective .and :: rest

mutual

/-- A membership in nothing is about no column. -/
def normal : Condition → Condition
  | test k _ (.oneOf [] negated) => .test k (.bare "") (.oneOf [] negated)
  | test k c t => .test k c t.normal
  | group k members => .group k (leading (normalAll members))

def normalAll : List Condition → List Condition
  | [] => []
  | c :: rest => if c.isHollow then normalAll rest else c.normal :: normalAll rest

end

end Condition

namespace Select

mutual

/-- The normal form, written in one dialect throughout. -/
def normalIn (d : Dialect) : Select → Select
  | { table, items, joins, conditions, sortKeys, unionSortKeys, unions, limit, offset, .. } =>
    { dialect := d, table, items := SelectItem.normalList items, joins
      conditions := Condition.leading (Condition.normalAll conditions), sortKeys
      unionSortKeys := if unions.isEmpty then [] else unionSortKeys
      unions := normalMembers d unions, limit, offset }

def normalMembers (d : Dialect) : List (UnionType × Select) → List (UnionType × Select)
  | [] => []
  | (type, member) :: rest => (type, normalIn d member) :: normalMembers d rest

end

def normal (q : Select) : Select := q.normalIn q.dialect

end Select

theorem SelectItem.listFragments_normalList (items : List SelectItem) :
    listFragments (normalList items) = listFragments items := by
  cases items with
  | nil => exact List.append_nil _
  | cons item rest => rfl

theorem Test.fragments_normal (d : Dialect) (c : Column) (t : Test) :
    t.normal.fragments d c = t.fragments d c := by
  unfold normal
  split <;> rfl

namespace Condition

theorem isHollow_withConnective (k : Connective) (c : Condition) :
    (c.withConnective k).isHollow = c.isHollow := by
  cases c <;> rfl

theorem fragments_withConnective (d : Dialect) (k : Connective) (c : Condition) :
    (c.withConnective k).fragments d = c.fragments d := by
  cases c <;> rfl

theorem allHollow_leading (cs : List Condition) : allHollow (leading cs) = allHollow cs := by
  cases cs with
  | nil => rfl
  | cons c rest => rw [leading, allHollow, allHollow, isHollow_withConnective]

theorem levelFragments_leading (d : Dialect) (cs : List Condition) :
    levelFragments d true (leading cs) = levelFragments d true cs := by
  cases cs with
  | nil => rfl
  | cons c rest =>
    rw [leading, levelFragments, levelFragments, isHollow_withConnective, fragments_withConnective]
    rfl

/-- A test keeps its connective, and loses its column where it is about none. -/
theorem exists_normal_test (k : Connective) (c : Column) (t : Test) :
    ∃ c', normal (.test k c t) = .test k c' t.normal ∧
      ∀ d, t.normal.fragments d c' = t.normal.fragments d c := by
  rcases t with ⟨op, v⟩ | ⟨low, high, negated⟩ | ⟨_ | ⟨v, vs⟩, negated⟩ | negated | ⟨part, op, v⟩
  case oneOf.nil => exact ⟨.bare "", rfl, fun _ => rfl⟩
  all_goals exact ⟨c, rfl, fun _ => rfl⟩

theorem connective_normal (c : Condition) : c.normal.connective = c.connective := by
  cases c with
  | test k c t =>
    obtain ⟨c', h, -⟩ := exists_normal_test k c t
    rw [h]
    rfl
  | group k members => rfl

mutual

theorem isHollow_normal : ∀ c : Condition, c.normal.isHollow = c.isHollow
  | .test k c t => by
    obtain ⟨c', h, -⟩ := exists_normal_test k c t
    rw [h]
    rfl
  | .group k members => by
    rw [normal, isHollow, isHollow, allHollow_leading]
    exact allHollow_normalAll members

theorem allHollow_normalAll : ∀ cs : List Condition, allHollow (normalAll cs) = allHollow cs
  | [] => rfl
  | c :: rest => by
    have hc := isHollow_normal c
    have hrest := allHollow_normalAll rest
    rw [normalAll, allHollow]
    split
    · next h => rw [hrest, h, Bool.true_and]
    · rw [allHollow, hc, hrest]

end

variable (d : Dialect)

mutual

theorem fragments_normal : ∀ c : Condition, c.normal.fragments d = c.fragments d
  | .test k c t => by
    obtain ⟨c', h, hc⟩ := exists_normal_test k c t
    rw [h, fragments, fragments, hc, t.fragments_normal]
  | .group k members => by
    rw [normal, fragments, fragments, levelFragments_leading, levelFragments_normalAll true members]

theorem levelFragments_normalAll (first : Bool) : ∀ cs : List Condition,
    levelFragments d first (normalAll cs) = levelFragments d first cs
  | [] => rfl
  | c :: rest => by
    have hc := fragments_normal c
    have hrest (first : Bool) := levelFragments_normalAll first rest
    rw [normalAll, levelFragments]
    split
    · exact hrest first
    · next h =>
      rw [levelFragments, isHollow_normal, if_neg h, connective_normal, hc, hrest]

end

theorem whereFragments_normal (cs : List Condition) :
    whereFragments d (leading (normalAll cs)) = whereFragments d cs := by
  unfold whereFragments
  rw [allHollow_leading, allHollow_normalAll, levelFragments_leading, levelFragments_normalAll]

end Condition

namespace Select

variable (d e : Dialect)

theorem bodyFragments_normalIn (q : Select) :
    (q.normalIn e).bodyFragments d = q.bodyFragments d := by
  cases q
  rw [normalIn]
  unfold bodyFragments
  rw [SelectItem.listFragments_normalList, Condition.whereFragments_normal]

mutual

theorem fragments_normalIn : ∀ q : Select, (q.normalIn e).fragments d = q.fragments d
  | ⟨dialect, table, items, joins, conditions, sortKeys, unionSortKeys, unions, limit, offset⟩ => by
    have hbody := bodyFragments_normalIn d e ⟨dialect, table, items, joins, conditions, sortKeys,
      unionSortKeys, unions, limit, offset⟩
    have hmembers := memberFragments_normalMembers unions
    cases unions with
    | nil => exact hbody
    | cons m rest =>
      have hkeys : (if (m :: rest).isEmpty then [] else unionSortKeys) = unionSortKeys := rfl
      rw [normalIn] at hbody ⊢
      unfold fragments
      simp only [normalMembers, hkeys] at hbody hmembers ⊢
      simp only [List.isEmpty_cons, hbody, hmembers]

theorem memberFragments_normalMembers : ∀ members : List (UnionType × Select),
    memberFragments d (normalMembers e members) = memberFragments d members
  | [] => rfl
  | (type, member) :: rest => by
    have hmember := fragments_normalIn member
    have hrest := memberFragments_normalMembers rest
    simp only [normalMembers, memberFragments, hmember, hrest]

end

theorem statement_normal (q : Select) : q.normal.statement = q.statement := by
  have hdialect : q.normal.dialect = q.dialect := by
    cases q
    rfl
  unfold statement
  rw [hdialect]
  unfold normal
  rw [fragments_normalIn]

end Select

end EntityQuery
