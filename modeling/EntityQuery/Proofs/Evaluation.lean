import EntityQuery.Proofs.Truth

namespace EntityQuery

/-- A truth value for the test at each place. A place lists the positions that lead to it, from the
outermost clauses inwards. -/
abbrev Valuation := List Nat → Truth

def Valuation.inside (v : Valuation) (i : Nat) : Valuation := fun place => v (i :: place)

namespace Condition

mutual

def eval (v : Valuation) : Condition → Truth
  | test .. => v []
  | group _ members => (level v 0 members).value

/-- The clauses that are written, the first of them at position `i`. Hollow groups are not written. -/
def level (v : Valuation) (i : Nat) : List Condition → Level
  | [] => []
  | c :: rest =>
    if c.isHollow then level v (i + 1) rest
    else (c.connective, eval (v.inside i) c) :: level v (i + 1) rest

end

def evalAll (v : Valuation) (conditions : List Condition) : Truth := (level v 0 conditions).value

variable (v : Valuation)

theorem level_append (i : Nat) (xs ys : List Condition) :
    level v i (xs ++ ys) = level v i xs ++ level v (i + xs.length) ys := by
  induction xs generalizing i with
  | nil => rfl
  | cons c rest ih =>
    have hi : i + 1 + rest.length = i + (rest.length + 1) := by omega
    simp only [List.cons_append, level, ih, List.length_cons, hi]
    split <;> rfl

theorem level_eq_nil_iff (i : Nat) (cs : List Condition) : level v i cs = [] ↔ allHollow cs = true := by
  induction cs generalizing i with
  | nil => simp [level, allHollow]
  | cons c rest ih => by_cases h : c.isHollow = true <;> simp [level, allHollow, h, ih]

theorem connectives_sublist (i : Nat) (cs : List Condition) :
    ((level v i cs).map Prod.fst).Sublist (cs.map connective) := by
  induction cs generalizing i with
  | nil => simp [level]
  | cons c rest ih =>
    rw [level]
    split
    · exact (ih (i + 1)).cons _
    · exact (ih (i + 1)).cons_cons _

theorem conjunction_level {cs : List Condition} (i : Nat)
    (h : ∀ k ∈ (cs.map connective).tail, k = .and) : ∀ x ∈ (level v i cs).tail, x.1 = .and := by
  intro x hx
  apply h
  apply (connectives_sublist v i cs).tail.subset
  rw [← List.map_tail]
  exact List.mem_map_of_mem hx

theorem evalAll_ne_yes {cs : List Condition} (hand : ∀ k ∈ (cs.map connective).tail, k = .and)
    (h : ∃ x ∈ level v 0 cs, x.2 ≠ .yes) : evalAll v cs ≠ .yes :=
  Level.value_ne_yes (conjunction_level v 0 hand) h

end Condition

end EntityQuery
