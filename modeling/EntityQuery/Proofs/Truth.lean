import EntityQuery.Sql.Condition

namespace EntityQuery

inductive Truth where
  | no
  | unknown
  | yes
  deriving DecidableEq

namespace Truth

variable {a b c : Truth}

def and : Truth → Truth → Truth
  | yes, b => b
  | unknown, no => no
  | unknown, _ => unknown
  | no, _ => no

def or : Truth → Truth → Truth
  | no, b => b
  | unknown, yes => yes
  | unknown, _ => unknown
  | yes, _ => yes

@[simp] theorem or_no (a : Truth) : a.or no = a := by cases a <;> rfl

theorem and_comm (a b : Truth) : a.and b = b.and a := by cases a <;> cases b <;> rfl

theorem and_assoc (a b c : Truth) : (a.and b).and c = a.and (b.and c) := by
  cases a <;> cases b <;> cases c <;> rfl

theorem or_comm (a b : Truth) : a.or b = b.or a := by cases a <;> cases b <;> rfl

theorem or_assoc (a b c : Truth) : (a.or b).or c = a.or (b.or c) := by
  cases a <;> cases b <;> cases c <;> rfl

@[simp] theorem and_eq_yes : a.and b = yes ↔ a = yes ∧ b = yes := by
  cases a <;> cases b <;> decide

@[simp] theorem or_eq_yes : a.or b = yes ↔ a = yes ∨ b = yes := by
  cases a <;> cases b <;> decide

end Truth

/-- Clauses in the order in which they are written, each with its connective and its value. -/
abbrev Level := List (Connective × Truth)

namespace Level

/-- The value of the clauses that follow a conjunction with the value `a`. -/
def valueFrom (a : Truth) : Level → Truth
  | [] => a
  | (.and, b) :: rest => valueFrom (a.and b) rest
  | (.or, b) :: rest => a.or (valueFrom b rest)

def value : Level → Truth
  | [] => .yes
  | (_, a) :: rest => valueFrom a rest

theorem valueFrom_ne_yes {a : Truth} {l : Level} (hand : ∀ x ∈ l, x.1 = .and)
    (h : a ≠ .yes ∨ ∃ x ∈ l, x.2 ≠ .yes) : valueFrom a l ≠ .yes := by
  induction l generalizing a with
  | nil => simpa [valueFrom] using h
  | cons x rest ih =>
    obtain ⟨k, b⟩ := x
    have hk : k = .and := hand (k, b) (by simp)
    subst k
    apply ih (fun y hy => hand y (by simp [hy]))
    obtain ha | ⟨y, hy, hb⟩ := h
    · exact .inl fun h => ha (Truth.and_eq_yes.mp h).1
    · obtain rfl | hy := List.mem_cons.mp hy
      · exact .inl fun h => hb (Truth.and_eq_yes.mp h).2
      · exact .inr ⟨y, hy, hb⟩

theorem value_ne_yes {l : Level} (hand : ∀ x ∈ l.tail, x.1 = .and) (h : ∃ x ∈ l, x.2 ≠ .yes) :
    value l ≠ .yes := by
  cases l with
  | nil => simp at h
  | cons x rest =>
    obtain ⟨y, hy, hb⟩ := h
    apply valueFrom_ne_yes hand
    obtain rfl | hy := List.mem_cons.mp hy
    · exact .inl hb
    · exact .inr ⟨y, hy, hb⟩

end Level

end EntityQuery
