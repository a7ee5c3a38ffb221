import EntityQuery.Proofs.InnerJoins
import EntityQuery.Proofs.Reordering

namespace EntityQuery

/-- What a row of the joined tables has in each column, null where there is no value. -/
abbrev Tuple := Column → Scalar

/-- How a database decides tests of values. -/
abbrev Engine := Test → Scalar → Truth

def Truth.ofBool : Bool → Truth
  | true => yes
  | false => no

/-- The truth of a test, as it is written, of a column with the value `s`. -/
def Test.truth (engine : Engine) (t : Test) (s : Scalar) : Truth :=
  match t, s with
  | .oneOf [] negated, _ => .ofBool negated
  | .isNull negated, s => .ofBool (decide (s = .null) != negated)
  | .compare .eq .null, s => .ofBool (decide (s = .null))
  | .compare .ne .null, s | .compare .bangNe .null, s => .ofBool (decide (s ≠ .null))
  | .compare .nullSafeEq v, .null | .datePart _ .nullSafeEq v, .null => .ofBool v.isNull
  | _, .null => .unknown
  | t, s => engine t s

def Tuple.valuation (row : Tuple) (engine : Engine) (cs : List Condition) : Valuation
  | [] => .unknown
  | i :: place =>
    match cs[i]?.bind (Condition.sub? place) with
    | some (.test _ column t) => t.truth engine (row column)
    | _ => .unknown

def Tuple.eval (row : Tuple) (engine : Engine) (cs : List Condition) : Truth :=
  Condition.evalAll (row.valuation engine cs) cs

namespace Level

theorem valueFrom_concat_and {a : Truth} {l : Level} (h : valueFrom a l ≠ .yes) (b : Truth) :
    valueFrom a (l ++ [(.and, b)]) ≠ .yes := by
  induction l generalizing a with
  | nil => exact fun hab => h (Truth.and_eq_yes.mp hab).1
  | cons x rest ih =>
    obtain ⟨k, c⟩ := x
    cases k with
    | and => exact ih h
    | or =>
      intro hyes
      obtain ha | hc := Truth.or_eq_yes.mp hyes
      · exact h (Truth.or_eq_yes.mpr (.inl ha))
      · exact ih (fun hr => h (Truth.or_eq_yes.mpr (.inr hr))) hc

theorem value_concat_and {l : Level} (h : value l ≠ .yes) (b : Truth) :
    value (l ++ [(.and, b)]) ≠ .yes := by
  cases l with
  | nil => exact absurd rfl h
  | cons x rest => exact valueFrom_concat_and h b

theorem value_concat_or {l : Level} (hl : l ≠ []) (b : Truth) :
    value (l ++ [(.or, b)]) = .yes ↔ value l = .yes ∨ b = .yes := by
  rw [value_append_or hl (by simp), Truth.or_eq_yes]
  rfl

end Level

namespace Condition

theorem level_congr {v w : Valuation} {i : Nat} {cs : List Condition}
    (h : ∀ j < cs.length, ∀ place, v ((i + j) :: place) = w ((i + j) :: place)) :
    level v i cs = level w i cs := by
  induction cs generalizing i with
  | nil => rfl
  | cons c rest ih =>
    have hinside : v.inside i = w.inside i := by
      funext place
      exact h 0 (by simp) place
    have hrest : level v (i + 1) rest = level w (i + 1) rest := by
      apply ih
      intro j hj place
      have hij : i + 1 + j = i + (j + 1) := by omega
      rw [hij]
      exact h (j + 1) (by simpa using hj) place
    rw [level, level, hinside, hrest]

end Condition

namespace Tuple

variable (row : Tuple) (engine : Engine)

theorem inside_valuation {cs cs' : List Condition} {i j : Nat} (h : cs[i]? = cs'[j]?) :
    (row.valuation engine cs).inside i = (row.valuation engine cs').inside j := by
  funext place
  simp only [Valuation.inside, valuation, h]

theorem level_valuation_append (cs added : List Condition) :
    Condition.level (row.valuation engine (cs ++ added)) 0 cs =
      Condition.level (row.valuation engine cs) 0 cs := by
  apply Condition.level_congr
  intro j hj place
  have hget : (cs ++ added)[0 + j]? = cs[0 + j]? := by
    rw [Nat.zero_add]
    exact List.getElem?_append_left hj
  exact congrFun (row.inside_valuation engine hget) place

theorem eval_concat_hollow {c : Condition} (hc : c.isHollow = true) (cs : List Condition) :
    row.eval engine (cs ++ [c]) = row.eval engine cs := by
  rw [eval, eval, Condition.evalAll, Condition.evalAll, Condition.level_append,
    level_valuation_append]
  simp [Condition.level, hc]

theorem eval_concat {c : Condition} (hc : c.isHollow = false) (cs : List Condition) :
    row.eval engine (cs ++ [c]) =
      (Condition.level (row.valuation engine cs) 0 cs ++
        [(c.connective, row.eval engine [c])]).value := by
  have hlast : (row.valuation engine (cs ++ [c])).inside cs.length =
      (row.valuation engine [c]).inside 0 := row.inside_valuation engine (by simp)
  have halone : row.eval engine [c] = c.eval ((row.valuation engine [c]).inside 0) := by
    simp [eval, Condition.evalAll, Condition.level, hc, Level.value, Level.valueFrom]
  rw [halone, ← hlast, eval, Condition.evalAll, Condition.level_append, level_valuation_append]
  simp [Condition.level, hc]

theorem eval_concat_and {c : Condition} (hk : c.connective = .and) {cs : List Condition}
    (h : row.eval engine cs ≠ .yes) : row.eval engine (cs ++ [c]) ≠ .yes := by
  cases hc : c.isHollow with
  | true => rwa [eval_concat_hollow row engine hc]
  | false =>
    rw [eval_concat row engine hc, hk]
    exact Level.value_concat_and h _

theorem eval_concat_or {c : Condition} (hk : c.connective = .or) (hc : c.isHollow = false)
    {cs : List Condition} (h : row.eval engine cs ≠ .yes) :
    row.eval engine (cs ++ [c]) ≠ .yes ↔ row.eval engine [c] ≠ .yes := by
  have hne : Condition.level (row.valuation engine cs) 0 cs ≠ [] := by
    intro hnil
    rw [eval, Condition.evalAll, hnil] at h
    exact h rfl
  rw [eval_concat row engine hc, hk, ne_eq, Level.value_concat_or hne, not_or]
  exact ⟨And.right, fun hlast => ⟨h, hlast⟩⟩

end Tuple

end EntityQuery
