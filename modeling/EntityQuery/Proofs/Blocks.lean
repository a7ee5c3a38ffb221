import EntityQuery.Proofs.Truth
import Mathlib.Data.List.Nodup
import Mathlib.Data.List.Pairwise

namespace EntityQuery.Level

variable {α : Type} (conn : α → Connective)

def reading (v : α → Truth) (l : List α) : Level := l.map fun x => (conn x, v x)

/-- The conjunctions of the clauses in `block` and those that follow. -/
def blocksFrom (block : List α) : List α → List (List α)
  | [] => [block]
  | x :: rest =>
    match conn x with
    | .and => blocksFrom (block ++ [x]) rest
    | .or => block :: blocksFrom [x] rest

def blocks : List α → List (List α)
  | [] => []
  | x :: rest => blocksFrom conn [x] rest

variable {conn}

theorem blocksFrom_and {x : α} (hx : conn x = .and) (block rest : List α) :
    blocksFrom conn block (x :: rest) = blocksFrom conn (block ++ [x]) rest := by
  simp [blocksFrom, hx]

theorem blocksFrom_or {x : α} (hx : conn x = .or) (block rest : List α) :
    blocksFrom conn block (x :: rest) = block :: blocksFrom conn [x] rest := by
  simp [blocksFrom, hx]

theorem valueFrom_eq_yes (v : α → Truth) {a : Truth} {block : List α}
    (h : a = .yes ↔ ∀ x ∈ block, v x = .yes) (l : List α) :
    valueFrom a (reading conn v l) = .yes ↔
      ∃ B ∈ blocksFrom conn block l, ∀ x ∈ B, v x = .yes := by
  induction l generalizing a block with
  | nil => simpa [reading, valueFrom, blocksFrom] using h
  | cons x rest ih =>
    have hcons : reading conn v (x :: rest) = (conn x, v x) :: reading conn v rest := rfl
    cases hx : conn x with
    | and =>
      rw [hcons, hx, valueFrom, blocksFrom_and hx]
      apply ih
      simp [h, or_imp, forall_and]
    | or =>
      have hb : v x = .yes ↔ ∀ y ∈ [x], v y = .yes := by simp
      rw [hcons, hx, valueFrom, blocksFrom_or hx, Truth.or_eq_yes, h, ih hb]
      simp

theorem value_eq_yes (v : α → Truth) {l : List α} (hl : l ≠ []) :
    value (reading conn v l) = .yes ↔ ∃ B ∈ blocks conn l, ∀ x ∈ B, v x = .yes := by
  cases l with
  | nil => exact absurd rfl hl
  | cons x rest => exact valueFrom_eq_yes v (by simp) rest

theorem flatten_blocksFrom (block l : List α) :
    (blocksFrom conn block l).flatten = block ++ l := by
  induction l generalizing block with
  | nil => simp [blocksFrom]
  | cons x rest ih =>
    cases hx : conn x with
    | and => rw [blocksFrom_and hx, ih, List.append_assoc, List.singleton_append]
    | or => rw [blocksFrom_or hx, List.flatten_cons, ih, List.singleton_append]

theorem flatten_blocks (l : List α) : (blocks conn l).flatten = l := by
  cases l with
  | nil => rfl
  | cons x rest => exact flatten_blocksFrom [x] rest

theorem mem_of_mem_blocks {l B : List α} {x : α} (hB : B ∈ blocks conn l) (hx : x ∈ B) : x ∈ l := by
  rw [← @flatten_blocks _ conn l]
  exact List.mem_flatten_of_mem hB hx

theorem ne_nil_of_mem_blocksFrom {block l B : List α} (hb : block ≠ [])
    (h : B ∈ blocksFrom conn block l) : B ≠ [] := by
  induction l generalizing block with
  | nil =>
    obtain rfl := List.mem_singleton.mp h
    exact hb
  | cons x rest ih =>
    cases hx : conn x with
    | and =>
      rw [blocksFrom_and hx] at h
      exact ih (by simp) h
    | or =>
      rw [blocksFrom_or hx] at h
      obtain rfl | h := List.mem_cons.mp h
      · exact hb
      · exact ih (by simp) h

theorem ne_nil_of_mem_blocks {l B : List α} (h : B ∈ blocks conn l) : B ≠ [] := by
  cases l with
  | nil => simp [blocks] at h
  | cons x rest => exact ne_nil_of_mem_blocksFrom (by simp) h

theorem eq_of_mem_blocks {l B C : List α} {x : α} (hl : l.Nodup) (hB : B ∈ blocks conn l)
    (hC : C ∈ blocks conn l) (hxB : x ∈ B) (hxC : x ∈ C) : B = C := by
  rw [← @flatten_blocks _ conn l] at hl
  have hsymm : Std.Symm (@List.Disjoint α) := ⟨fun _ _ h _ hx hy => h hy hx⟩
  by_contra hne
  exact (List.nodup_flatten.mp hl).2.forall hB hC hne hxB hxC

theorem blocks_append_or {x : α} (hx : conn x = .or) {p : List α} (hp : p ≠ []) (q : List α) :
    blocks conn (p ++ x :: q) = blocks conn p ++ blocks conn (x :: q) := by
  have hfrom (block p : List α) : blocksFrom conn block (p ++ x :: q) =
      blocksFrom conn block p ++ blocksFrom conn [x] q := by
    induction p generalizing block with
    | nil => exact blocksFrom_or hx block q
    | cons y rest ih =>
      cases hy : conn y with
      | and => rw [List.cons_append, blocksFrom_and hy, blocksFrom_and hy, ih]
      | or => rw [List.cons_append, blocksFrom_or hy, blocksFrom_or hy, ih, List.cons_append]
  cases p with
  | nil => exact absurd rfl hp
  | cons y rest => exact hfrom [y] rest

theorem exists_blocksFrom_append (block p : List α) (x : α) : ∃ Bs b, x ∈ b ∧
    ∀ q, blocksFrom conn block (p ++ x :: q) = Bs ++ blocksFrom conn b q := by
  induction p generalizing block with
  | nil =>
    cases hx : conn x with
    | and => exact ⟨[], block ++ [x], by simp, fun q => blocksFrom_and hx block q⟩
    | or => exact ⟨[block], [x], by simp, fun q => blocksFrom_or hx block q⟩
  | cons y rest ih =>
    cases hy : conn y with
    | and =>
      obtain ⟨Bs, b, hb, h⟩ := ih (block ++ [y])
      exact ⟨Bs, b, hb, fun q => by rw [List.cons_append, blocksFrom_and hy, h]⟩
    | or =>
      obtain ⟨Bs, b, hb, h⟩ := ih [y]
      exact ⟨block :: Bs, b, hb, fun q => by rw [List.cons_append, blocksFrom_or hy, h]; rfl⟩

theorem exists_mem_blocksFrom (block l : List α) :
    ∃ B ∈ blocksFrom conn block l, ∀ x ∈ block, x ∈ B := by
  induction l generalizing block with
  | nil => exact ⟨block, by simp [blocksFrom], fun x hx => hx⟩
  | cons y rest ih =>
    cases hy : conn y with
    | and =>
      obtain ⟨B, hB, h⟩ := ih (block ++ [y])
      exact ⟨B, by rwa [blocksFrom_and hy], fun x hx => h x (by simp [hx])⟩
    | or => exact ⟨block, by simp [blocksFrom_or hy], fun x hx => hx⟩

variable (conn)

def Together (l : List α) (x y : α) : Prop := ∃ B ∈ blocks conn l, x ∈ B ∧ y ∈ B

variable {conn}

theorem together_of_and {p q : List α} {x y : α} (hy : conn y = .and) :
    Together conn (p ++ x :: y :: q) x y := by
  have hfrom (Bs : List (List α)) (b : List α) (hx : x ∈ b) :
      ∃ B ∈ Bs ++ blocksFrom conn b (y :: q), x ∈ B ∧ y ∈ B := by
    obtain ⟨B, hB, h⟩ := @exists_mem_blocksFrom _ conn (b ++ [y]) q
    rw [blocksFrom_and hy]
    exact ⟨B, List.mem_append_right _ hB, h x (by simp [hx]), h y (by simp)⟩
  cases p with
  | nil => exact hfrom [] [x] (by simp)
  | cons z rest =>
    obtain ⟨Bs, b, hb, h⟩ := @exists_blocksFrom_append _ conn [z] rest x
    unfold Together
    rw [List.cons_append, blocks, h]
    exact hfrom Bs b hb

theorem Together.symm {l : List α} {x y : α} (h : Together conn l x y) : Together conn l y x := by
  obtain ⟨B, hB, hx, hy⟩ := h
  exact ⟨B, hB, hy, hx⟩

theorem not_together_of_or {p q : List α} {x y z : α} (hl : (p ++ x :: q).Nodup)
    (hx : conn x = .or) (hy : y ∈ p) (hz : z ∈ x :: q) : ¬Together conn (p ++ x :: q) y z := by
  rintro ⟨B, hB, hyB, hzB⟩
  have hd : p.Disjoint (x :: q) := (List.nodup_append'.mp hl).2.2
  rw [blocks_append_or hx (List.ne_nil_of_mem hy)] at hB
  obtain hB | hB := List.mem_append.mp hB
  · exact hd (mem_of_mem_blocks hB hzB) hz
  · exact hd hy (mem_of_mem_blocks hB hyB)

/-- Where two levels of the same clauses are always true together, they have the same conjunctions. -/
theorem Together.of_value {l l' : List α} {x y : α} (hl : l.Nodup) (hmem : ∀ x, x ∈ l ↔ x ∈ l')
    (hv : ∀ v, value (reading conn v l') = .yes ↔ value (reading conn v l) = .yes)
    (h : Together conn l x y) : Together conn l' x y := by
  classical
  obtain ⟨B, hB, hx, hy⟩ := h
  have hne : l ≠ [] := List.ne_nil_of_mem (mem_of_mem_blocks hB hx)
  have hne' : l' ≠ [] := List.ne_nil_of_mem ((hmem x).mp (mem_of_mem_blocks hB hx))
  -- Only the clauses of a conjunction are true: then those of some conjunction of the other are.
  have hsub (C : List α) (z : α) : (if z ∈ C then Truth.yes else .no) = .yes ↔ z ∈ C := by
    split <;> simp_all
  have hB' : ∃ B' ∈ blocks conn l', ∀ z ∈ B', z ∈ B := by
    have h := (hv fun z => if z ∈ B then .yes else .no).mpr
      ((value_eq_yes _ hne).mpr ⟨B, hB, fun z hz => (hsub B z).mpr hz⟩)
    obtain ⟨B', hB', h⟩ := (value_eq_yes _ hne').mp h
    exact ⟨B', hB', fun z hz => (hsub B z).mp (h z hz)⟩
  obtain ⟨B', hB', hB'B⟩ := hB'
  have hC : ∃ C ∈ blocks conn l, ∀ z ∈ C, z ∈ B' := by
    have h := (hv fun z => if z ∈ B' then .yes else .no).mp
      ((value_eq_yes _ hne').mpr ⟨B', hB', fun z hz => (hsub B' z).mpr hz⟩)
    obtain ⟨C, hC, h⟩ := (value_eq_yes _ hne).mp h
    exact ⟨C, hC, fun z hz => (hsub B' z).mp (h z hz)⟩
  obtain ⟨C, hC, hCB'⟩ := hC
  obtain ⟨z, hz⟩ := List.exists_mem_of_ne_nil C (ne_nil_of_mem_blocks hC)
  obtain rfl : C = B := eq_of_mem_blocks hl hC hB hz (hB'B z (hCB' z hz))
  exact ⟨B', hB', hCB' x hx, hCB' y hy⟩

end EntityQuery.Level
