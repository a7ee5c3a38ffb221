import EntityQuery.Proofs.Blocks
import Mathlib.Data.List.Chain
import Mathlib.Data.List.DropRight

namespace EntityQuery.Level

variable {α : Type} (early : α → Bool) (conn : α → Connective)

/-- The clauses of the kind that goes first, then the others. -/
def settle (l : List α) : List α := l.filter early ++ l.filter fun x => !early x

/-- The clauses from the first late one on, up to the last early one. -/
def overlap (l : List α) : List α := (l.dropWhile early).rdropWhile fun x => !early x

/-- Whether the clauses that change places are all joined by `and`, or each conjunction has clauses of
one kind only, the first late clause beginning one wherever it stands. -/
def KeepsValue (l : List α) : Prop :=
  (∀ x ∈ overlap early l, conn x = .and) ∨
    (∀ x ∈ l.find? (fun x => !early x), conn x = .or) ∧
      l.IsChain fun x y => early x ≠ early y → conn y = .or

instance (l : List α) : Decidable (KeepsValue early conn l) :=
  inferInstanceAs (Decidable (_ ∨ _))

variable {early conn}

theorem settle_map {β : Type} (f : β → α) (l : List β) :
    settle early (l.map f) = (settle (fun x => early (f x)) l).map f := by
  simp [settle, List.filter_map, Function.comp_def]

theorem keepsValue_map {β : Type} (f : β → α) (l : List β) :
    KeepsValue early conn (l.map f) ↔
      KeepsValue (fun x => early (f x)) (fun x => conn (f x)) l := by
  have hoverlap : overlap early (l.map f) = (overlap (fun x => early (f x)) l).map f := by
    simp [overlap, List.rdropWhile, List.dropWhile_map, ← List.map_reverse, Function.comp_def]
  have hfirst (o : Option β) : (∀ x ∈ o.map f, conn x = .or) ↔ ∀ x ∈ o, conn (f x) = .or := by
    cases o <;> simp
  unfold KeepsValue
  rw [hoverlap, List.forall_mem_map, List.find?_map, hfirst, List.isChain_map]
  rfl

theorem perm_settle (l : List α) : (settle early l).Perm l := List.filter_append_perm early l

theorem valueFrom_perm {l l' : Level} (h : l.Perm l') (hand : ∀ x ∈ l, x.1 = .and) (a : Truth)
    (r : Level) : valueFrom a (l ++ r) = valueFrom a (l' ++ r) := by
  induction h generalizing a with
  | nil => rfl
  | cons x _ ih =>
    obtain ⟨k, b⟩ := x
    obtain rfl : k = .and := hand (k, b) (by simp)
    exact ih (fun y hy => hand y (by simp [hy])) _
  | swap x y rest =>
    obtain ⟨k, b⟩ := x
    obtain ⟨k', c⟩ := y
    obtain rfl : k = .and := hand (k, b) (by simp)
    obtain rfl : k' = .and := hand (k', c) (by simp)
    have hswap : (a.and c).and b = (a.and b).and c := by
      rw [Truth.and_assoc, Truth.and_comm c, Truth.and_assoc]
    simp only [List.cons_append, valueFrom, hswap]
  | trans hp _ ih ih' =>
    exact (ih hand a).trans (ih' (fun x hx => hand x (hp.mem_iff.mpr hx)) a)

theorem valueFrom_append_congr {r r' : Level} (h : ∀ a, valueFrom a r = valueFrom a r') (a : Truth)
    (l : Level) : valueFrom a (l ++ r) = valueFrom a (l ++ r') := by
  induction l generalizing a with
  | nil => exact h a
  | cons x rest ih =>
    obtain ⟨k, b⟩ := x
    cases k with
    | and => exact ih (a.and b)
    | or => simp only [List.cons_append, valueFrom, ih]

theorem value_append_of_and {l : Level} (hl : l ≠ []) (hand : ∀ x ∈ l, x.1 = .and) (r : Level) :
    value (l ++ r) = valueFrom .yes (l ++ r) := by
  cases l with
  | nil => exact absurd rfl hl
  | cons x rest =>
    obtain ⟨k, b⟩ := x
    obtain rfl : k = .and := hand (k, b) (by simp)
    rfl

theorem value_perm {l l' : Level} (h : l.Perm l') (hand : ∀ x ∈ l, x.1 = .and) (p r : Level) :
    value (p ++ (l ++ r)) = value (p ++ (l' ++ r)) := by
  cases p with
  | cons x p => exact valueFrom_append_congr (fun a => valueFrom_perm h hand a r) x.2 p
  | nil =>
    by_cases hl : l = []
    · subst hl
      obtain rfl := h.nil_eq
      rfl
    · have hl' : l' ≠ [] := fun h' => hl (h' ▸ h).eq_nil
      have hand' : ∀ x ∈ l', x.1 = .and := fun x hx => hand x (h.mem_iff.mpr hx)
      rw [List.nil_append, List.nil_append, value_append_of_and hl hand,
        value_append_of_and hl' hand', valueFrom_perm h hand]

def alternative : Level → Truth
  | [] => .no
  | (_, a) :: rest => valueFrom a rest

theorem value_eq_alternative {l : Level} (h : l ≠ []) : value l = alternative l := by
  cases l with
  | nil => exact absurd rfl h
  | cons x rest => rfl

theorem valueFrom_append_or {r : Level} (h : ∀ x ∈ r.head?, x.1 = .or) (a : Truth) (l : Level) :
    valueFrom a (l ++ r) = (valueFrom a l).or (alternative r) := by
  induction l generalizing a with
  | nil =>
    cases r with
    | nil => simp [valueFrom, alternative]
    | cons x rest =>
      obtain ⟨k, b⟩ := x
      obtain rfl : k = .or := h (k, b) rfl
      rfl
  | cons x rest ih =>
    obtain ⟨k, b⟩ := x
    cases k with
    | and => exact ih (a.and b)
    | or => simp only [List.cons_append, valueFrom, ih, Truth.or_assoc]

abbrev Cut (early : α → Bool) (conn : α → Connective) (x y : α) : Prop :=
  early x ≠ early y → conn y = .or

theorem head_filter_of_isChain {x y : α} {l : List α} (h : (y :: l).IsChain (Cut early conn))
    (hne : early x ≠ early y) :
    ∀ z ∈ (l.filter fun z => early z == early x).head?, conn z = .or := by
  induction l generalizing y with
  | nil => simp
  | cons w rest ih =>
    obtain ⟨hyw, hr⟩ := List.isChain_cons_cons.mp h
    by_cases hw : early w = early x
    · have hy : conn w = .or := hyw fun e => hne (hw ▸ e.symm)
      simpa [hw] using hy
    · rw [List.filter_cons_of_neg (by simpa using hw)]
      have hwx : early x ≠ early w := fun e => hw e.symm
      exact ih hr hwx

theorem head_reading {l : List α} (v : α → Truth) (h : ∀ x ∈ l.head?, conn x = .or) :
    ∀ x ∈ (reading conn v l).head?, x.1 = .or := by
  cases l with
  | nil => simp [reading]
  | cons x rest => simpa [reading] using h

theorem valueFrom_eq_or {x : α} {l : List α} (h : (x :: l).IsChain (Cut early conn)) (v : α → Truth)
    (a : Truth) :
    valueFrom a (reading conn v l) =
      (valueFrom a (reading conn v (l.filter fun z => early z == early x))).or
        (alternative (reading conn v (l.filter fun z => early z != early x))) := by
  induction l generalizing x a with
  | nil => simp [reading, valueFrom, alternative]
  | cons y rest ih =>
    obtain ⟨hxy, hr⟩ := List.isChain_cons_cons.mp h
    have hcons (l : List α) : reading conn v (y :: l) = (conn y, v y) :: reading conn v l := rfl
    by_cases hy : early y = early x
    · have ih := fun a => ih hr a
      rw [hy] at ih
      rw [List.filter_cons_of_pos (by simpa using hy), List.filter_cons_of_neg (by simpa using hy),
        hcons, hcons]
      cases conn y with
      | and => rw [valueFrom, valueFrom, ih]
      | or => rw [valueFrom, valueFrom, ih, Truth.or_assoc]
    · have hyo : conn y = .or := hxy fun e => hy e.symm
      have hflip : (fun z => early z == early y) = fun z => early z != early x := by
        funext z
        cases hz : early z <;> cases hy' : early y <;> cases hx' : early x <;> simp_all
      have hflip' : (fun z => early z != early y) = fun z => early z == early x := by
        funext z
        cases hz : early z <;> cases hy' : early y <;> cases hx' : early x <;> simp_all
      have hhead := head_reading v (head_filter_of_isChain hr fun e => hy e.symm)
      have hother := valueFrom_append_or hhead a []
      rw [List.nil_append, valueFrom] at hother
      rw [List.filter_cons_of_neg (by simpa using hy), List.filter_cons_of_pos (by simpa using hy),
        hcons, hcons, hyo, valueFrom, alternative, ih hr, hflip, hflip', hother, Truth.or_assoc,
        Truth.or_comm (alternative _)]

theorem value_append_or {l r : Level} (hl : l ≠ []) (hr : ∀ x ∈ r.head?, x.1 = .or) :
    value (l ++ r) = (value l).or (alternative r) := by
  cases l with
  | nil => exact absurd rfl hl
  | cons x rest => exact valueFrom_append_or hr x.2 rest

/-- Where no conjunction has clauses of both kinds, the conjunctions only change places. -/
theorem value_settle_of_isChain {l : List α} (hc : l.IsChain (Cut early conn))
    (hfirst : ∀ x ∈ l.find? (fun x => !early x), conn x = .or) (v : α → Truth) :
    value (reading conn v (settle early l)) = value (reading conn v l) := by
  cases l with
  | nil => rfl
  | cons x rest =>
    have hlate : ∀ y ∈ ((x :: rest).filter fun x => !early x).head?, conn y = .or := by
      rwa [List.head?_filter]
    have hl : value (reading conn v (x :: rest)) = _ := valueFrom_eq_or hc v (v x)
    have hsettle : reading conn v (settle early (x :: rest)) =
        reading conn v ((x :: rest).filter early) ++
          reading conn v ((x :: rest).filter fun x => !early x) := List.map_append
    rw [hl, hsettle]
    cases hx : early x with
    | true =>
      rw [value_append_or (by simp [reading, hx]) (head_reading v hlate)]
      simp [hx, reading, value]
    | false =>
      by_cases he : rest.filter early = []
      · simp [hx, he, reading, value, alternative]
      · have hne : reading conn v ((x :: rest).filter early) ≠ [] := by simpa [reading, hx] using he
        rw [value_append_or hne (head_reading v hlate), value_eq_alternative hne, Truth.or_comm]
        simp [hx, reading, alternative]

variable (early) in
theorem exists_eq_overlap (l : List α) : ∃ p q, l = p ++ (overlap early l ++ q) ∧
    (∀ x ∈ p, early x = true) ∧ (∀ x ∈ q, early x = false) ∧
    settle early l = p ++ (settle early (overlap early l) ++ q) := by
  have hp (x : α) (hx : x ∈ l.takeWhile early) : early x = true := List.mem_takeWhile_imp hx
  have hq (x : α) (hx : x ∈ (l.dropWhile early).rtakeWhile fun x => !early x) : early x = false := by
    simpa using List.mem_rtakeWhile_imp hx
  have hl : l = l.takeWhile early ++
      (overlap early l ++ (l.dropWhile early).rtakeWhile fun x => !early x) := by
    rw [overlap, List.rdropWhile_append_rtakeWhile, List.takeWhile_append_dropWhile]
  refine ⟨_, _, hl, hp, hq, ?_⟩
  generalize l.takeWhile early = p at hl hp ⊢
  generalize (l.dropWhile early).rtakeWhile (fun x => !early x) = q at hl hq ⊢
  generalize overlap early l = o at hl ⊢
  subst hl
  have hpe : p.filter early = p := List.filter_eq_self.mpr hp
  have hpl : p.filter (fun x => !early x) = [] := by simpa [List.filter_eq_nil_iff] using hp
  have hqe : q.filter early = [] := by simpa [List.filter_eq_nil_iff] using hq
  have hql : q.filter (fun x => !early x) = q := by simpa [List.filter_eq_self] using hq
  simp [settle, hpe, hpl, hqe, hql]

theorem exists_of_overlap_ne_nil {l : List α} (h : overlap early l ≠ []) :
    ∃ x w y, overlap early l = x :: (w ++ [y]) ∧ early x = false ∧ early y = true := by
  have hlast : early ((overlap early l).getLast h) = true := by
    have hy := List.rdropWhile_last_not (fun x => !early x) (l.dropWhile early) h
    simpa [overlap] using hy
  have hhead : early ((overlap early l).head h) = false := by
    have hd : l.dropWhile early ≠ [] := by
      intro hd
      simp [overlap, hd] at h
    have hprefix := List.rdropWhile_prefix (fun x => !early x) (l := l.dropWhile early)
    have hx := List.head_dropWhile_not early hd
    rwa [← hprefix.head h] at hx
  generalize overlap early l = o at h hlast hhead ⊢
  cases o with
  | nil => exact absurd rfl h
  | cons x rest =>
    obtain rfl | ⟨w, y, rfl⟩ := List.eq_nil_or_concat rest
    · simp_all
    · refine ⟨x, w, y, by simp, hhead, by simpa using hlast⟩

theorem settle_overlap {x y : α} (hx : early x = false) (hy : early y = true) (w : List α) :
    settle early (x :: (w ++ [y])) =
      w.filter early ++ y :: x :: w.filter fun x => !early x := by
  simp [settle, hx, hy]

theorem exists_seam {l : List α} (h : overlap early l ≠ []) : ∃ p x w y q,
    l = p ++ x :: (w ++ y :: q) ∧ overlap early l = x :: (w ++ [y]) ∧
      settle early l = (p ++ w.filter early ++ [y]) ++ x :: (w.filter (fun x => !early x) ++ q) ∧
      (∀ z ∈ p ++ w.filter early ++ [y], early z = true) ∧
      ∀ z ∈ x :: (w.filter (fun x => !early x) ++ q), early z = false := by
  obtain ⟨p, q, hl, hp, hq, hs⟩ := exists_eq_overlap early l
  obtain ⟨x, w, y, ho, hx, hy⟩ := exists_of_overlap_ne_nil h
  rw [ho, settle_overlap hx hy] at hs
  rw [ho] at hl
  refine ⟨p, x, w, y, q, by simpa using hl, ho, by simpa using hs, ?_, ?_⟩
  · simp only [List.mem_append, List.mem_filter, List.mem_singleton]
    rintro z ((hz | ⟨-, hz⟩) | rfl)
    · exact hp z hz
    · exact hz
    · exact hy
  · simp only [List.mem_cons, List.mem_append, List.mem_filter]
    rintro z (rfl | ⟨-, hz⟩ | hz)
    · exact hx
    · simpa using hz
    · exact hq z hz

theorem eq_and_of_together {p w q : List α} {x y : α} (hl : (p ++ x :: (w ++ y :: q)).Nodup)
    (h : Together conn (p ++ x :: (w ++ y :: q)) x y) : ∀ z ∈ w ++ [y], conn z = .and := by
  intro z hz
  cases hk : conn z with
  | and => rfl
  | or =>
    exfalso
    obtain hz | hz := List.mem_append.mp hz
    · obtain ⟨s, t, rfl⟩ := List.append_of_mem hz
      have hcut : p ++ x :: (s ++ z :: t ++ y :: q) = (p ++ x :: s) ++ z :: (t ++ y :: q) := by simp
      rw [hcut] at hl h
      exact not_together_of_or hl hk (by simp) (by simp) h
    · obtain rfl := List.mem_singleton.mp hz
      have hcut : p ++ x :: (w ++ z :: q) = (p ++ x :: w) ++ z :: q := by simp
      rw [hcut] at hl h
      exact not_together_of_or hl hk (by simp) (by simp) h

theorem not_together_of_early_ne {p q : List α} {x a b : α} (hl : (p ++ x :: q).Nodup)
    (hk : conn x = .or) (hp : ∀ z ∈ p, early z = true) (hq : ∀ z ∈ x :: q, early z = false)
    (ha : a ∈ p ++ x :: q) (hb : b ∈ p ++ x :: q) (hne : early a ≠ early b) :
    ¬Together conn (p ++ x :: q) a b := by
  intro h
  obtain ha | ha := List.mem_append.mp ha
  · obtain hb | hb := List.mem_append.mp hb
    · exact hne ((hp a ha).trans (hp b hb).symm)
    · exact not_together_of_or hl hk ha hb h
  · obtain hb | hb := List.mem_append.mp hb
    · exact not_together_of_or hl hk hb ha h.symm
    · exact hne ((hq a ha).trans (hq b hb).symm)

theorem value_settle_of_and {l : List α} (hand : ∀ x ∈ overlap early l, conn x = .and)
    (v : α → Truth) : value (reading conn v (settle early l)) = value (reading conn v l) := by
  obtain ⟨p, q, hl, -, -, hs⟩ := exists_eq_overlap early l
  generalize overlap early l = o at hl hs hand
  subst hl
  have hperm := (@perm_settle _ early o).map fun x => (conn x, v x)
  have hand' : ∀ x ∈ reading conn v (settle early o), x.1 = .and := by
    intro x hx
    obtain ⟨z, hz, rfl⟩ := List.mem_map.mp hx
    exact hand z ((perm_settle o).mem_iff.mp hz)
  have happend (o : List α) : reading conn v (p ++ (o ++ q)) =
      reading conn v p ++ (reading conn v o ++ reading conn v q) := by
    simp [reading]
  rw [hs, happend, happend]
  exact value_perm hperm hand' _ _

/-- Only then are all values kept: the first late clause comes right behind the last early one, in one
conjunction with it or not. If it is, the two were in one conjunction before; if not, no early clause
is in one with a late one. -/
theorem keepsValue_of_value_settle {l : List α} (hl : l.Nodup)
    (hv : ∀ v, value (reading conn v (settle early l)) = value (reading conn v l)) :
    KeepsValue early conn l := by
  by_cases ho : overlap early l = []
  · exact .inl (by simp [ho])
  obtain ⟨p, x, w, y, q, hlw, ho, hsettle, hearly, hlate⟩ := exists_seam ho
  have hnd : (settle early l).Nodup := (perm_settle l).nodup_iff.mpr hl
  have hmem : ∀ x, x ∈ l ↔ x ∈ settle early l := fun x => (perm_settle l).mem_iff.symm
  have htogether {a b : α} : Together conn l a b ↔ Together conn (settle early l) a b :=
    ⟨Together.of_value hl hmem fun v => by rw [hv],
      Together.of_value hnd (fun x => (hmem x).symm) fun v => by rw [hv]⟩
  cases hk : conn x with
  | and =>
    left
    have hyx : Together conn (settle early l) y x := by
      rw [hsettle, List.append_assoc]
      exact together_of_and hk
    have hxy := (htogether.mpr hyx).symm
    rw [hlw] at hl hxy
    intro z hz
    obtain rfl | hz := List.mem_cons.mp (ho ▸ hz)
    · exact hk
    · exact eq_and_of_together hl hxy z hz
  | or =>
    right
    constructor
    · have hp : p.find? (fun x => !early x) = none := by
        rw [List.find?_eq_none]
        intro z hz
        simp [hearly z (by simp [hz])]
      have hx : early x = false := hlate x List.mem_cons_self
      rw [hlw, List.find?_append, hp]
      simp [hx, hk]
    · apply List.isChain_iff_forall_rel_of_append_cons_cons.mpr
      intro a b s t hab hne
      cases hb : conn b with
      | or => rfl
      | and =>
        exfalso
        have hst : Together conn (settle early l) a b := by
          rw [← htogether, hab]
          exact together_of_and hb
        have ha' : a ∈ settle early l := (hmem a).mp (by simp [hab])
        have hb' : b ∈ settle early l := (hmem b).mp (by simp [hab])
        rw [hsettle] at hst ha' hb' hnd
        exact not_together_of_early_ne hnd hk hearly hlate ha' hb' hne hst

/-- Moving the early clauses to the front keeps every value of the level just where the clauses that
change places are joined by `and`, or no conjunction has clauses of both kinds. -/
theorem value_settle_iff {l : List α} (hl : l.Nodup) :
    (∀ v, value (reading conn v (settle early l)) = value (reading conn v l)) ↔
      KeepsValue early conn l := by
  constructor
  · exact keepsValue_of_value_settle hl
  · rintro (hand | ⟨hfirst, hc⟩) v
    · exact value_settle_of_and hand v
    · exact value_settle_of_isChain hc hfirst v

end EntityQuery.Level
