namespace EntityQuery

variable {α κ : Type}

/-- Entries with pairwise different keys, in order of first arrival. -/
structure Keyed (key : α → κ) where
  toList : List α
  nodup : (toList.map key).Nodup

namespace Keyed

variable {key : α → κ}

@[ext] theorem ext {s t : Keyed key} (h : s.toList = t.toList) : s = t := by
  cases s; cases t; cases h; rfl

instance [DecidableEq α] : DecidableEq (Keyed key) := fun _ _ =>
  decidable_of_iff _ ⟨ext, fun h => congrArg toList h⟩

instance : EmptyCollection (Keyed key) := ⟨⟨[], List.nodup_nil⟩⟩

def keys (s : Keyed key) : List κ := s.toList.map key

def size (s : Keyed key) : Nat := s.toList.length

def isEmpty (s : Keyed key) : Bool := s.toList.isEmpty

def filter (p : α → Bool) (s : Keyed key) : Keyed key :=
  ⟨s.toList.filter p, s.nodup.sublist (List.filter_sublist.map key)⟩

variable [DecidableEq κ]

def find? (s : Keyed key) (k : κ) : Option α := s.toList.find? (key · = k)

def contains (s : Keyed key) (k : κ) : Bool := (s.find? k).isSome

/-- Replaces the first entry with the key of `a`, or appends `a`. -/
def write (key : α → κ) (a : α) : List α → List α
  | [] => [a]
  | b :: rest => if key b = key a then a :: rest else b :: write key a rest

theorem map_write (key : α → κ) (a : α) (l : List α) :
    (write key a l).map key =
      if key a ∈ l.map key then l.map key else l.map key ++ [key a] := by
  induction l with
  | nil => simp [write]
  | cons b rest ih =>
    by_cases h : key b = key a
    · simp [write, h]
    · have h' : ¬ key a = key b := fun e => h e.symm
      simp only [write, h, if_false, List.map_cons, ih, List.mem_cons, h', false_or]
      split <;> simp

theorem nodup_write (a : α) {l : List α} (h : (l.map key).Nodup) :
    ((write key a l).map key).Nodup := by
  rw [map_write]
  split
  · exact h
  · next hn =>
    rw [List.nodup_append]
    refine ⟨h, by simp, ?_⟩
    intro x hx y hy e
    rw [List.mem_singleton] at hy
    exact hn (by rwa [← hy, ← e])

def put (a : α) (s : Keyed key) : Keyed key := ⟨write key a s.toList, nodup_write a s.nodup⟩

theorem keys_put (a : α) (s : Keyed key) :
    (s.put a).keys = if key a ∈ s.keys then s.keys else s.keys ++ [key a] :=
  map_write key a s.toList

theorem find?_write (a : α) (k : κ) (l : List α) :
    (write key a l).find? (key · = k) = if key a = k then some a else l.find? (key · = k) := by
  induction l with
  | nil => by_cases h : key a = k <;> simp [write, h]
  | cons b rest ih =>
    unfold write
    split
    · next hb => by_cases h : key a = k <;> simp [hb, h]
    · next hb =>
      rw [List.find?_cons, List.find?_cons, ih]
      by_cases h : key a = k
      · have hk : ¬ key b = k := fun e => hb (e.trans h.symm)
        simp [h, hk]
      · simp [h]

theorem find?_of_mem {a : α} {s : Keyed key} (h : a ∈ s.toList) : s.find? (key a) = some a := by
  have hfound : ∀ l : List α, (l.map key).Nodup → a ∈ l → l.find? (key · = key a) = some a := by
    intro l hl ha
    induction l with
    | nil => cases ha
    | cons b rest ih =>
      obtain ⟨hb, hrest⟩ := List.nodup_cons.mp hl
      obtain rfl | ha := List.mem_cons.mp ha
      · simp
      · have hne : ¬ key b = key a := fun e => hb (e ▸ List.mem_map_of_mem ha)
        rw [List.find?_cons_of_neg (by simpa using hne), ih hrest ha]
  exact hfound s.toList s.nodup h

theorem write_of_find?_eq_none (a : α) {l : List α} (h : l.find? (key · = key a) = none) :
    write key a l = l ++ [a] := by
  induction l with
  | nil => rfl
  | cons b rest ih =>
    obtain ⟨hb, hrest⟩ := List.forall_mem_cons.mp (List.find?_eq_none.mp h)
    rw [write, if_neg (by simpa using hb), ih (List.find?_eq_none.mpr hrest), List.cons_append]

theorem toList_put_of_find?_eq_none (a : α) {s : Keyed key} (h : s.find? (key a) = none) :
    (s.put a).toList = s.toList ++ [a] :=
  write_of_find?_eq_none a h

/-- The entry written is found under its key, and every other look-up stays. -/
theorem find?_put (a : α) (s : Keyed key) (k : κ) :
    (s.put a).find? k = if key a = k then some a else s.find? k :=
  find?_write a k s.toList

def ofList (key : α → κ) (l : List α) : Keyed key := l.foldl (fun s a => s.put a) ∅

theorem toList_foldl_put {l : List α} {s : Keyed key} (h : (s.keys ++ l.map key).Nodup) :
    (l.foldl (fun s a => s.put a) s).toList = s.toList ++ l := by
  induction l generalizing s with
  | nil => rw [List.foldl_nil, List.append_nil]
  | cons a rest ih =>
    have hnew : key a ∉ s.keys := fun hm =>
      (List.nodup_append.mp h).2.2 _ hm _ List.mem_cons_self rfl
    have hnone : s.find? (key a) = none := List.find?_eq_none.mpr fun b hb hkey =>
      hnew (of_decide_eq_true hkey ▸ List.mem_map_of_mem hb)
    have hkeys : ((s.put a).keys ++ rest.map key).Nodup := by
      rw [keys_put, if_neg hnew, List.append_assoc]
      exact h
    rw [List.foldl_cons, ih hkeys, toList_put_of_find?_eq_none a hnone, List.append_assoc,
      List.singleton_append]

theorem ofList_toList (s : Keyed key) : ofList key s.toList = s :=
  ext (toList_foldl_put s.nodup)

/-- Putting those entries of a set that satisfy `p` one after the other leaves the others out. -/
theorem foldl_put_of_filter (p : α → Bool) (s : Keyed key) :
    s.toList.foldl (fun t a => if p a then t.put a else t) ∅ = s.filter p := by
  rw [← ofList_toList (s.filter p), ofList, filter, List.foldl_filter]

end Keyed

end EntityQuery
