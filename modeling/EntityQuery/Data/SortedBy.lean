namespace EntityQuery

variable {α : Type}

/-- Entries in strictly ascending order of their keys. -/
structure SortedBy (key : α → String) where
  toList : List α
  sorted : (toList.map key).Pairwise (· < ·)

namespace SortedBy

variable {key : α → String}

@[ext] theorem ext {s t : SortedBy key} (h : s.toList = t.toList) : s = t := by
  cases s; cases t; cases h; rfl

instance [DecidableEq α] : DecidableEq (SortedBy key) := fun _ _ =>
  decidable_of_iff _ ⟨ext, fun h => congrArg toList h⟩

instance : EmptyCollection (SortedBy key) := ⟨⟨[], List.Pairwise.nil⟩⟩

def keys (s : SortedBy key) : List String := s.toList.map key

def isEmpty (s : SortedBy key) : Bool := s.toList.isEmpty

/-- Puts `a` at its place in an ascending list, over an entry with the same key. -/
def place (key : α → String) (a : α) : List α → List α
  | [] => [a]
  | b :: rest =>
    if key a < key b then a :: b :: rest
    else if key a = key b then a :: rest
    else b :: place key a rest

theorem mem_map_place {k : String} {a : α} {l : List α} (h : k ∈ (place key a l).map key) :
    k = key a ∨ k ∈ l.map key := by
  induction l with
  | nil => simpa [place] using h
  | cons b rest ih =>
    unfold place at h
    split at h
    · simpa using h
    · split at h
      · next he =>
        simp only [List.map_cons, List.mem_cons] at h ⊢
        rcases h with h | h
        · exact .inl h
        · exact .inr (.inr h)
      · simp only [List.map_cons, List.mem_cons] at h ⊢
        rcases h with h | h
        · exact .inr (.inl h)
        · rcases ih h with h | h
          · exact .inl h
          · exact .inr (.inr h)

theorem pairwise_place (a : α) {l : List α} (h : (l.map key).Pairwise (· < ·)) :
    ((place key a l).map key).Pairwise (· < ·) := by
  induction l with
  | nil => simp [place]
  | cons b rest ih =>
    rw [List.map_cons, List.pairwise_cons] at h
    obtain ⟨hb, hr⟩ := h
    unfold place
    split
    · next hlt =>
      simp only [List.map_cons, List.pairwise_cons, List.mem_cons]
      refine ⟨?_, hb, hr⟩
      rintro k (rfl | hk)
      · exact hlt
      · exact String.lt_trans hlt (hb k hk)
    · next hlt =>
      split
      · next he =>
        simp only [List.map_cons, List.pairwise_cons]
        exact ⟨fun k hk => he ▸ hb k hk, hr⟩
      · next hne =>
        have hba : key b < key a :=
          String.not_le.mp fun h' => hne (String.le_antisymm h' (String.not_lt.mp hlt))
        simp only [List.map_cons, List.pairwise_cons]
        refine ⟨fun k hk => ?_, ih hr⟩
        rcases mem_map_place hk with rfl | hk
        · exact hba
        · exact hb k hk

def insert (a : α) (s : SortedBy key) : SortedBy key :=
  ⟨place key a s.toList, pairwise_place a s.sorted⟩

def insertAll (s : SortedBy key) (l : List α) : SortedBy key := l.foldl (fun s a => s.insert a) s

def ofList (l : List α) : SortedBy key := insertAll ∅ l

end SortedBy

abbrev CodeSet := SortedBy (id : String → String)

namespace CodeSet

def contains (s : CodeSet) (code : String) : Bool := decide (code ∈ s.toList)

def union (s t : CodeSet) : CodeSet := s.insertAll t.toList

end CodeSet

end EntityQuery
