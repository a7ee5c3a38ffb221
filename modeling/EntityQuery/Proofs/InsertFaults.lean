import EntityQuery.Proofs.Placeholders
import Mathlib.Data.List.Sort

namespace EntityQuery

open Fragment

/-- As many keys, and each of the others among them: then the keys are the same, in the same order. -/
theorem SortedBy.keys_eq_of_length_of_subset {α : Type} {key : α → String} {s t : SortedBy key}
    (hlength : s.keys.length = t.keys.length) (h : ∀ k ∈ t.keys, k ∈ s.keys) : s.keys = t.keys := by
  have hnodup : t.keys.Nodup := t.sorted.imp fun hlt => String.ne_of_lt hlt
  have hsame : t.keys.Perm s.keys :=
    (List.subperm_of_subset hnodup h).perm_of_length_le hlength.le
  exact s.sorted.eq_of_mem_iff t.sorted fun k => hsame.mem_iff.symm

namespace Row

/-- A row with the same columns as another one. -/
def Matches (row first : Row) : Prop := ∀ column, column ∈ row.keys ↔ column ∈ first.keys

def HoldsList (row : Row) : Prop := ∃ vs, .list vs ∈ row.values

def Fits (row first : Row) : Prop := row.Matches first ∧ ¬ row.HoldsList

theorem keys_eq_keys {row first : Row} : row.keys = first.keys ↔ row.Matches first := by
  constructor
  · intro h column
    rw [h]
  · intro h
    exact row.sorted.eq_of_mem_iff first.sorted h

/-- The test of the columns of a row goes one way only, but as their number is the same there are no
others. -/
theorem matches_iff {row first : Row} : row.Matches first ↔
    row.keys.length = first.keys.length ∧ ∀ column ∈ first.keys, column ∈ row.keys := by
  constructor
  · intro h
    exact ⟨by rw [keys_eq_keys.mpr h], fun column => (h column).mpr⟩
  · rintro ⟨hlength, hcolumns⟩
    exact keys_eq_keys.mp (SortedBy.keys_eq_of_length_of_subset hlength hcolumns)

end Row

namespace Fragment

theorem findSome?_separated {α : Type} (s : String) (p : α → List Fragment) (xs : List α) :
    ([.text s].intercalate (xs.map p)).findSome? fault? =
      xs.findSome? fun x => (p x).findSome? fault? := by
  induction xs with
  | nil => rfl
  | cons x rest ih =>
    cases rest with
    | nil => simp [List.intercalate]
    | cons y rest =>
      have hcut : [Fragment.text s].intercalate ((x :: y :: rest).map p) =
          p x ++ .text s :: [Fragment.text s].intercalate ((y :: rest).map p) := by
        simp [List.intercalate]
      rw [hcut, List.findSome?_append, List.findSome?_cons_of_isNone rfl, ih]
      simp only [List.findSome?_cons]
      cases (p x).findSome? fault? <;> rfl

end Fragment

namespace Row

variable {row first : Row} {e : RenderFault} {i : Nat}

theorem findSome?_fragments (h : row.Matches first) :
    (row.fragments first.keys i).findSome? fault? =
      row.values.findSome? fun v => (value v).fault? := by
  have hcells : ([.text ", "].intercalate (row.toList.map fun cell => [value cell.2])).findSome?
      fault? = row.values.findSome? fun v => (value v).fault? := by
    rw [findSome?_separated, values, List.findSome?_map]
    congr 1
    funext cell
    simp
  rw [fragments, if_pos (matches_iff.mp h), List.cons_append,
    List.findSome?_cons_of_isNone rfl, List.findSome?_append, hcells]
  exact Option.or_none

theorem findSome?_values : (row.values.findSome? fun v => (value v).fault?) = some e ↔
    row.HoldsList ∧ e = .listParameter := by
  have hlist {e : RenderFault} (h : (row.values.findSome? fun v => (value v).fault?) = some e) :
      row.HoldsList ∧ e = .listParameter := by
    obtain ⟨v, hv, he⟩ := List.exists_of_findSome?_eq_some h
    cases v with
    | scalar s => cases he
    | list vs => exact ⟨⟨vs, hv⟩, (Option.some.inj he).symm⟩
  refine ⟨hlist, ?_⟩
  rintro ⟨⟨vs, hvs⟩, rfl⟩
  cases hfault : row.values.findSome? fun v => (value v).fault? with
  | none => cases List.findSome?_eq_none_iff.mp hfault _ hvs
  | some e => rw [(hlist hfault).2]

theorem fault?_eq_some : (row.fragments first.keys i).findSome? fault? = some e ↔
    (¬ row.Matches first ∧ e = .raggedRow i) ∨
      (row.Matches first ∧ row.HoldsList ∧ e = .listParameter) := by
  by_cases h : row.Matches first
  · rw [findSome?_fragments h, findSome?_values]
    simp [h]
  · have hragged : row.fragments first.keys i = [.fault (.raggedRow i)] :=
      if_neg fun hcolumns => h (matches_iff.mpr hcolumns)
    simp [hragged, h, fault?, eq_comm]

theorem fault?_eq_none :
    (row.fragments first.keys i).findSome? fault? = none ↔ row.Fits first := by
  rw [Option.eq_none_iff_forall_ne_some]
  simp only [ne_eq, fault?_eq_some]
  constructor
  · intro h
    have hmatches : row.Matches first := by
      by_contra hragged
      exact h _ (.inl ⟨hragged, rfl⟩)
    exact ⟨hmatches, fun hlist => h _ (.inr ⟨hmatches, hlist, rfl⟩)⟩
  · rintro ⟨hmatches, hlist⟩ e (⟨hragged, -⟩ | ⟨-, hholds, -⟩)
    · exact hragged hmatches
    · exact hlist hholds

theorem findSome?_rows {rows : List Row} :
    ((rows.mapIdx fun i row => row.fragments first.keys i).findSome? fun fs =>
        fs.findSome? fault?) = some e ↔
      ∃ before row after, rows = before ++ row :: after ∧ (∀ b ∈ before, b.Fits first) ∧
        (row.fragments first.keys before.length).findSome? fault? = some e := by
  rw [List.findSome?_eq_some_iff]
  constructor
  · rintro ⟨earlier, fs, later, hrows, hfault, hearlier⟩
    obtain ⟨before, behind, rfl, rfl, hbehind⟩ := List.mapIdx_eq_append_iff.mp hrows
    obtain ⟨row, after, rfl, rfl, -⟩ := List.mapIdx_eq_cons_iff.mp hbehind
    refine ⟨before, row, after, rfl, fun b hb => ?_, by simpa using hfault⟩
    obtain ⟨i, hi, rfl⟩ := List.getElem_of_mem hb
    exact fault?_eq_none.mp (hearlier _ (List.mem_mapIdx.mpr ⟨i, hi, rfl⟩))
  · rintro ⟨before, row, after, rfl, hbefore, hfault⟩
    refine ⟨before.mapIdx fun i row => row.fragments first.keys i, _,
      after.mapIdx fun i row => row.fragments first.keys (i + 1 + before.length), ?_, hfault, ?_⟩
    · rw [List.mapIdx_append, List.mapIdx_cons, Nat.zero_add]
    · intro fs hfs
      obtain ⟨i, hi, rfl⟩ := List.mem_mapIdx.mp hfs
      exact fault?_eq_none.mpr (hbefore _ (List.getElem_mem hi))

end Row

variable {d : Dialect} {style : Style} {table : String} {first : Row} {rest : List Row}
  {e : RenderFault}

theorem findSome?_insert : (insertFragments table first rest).findSome? fault? =
    if first.isEmpty then some .emptyRow
    else ((first :: rest).mapIdx fun i row => row.fragments first.keys i).findSome? fun fs =>
      fs.findSome? fault? := by
  have hcolumns : ([.text ", "].intercalate (first.keys.map fun column => [.name column])).findSome?
      fault? = none := by
    rw [findSome?_separated]
    exact List.findSome?_eq_none_iff.mpr fun _ _ => rfl
  have hrows := findSome?_separated ", " id
    ((first :: rest).mapIdx fun i row => row.fragments first.keys i)
  rw [List.map_id] at hrows
  unfold insertFragments
  split
  · rfl
  · simp only [List.findSome?_append, hcolumns, hrows]
    rfl

theorem insertStatement_of_fault (h : (insertFragments table first rest).findSome? fault? = some e) :
    insertStatement d style table (first :: rest) = .error e := by
  rw [insertStatement, Statement.ofFragments_of_fault h]
  rfl

theorem insertStatement_of_sound (h : (insertFragments table first rest).findSome? fault? = none) :
    insertStatement d style table (first :: rest) = .ok (some {
      sql := String.ofList (spell d style 0 (insertFragments table first rest))
      bindings := match style with
        | .placeholders => ((insertFragments table first rest).filterMap scalar?).map .scalar
        | .inline => [] }) := by
  rw [insertStatement, Statement.ofFragments_of_sound h]
  rfl

theorem insertStatement_eq_error : insertStatement d style table (first :: rest) = .error e ↔
    (insertFragments table first rest).findSome? fault? = some e := by
  cases hfault : (insertFragments table first rest).findSome? fault? with
  | some e' => simp [insertStatement_of_fault hfault]
  | none => simp [insertStatement_of_sound hfault]

theorem exists_insertStatement :
    (∃ st, insertStatement d style table (first :: rest) = .ok (some st)) ↔
      (insertFragments table first rest).findSome? fault? = none := by
  cases hfault : (insertFragments table first rest).findSome? fault? with
  | some e' => simp [insertStatement_of_fault hfault]
  | none => simp [insertStatement_of_sound hfault]

theorem insertStatement_eq_ok {st : Statement}
    (h : insertStatement d style table (first :: rest) = .ok (some st)) :
    (insertFragments table first rest).findSome? fault? = none ∧
      st.sql.toList = spell d style 0 (insertFragments table first rest) ∧
      (style = .placeholders →
        st.bindings = ((insertFragments table first rest).filterMap scalar?).map .scalar) := by
  have hfault := exists_insertStatement.mp ⟨st, h⟩
  rw [insertStatement_of_sound hfault] at h
  cases h
  refine ⟨hfault, String.toList_ofList, ?_⟩
  rintro rfl
  rfl

theorem Row.isEmpty_iff {row : Row} : row.isEmpty = true ↔ row.keys = [] := by
  rw [SortedBy.isEmpty, List.isEmpty_iff, SortedBy.keys, List.map_eq_nil_iff]

theorem insert_succeeds_iff : (∃ st, insertStatement d style table (first :: rest) = .ok (some st)) ↔
    first.keys ≠ [] ∧ ∀ row ∈ first :: rest, row.Fits first := by
  rw [exists_insertStatement, findSome?_insert]
  by_cases h : first.isEmpty = true
  · simp [h, Row.isEmpty_iff.mp h]
  · rw [if_neg h, List.findSome?_eq_none_iff]
    simp only [List.mem_mapIdx]
    constructor
    · intro hrows
      refine ⟨fun hkeys => h (Row.isEmpty_iff.mpr hkeys), fun row hrow => ?_⟩
      obtain ⟨i, hi, rfl⟩ := List.getElem_of_mem hrow
      exact Row.fault?_eq_none.mp (hrows _ ⟨i, hi, rfl⟩)
    · rintro ⟨-, hfits⟩ fs ⟨i, hi, rfl⟩
      exact Row.fault?_eq_none.mpr (hfits _ (List.getElem_mem hi))

theorem insert_fails_iff : insertStatement d style table (first :: rest) = .error e ↔
    (first.keys = [] ∧ e = .emptyRow) ∨
      (first.keys ≠ [] ∧ ∃ before row after, first :: rest = before ++ row :: after ∧
        (∀ b ∈ before, b.Fits first) ∧
        ((¬ row.Matches first ∧ e = .raggedRow before.length) ∨
          (row.Matches first ∧ row.HoldsList ∧ e = .listParameter))) := by
  rw [insertStatement_eq_error, findSome?_insert]
  by_cases h : first.isEmpty = true
  · simp [h, Row.isEmpty_iff.mp h, eq_comm]
  · have hkeys : first.keys ≠ [] := fun hkeys => h (Row.isEmpty_iff.mpr hkeys)
    rw [if_neg h, Row.findSome?_rows]
    simp only [Row.fault?_eq_some, ne_eq, hkeys, not_false_eq_true, false_and, true_and, false_or]

end EntityQuery
