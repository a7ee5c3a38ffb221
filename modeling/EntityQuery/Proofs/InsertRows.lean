import EntityQuery.Proofs.InsertTexts

namespace EntityQuery

open Fragment

/-- The scalar `s` stands in the `i`-th column of the `r`-th row of an insert with so many columns:
written as its style has it there, and bound for the placeholder if that is what is written. -/
def Statement.HasCell (d : Dialect) (style : Style) (st : Statement) (text : InsertText) (r i : Nat)
    (s : Scalar) : Prop :=
  (text.rows[r]?.bind fun cells => cells[i]?) =
      some (String.ofList (style.spell d (r * text.columns.length + i) s)) ∧
    (style = .placeholders → st.bindings[r * text.columns.length + i]? = some (.scalar s))

variable {d : Dialect} {style : Style} {grid : List (List Scalar)} {w : Nat}

theorem getElem?_cellTexts (h : ∀ cells ∈ grid, cells.length = w) (n r : Nat) :
    (cellTexts d style n grid)[r]? =
      grid[r]?.map fun cells => cells.mapIdx fun i s => style.spell d (n + (r * w + i)) s := by
  induction grid generalizing n r with
  | nil => rfl
  | cons cells rest ih =>
    obtain ⟨hcells, hrest⟩ := List.forall_mem_cons.mp h
    cases r with
    | zero => simp [cellTexts]
    | succ r =>
      have hplace (i : Nat) : n + w + (r * w + i) = n + ((r + 1) * w + i) := by
        rw [Nat.succ_mul]
        omega
      rw [cellTexts, List.getElem?_cons_succ, List.getElem?_cons_succ, ih hrest, hcells]
      simp only [hplace]

theorem getElem?_flatten_of_length {α : Type} {rows : List (List α)} (h : ∀ row ∈ rows, row.length = w)
    (r : Nat) {i : Nat} (hi : i < w) :
    rows.flatten[r * w + i]? = rows[r]?.bind fun row => row[i]? := by
  induction rows generalizing r with
  | nil => rfl
  | cons row rest ih =>
    obtain ⟨hrow, hrest⟩ := List.forall_mem_cons.mp h
    cases r with
    | zero => simp [List.getElem?_append_left, hrow, hi]
    | succ r =>
      have hplace : (r + 1) * w + i = row.length + (r * w + i) := by
        rw [Nat.succ_mul, hrow]
        omega
      rw [List.flatten_cons, hplace, List.getElem?_append_right (Nat.le_add_right _ _),
        Nat.add_sub_cancel_left, ih hrest, List.getElem?_cons_succ]

variable {table : String} {first : Row} {rest : List Row}

namespace Row

theorem lookup_eq {row : Row} (h : row.Fits first) {i : Nat} {column : String}
    (hcolumn : first.keys[i]? = some column) :
    ∃ s, row.scalars[i]? = some s ∧ row.toList.lookup column = some (.scalar s) := by
  have hlookup := congrArg (·[i]?) (map_lookup row)
  simp only [List.getElem?_map, keys_eq_keys.mpr h.1, hcolumn, values_eq h.2] at hlookup
  cases hs : row.scalars[i]? with
  | none => simp [hs] at hlookup
  | some s => exact ⟨s, rfl, by simpa [hs] using hlookup⟩

end Row

theorem exists_hasCell {st : Statement}
    (h : insertStatement d style table (first :: rest) = .ok (some st)) {text : InsertText}
    (htext : d.insertText? st.sql = some text) {r : Nat} {row : Row}
    (hrow : (first :: rest)[r]? = some row) {i : Nat} {column : String}
    (hcolumn : text.columns[i]? = some column) :
    ∃ s, row.toList.lookup column = some (.scalar s) ∧ st.HasCell d style text r i s := by
  obtain ⟨hkeys, hfits⟩ := insert_succeeds_iff.mp ⟨st, h⟩
  obtain rfl := Option.some.inj (htext.symm.trans (insertText?_statement h))
  obtain ⟨s, hs, hlookup⟩ := Row.lookup_eq (hfits row (List.mem_of_getElem? hrow)) hcolumn
  have hlength := Row.length_of_mem_scalars hfits
  have hgrid : ((first :: rest).map Row.scalars)[r]? = some row.scalars := by
    rw [List.getElem?_map, hrow]
    rfl
  refine ⟨s, hlookup, ?_, ?_⟩
  · rw [List.getElem?_map, getElem?_cellTexts hlength, hgrid]
    simp [hs]
  · intro hstyle
    have hi : i < first.keys.length := (List.getElem?_eq_some_iff.mp hcolumn).1
    rw [(insertStatement_eq_ok h).2.2 hstyle, insertFragments_eq hkeys hfits, scalars_grid,
      List.getElem?_map, getElem?_flatten_of_length hlength r hi, hgrid, Option.bind_some, hs]
    rfl

/-- An insert of rows, of which there is at least one. It succeeds exactly if the first row has a
column, all rows have the columns of the first one, and no value is a list. Otherwise the fault is that
the first row has no column, or else it is that of the first row that does not fit, whose columns count
before its values. If it succeeds, the text has a row of values for each row and a value for each column,
and each value is the one which the row has in the column that heads its place. -/
theorem insert_outcome (d : Dialect) (style : Style) (table : String) (first : Row) (rest : List Row) :
    ((∃ st, insertStatement d style table (first :: rest) = .ok (some st)) ↔
      first.keys ≠ [] ∧ ∀ row ∈ first :: rest, row.Matches first ∧ ¬ row.HoldsList) ∧
    (∀ e, insertStatement d style table (first :: rest) = .error e ↔
      (first.keys = [] ∧ e = .emptyRow) ∨
        (first.keys ≠ [] ∧ ∃ before row after, first :: rest = before ++ row :: after ∧
          (∀ b ∈ before, b.Matches first ∧ ¬ b.HoldsList) ∧
          ((¬ row.Matches first ∧ e = .raggedRow before.length) ∨
            (row.Matches first ∧ row.HoldsList ∧ e = .listParameter)))) ∧
    ∀ st, insertStatement d style table (first :: rest) = .ok (some st) →
      ∃ text, d.insertText? st.sql = some text ∧ text.columns = first.keys ∧
        text.rows.length = (first :: rest).length ∧
        (∀ cells ∈ text.rows, cells.length = text.columns.length) ∧
        ∀ r row, (first :: rest)[r]? = some row → ∀ i column, text.columns[i]? = some column →
          ∃ s, row.toList.lookup column = some (.scalar s) ∧ st.HasCell d style text r i s := by
  refine ⟨insert_succeeds_iff, fun e => insert_fails_iff, fun st h => ?_⟩
  obtain ⟨-, hfits⟩ := insert_succeeds_iff.mp ⟨st, h⟩
  have htext := insertText?_statement h
  refine ⟨_, htext, rfl, ?_, ?_, fun r row hrow i column => exists_hasCell h htext hrow⟩
  · rw [List.length_map, length_cellTexts, List.length_map]
  · intro cells hcells
    obtain ⟨texts, htexts, rfl⟩ := List.mem_map.mp hcells
    obtain ⟨m, scalars, hscalars, rfl⟩ := exists_of_mem_cellTexts htexts
    rw [List.length_map, List.length_mapIdx]
    exact Row.length_of_mem_scalars hfits scalars hscalars

namespace Sample

def unfit : Row := .ofList [("body", .list [])]

end Sample

example : insertStatement .mysql .inline "notes" [Sample.note, Sample.unfit, Sample.unfit] =
    .error (.raggedRow 1) := by
  rfl

theorem insert_outcome_sample : ∃ st text,
    insertStatement .postgres .placeholders "notes" [Sample.note, Sample.note] = .ok (some st) ∧
      Dialect.postgres.insertText? st.sql = some text ∧ text.columns[0]? = some "body" ∧
      st.HasCell .postgres .placeholders text 1 0 (.string "'), ('") := by
  obtain ⟨-, -, hsuccess⟩ := insert_outcome .postgres .placeholders "notes" Sample.note [Sample.note]
  obtain ⟨text, htext, hcolumns, -, -, hcells⟩ := hsuccess _ rfl
  have hcolumn : text.columns[0]? = some "body" := by
    rw [hcolumns]
    rfl
  obtain ⟨s, hs, hcell⟩ := hcells 1 Sample.note rfl 0 "body" hcolumn
  have hbody : Sample.note.toList.lookup "body" = some (.string "'), ('") := rfl
  obtain rfl := Value.scalar.inj (Option.some.inj (hs.symm.trans hbody))
  exact ⟨_, text, rfl, htext, hcolumn, hcell⟩

end EntityQuery
