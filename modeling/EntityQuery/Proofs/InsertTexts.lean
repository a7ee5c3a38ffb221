import EntityQuery.Proofs.ClauseTexts
import EntityQuery.Proofs.InsertFaults
import EntityQuery.Proofs.Literals
import Mathlib.Data.List.DropRight

namespace EntityQuery

open Fragment

theorem mapM_eq_some {α β : Type} {f : α → Option β} {xs : List α} {ys : List β}
    (h : xs.map f = ys.map some) : xs.mapM f = some ys := by
  induction xs generalizing ys with
  | nil =>
    cases ys with
    | nil => rfl
    | cons y ys => cases h
  | cons x rest ih =>
    cases ys with
    | nil => cases h
    | cons y ys =>
      obtain ⟨hx, hrest⟩ := List.cons.inj h
      rw [List.mapM_cons, hx, ih hrest]
      rfl

namespace Lexeme

def edges : List Lexeme := [.other '(', .other ')', .unclosed]

/-- Lexemes cut at their parentheses: those in front of the first group, and each group with what stands
behind it. -/
structure Outline where
  front : List Lexeme
  groups : List (List Lexeme × List Lexeme)

mutual

/-- The outline of lexemes. There is none if a parenthesis lacks the other one or stands inside of a
group, or if quotes have no end. -/
def outline? : List Lexeme → Option Outline
  | [] => some ⟨[], []⟩
  | l :: rest =>
    if l = .other '(' then (group? rest).map fun (group, o) => ⟨[], (group, o.front) :: o.groups⟩
    else if l ∈ edges then none
    else (outline? rest).map fun o => ⟨l :: o.front, o.groups⟩

def group? : List Lexeme → Option (List Lexeme × Outline)
  | [] => none
  | l :: rest =>
    if l = .other ')' then (outline? rest).map fun o => ([], o)
    else if l ∈ edges then none
    else (group? rest).map fun (group, o) => (l :: group, o)

end

def isBlank (l : Lexeme) : Bool := l = .other ' '

def trim (ls : List Lexeme) : List Lexeme := (ls.dropWhile isBlank).rdropWhile isBlank

def items (ls : List Lexeme) : List (List Lexeme) := (ls.splitOn (.other ',')).map trim

def listed? : List (List Lexeme × List Lexeme) → Option (List (List Lexeme))
  | [] => none
  | [(group, behind)] => if trim behind = [] then some [group] else none
  | (group, behind) :: rest =>
    if trim behind = [.other ','] then (listed? rest).map (group :: ·) else none

def words (s : String) : List Lexeme := s.toList.map .other

def listing (parts : List (List Lexeme)) : List Lexeme := (words ", ").intercalate parts

def grouped (ls : List Lexeme) : List Lexeme := .other '(' :: ls ++ [.other ')']

def behind? (s : String) (ls : List Lexeme) : Option (List Lexeme) :=
  if words s <+: ls then some (ls.drop (words s).length) else none

def name? : List Lexeme → Option String
  | [.name s] => some (String.ofList s)
  | _ => none

end Lexeme

/-- What the text of an insert says: the table, its columns, and the texts of the values by row. -/
structure InsertText where
  table : String
  columns : List String
  rows : List (List String)
  deriving DecidableEq

def Dialect.insertText? (d : Dialect) (sql : String) : Option InsertText := do
  let outline ← Lexeme.outline? (d.lex sql.toList)
  let table ← Lexeme.name? (Lexeme.trim (← Lexeme.behind? "insert into" outline.front))
  let (columns, behind) ← outline.groups.head?
  let columns ← (Lexeme.items columns).mapM Lexeme.name?
  guard (Lexeme.trim behind = Lexeme.words "values")
  let rows ← Lexeme.listed? outline.groups.tail
  some {
    table, columns
    rows := rows.map fun row =>
      (Lexeme.items row).map fun ls => String.ofList (ls.flatMap (Lexeme.text d)) }

example : Dialect.sqlite.insertText?
    "insert into \"a (b\" (\"x\", \"y,z\") values (1, 'it''s, (me)'), (NULL, X'00')" =
    some ⟨"a (b", ["x", "y,z"], [["1", "'it''s, (me)'"], ["NULL", "X'00'"]]⟩ := by
  decide +kernel

namespace Lexeme

variable {ls : List Lexeme}

theorem outline?_append (h : ∀ l ∈ ls, l ∉ edges) (rest : List Lexeme) :
    outline? (ls ++ rest) = (outline? rest).map fun o => ⟨ls ++ o.front, o.groups⟩ := by
  induction ls with
  | nil => simp
  | cons l ls ih =>
    obtain ⟨hl, hls⟩ := List.forall_mem_cons.mp h
    have hopen : l ≠ .other '(' := (ne_of_mem_of_not_mem (by simp [edges]) hl).symm
    rw [List.cons_append, outline?, if_neg hopen, if_neg hl, ih hls]
    simp [Function.comp_def]

theorem group?_append (h : ∀ l ∈ ls, l ∉ edges) (rest : List Lexeme) :
    group? (ls ++ .other ')' :: rest) = (outline? rest).map fun o => (ls, o) := by
  induction ls with
  | nil => simp [group?]
  | cons l ls ih =>
    obtain ⟨hl, hls⟩ := List.forall_mem_cons.mp h
    have hclose : l ≠ .other ')' := (ne_of_mem_of_not_mem (by simp [edges]) hl).symm
    rw [List.cons_append, group?, if_neg hclose, if_neg hl, ih hls]
    simp [Function.comp_def]

theorem outline?_grouped (h : ∀ l ∈ ls, l ∉ edges) (rest : List Lexeme) :
    outline? (grouped ls ++ rest) =
      (outline? rest).map fun o => ⟨[], (ls, o.front) :: o.groups⟩ := by
  have hcut : grouped ls ++ rest = .other '(' :: (ls ++ .other ')' :: rest) := by simp [grouped]
  rw [hcut, outline?, if_pos rfl, group?_append h]
  simp [Function.comp_def]

theorem listing_cons_cons (part next : List Lexeme) (rest : List (List Lexeme)) :
    listing (part :: next :: rest) = part ++ (words ", " ++ listing (next :: rest)) := by
  simp [listing, List.intercalate]

theorem outline?_listing (groups : List (List Lexeme)) (hne : groups ≠ [])
    (h : ∀ group ∈ groups, ∀ l ∈ group, l ∉ edges) :
    ∃ cut, outline? (listing (groups.map grouped)) = some ⟨[], cut⟩ ∧ listed? cut = some groups := by
  induction groups with
  | nil => exact absurd rfl hne
  | cons group rest ih =>
    obtain ⟨hgroup, hrest⟩ := List.forall_mem_cons.mp h
    cases rest with
    | nil =>
      refine ⟨[(group, [])], ?_, rfl⟩
      have hcut := outline?_grouped hgroup []
      simpa [listing, List.intercalate, outline?] using hcut
    | cons next rest =>
      obtain ⟨cut, houtline, hlisted⟩ := ih (List.cons_ne_nil _ _) hrest
      obtain ⟨c, cut, rfl⟩ : ∃ c cut', cut = c :: cut' :=
        List.exists_cons_of_ne_nil (by rintro rfl; cases hlisted)
      refine ⟨(group, words ", ") :: c :: cut, ?_, ?_⟩
      · rw [List.map_cons] at houtline
        rw [List.map_cons, List.map_cons, listing_cons_cons, outline?_grouped hgroup,
          outline?_append (by decide), houtline]
        simp
      · have hsep : trim (words ", ") = [.other ','] := by decide
        rw [listed?, if_pos hsep, hlisted]
        · rfl
        · exact List.cons_ne_nil _ _

theorem edges_subset : edges ⊆ delimiters := by
  simp [edges, delimiters]

theorem notMem_edges_listing {parts : List (List Lexeme)}
    (h : ∀ part ∈ parts, ∀ l ∈ part, l ∉ delimiters) :
    ∀ l ∈ listing parts, l ∉ edges := by
  cases parts with
  | nil => exact List.forall_mem_nil _
  | cons part rest =>
    obtain ⟨hpart, hrest⟩ := List.forall_mem_cons.mp h
    rw [listing, intercalate_cons, List.forall_mem_append]
    refine ⟨fun l hl hedge => hpart l hl (edges_subset hedge), fun l hl => ?_⟩
    obtain ⟨part', hpart', hl⟩ := List.mem_flatMap.mp hl
    obtain hl | hl := List.mem_append.mp hl
    · exact (by decide : ∀ l ∈ words ", ", l ∉ edges) l hl
    · exact fun hedge => hrest part' hpart' l hl (edges_subset hedge)

theorem trim_of_notMem (h : .other ' ' ∉ ls) : trim ls = ls := by
  have hblank : ∀ l ∈ ls, isBlank l = false := fun l hl => by
    simpa [isBlank] using ne_of_mem_of_not_mem hl h
  have hfront : ls.dropWhile isBlank = ls := by
    cases ls with
    | nil => rfl
    | cons l ls => rw [List.dropWhile_cons, hblank l List.mem_cons_self]; rfl
  rw [trim, hfront, List.rdropWhile_eq_self_iff]
  intro hne
  rw [hblank _ (List.getLast_mem hne)]
  exact Bool.false_ne_true

theorem trim_cons_blank (ls : List Lexeme) : trim (.other ' ' :: ls) = trim ls := by
  simp [trim, isBlank]

theorem items_listing {parts : List (List Lexeme)} (hne : parts ≠ [])
    (h : ∀ part ∈ parts, ∀ l ∈ part, l ∉ delimiters) :
    items (listing parts) = parts := by
  cases parts with
  | nil => exact absurd rfl hne
  | cons part rest =>
    have hcut : listing (part :: rest) =
        [.other ','].intercalate (part :: rest.map (.other ' ' :: ·)) := by
      rw [listing, intercalate_cons, intercalate_cons, List.flatMap_map]
      rfl
    have hnotMem {c : Char} (hc : .other c ∈ delimiters) : ∀ part' ∈ part :: rest, .other c ∉ part' :=
      fun part' hpart hmem => h part' hpart _ hmem hc
    have hcomma : ∀ p ∈ part :: rest.map (.other ' ' :: ·), Lexeme.other ',' ∉ p := by
      have hparts := hnotMem (c := ',') (by simp [delimiters])
      intro p hp
      obtain rfl | hp := List.mem_cons.mp hp
      · exact hparts p List.mem_cons_self
      · obtain ⟨part', hpart, rfl⟩ := List.mem_map.mp hp
        simpa using hparts part' (List.mem_cons_of_mem part hpart)
    rw [items, hcut, List.splitOn_intercalate _ hcomma (List.cons_ne_nil _ _), List.map_cons,
      List.map_map]
    have htrim : ∀ part' ∈ part :: rest, trim part' = part' := fun part' hpart =>
      trim_of_notMem (hnotMem (c := ' ') (by simp [delimiters]) part' hpart)
    rw [htrim part List.mem_cons_self]
    congr 1
    refine (List.map_congr_left fun part' hpart => ?_).trans (List.map_id rest)
    rw [Function.comp_apply, trim_cons_blank, htrim part' (List.mem_cons_of_mem part hpart)]
    rfl

theorem behind?_words (s : String) (ls : List Lexeme) : behind? s (words s ++ ls) = some ls := by
  rw [behind?, if_pos (List.prefix_append _ _), List.drop_left]

theorem mapM_name? (names : List String) :
    (names.map fun s => [name s.toList]).mapM name? = some names := by
  apply mapM_eq_some
  rw [List.map_map]
  exact List.map_congr_left fun s _ => congrArg some String.ofList_toList

theorem items_lex {d : Dialect} {texts : List (List Char)} (hne : texts ≠ [])
    (h : ∀ text ∈ texts, d.Cell text) :
    (items (listing (texts.map d.lex))).map
        (fun ls => String.ofList (ls.flatMap (Lexeme.text d))) = texts.map String.ofList := by
  have hinside : ∀ part ∈ texts.map d.lex, ∀ l ∈ part, l ∉ delimiters := by
    intro part hpart l hl
    obtain ⟨text, htext, rfl⟩ := List.mem_map.mp hpart
    exact (h text htext).inside l hl
  rw [items_listing (by simpa using hne) hinside, List.map_map]
  refine List.map_congr_left fun text htext => congrArg String.ofList ?_
  exact Dialect.flatMap_text_lex fun hopen => (h text htext).inside _ hopen (by simp [delimiters])

end Lexeme

namespace InsertText

def front (table : String) : List Lexeme :=
  Lexeme.words "insert into " ++ [.name table.toList, .other ' ']

def header (columns : List String) : List Lexeme :=
  Lexeme.listing (columns.map fun column => [.name column.toList])

def lexemes (d : Dialect) (table : String) (columns : List String)
    (rows : List (List (List Char))) : List Lexeme :=
  front table ++ (Lexeme.grouped (header columns) ++ (Lexeme.words " values " ++
    Lexeme.listing (rows.map fun texts => Lexeme.grouped (Lexeme.listing (texts.map d.lex)))))

theorem notMem_edges_front (table : String) : ∀ l ∈ front table, l ∉ Lexeme.edges := by
  have hname : Lexeme.name table.toList ∉ Lexeme.edges := by simp [Lexeme.edges]
  exact List.forall_mem_append.mpr
    ⟨by decide, List.forall_mem_cons.mpr ⟨hname, by decide⟩⟩

theorem table_front (table : String) : (Lexeme.behind? "insert into" (front table)).bind
    (fun ls => Lexeme.name? (Lexeme.trim ls)) = some table := by
  have hbehind := Lexeme.behind?_words "insert into" [.other ' ', .name table.toList, .other ' ']
  have hname : Lexeme.name? (Lexeme.trim [.other ' ', .name table.toList, .other ' ']) = some table :=
    congrArg some String.ofList_toList
  exact (congrArg (Option.bind · _) hbehind).trans hname

theorem notMem_delimiters_names (columns : List String) :
    ∀ part ∈ columns.map fun column => [Lexeme.name column.toList],
      ∀ l ∈ part, l ∉ Lexeme.delimiters := by
  intro part hpart l hl
  obtain ⟨column, -, rfl⟩ := List.mem_map.mp hpart
  rw [List.mem_singleton.mp hl]
  simp [Lexeme.delimiters]

theorem columns_header {columns : List String} (h : columns ≠ []) :
    (Lexeme.items (header columns)).mapM Lexeme.name? = some columns := by
  rw [header, Lexeme.items_listing (by simpa using h) (notMem_delimiters_names columns),
    Lexeme.mapM_name?]

theorem outline?_lexemes {d : Dialect} (table : String) (columns : List String)
    {rows : List (List (List Char))} (hne : rows ≠ []) (h : ∀ texts ∈ rows, ∀ text ∈ texts, d.Cell text) :
    ∃ cut, Lexeme.outline? (lexemes d table columns rows) =
        some ⟨front table, (header columns, Lexeme.words " values ") :: cut⟩ ∧
      Lexeme.listed? cut = some (rows.map fun texts => Lexeme.listing (texts.map d.lex)) := by
  have hgroups : ∀ group ∈ rows.map fun texts => Lexeme.listing (texts.map d.lex),
      ∀ l ∈ group, l ∉ Lexeme.edges := by
    intro group hgroup
    obtain ⟨texts, htexts, rfl⟩ := List.mem_map.mp hgroup
    refine Lexeme.notMem_edges_listing fun part hpart l hl => ?_
    obtain ⟨text, htext, rfl⟩ := List.mem_map.mp hpart
    exact (h texts htexts text htext).inside l hl
  obtain ⟨cut, hcut, hlisted⟩ := Lexeme.outline?_listing _ (by simpa using hne) hgroups
  rw [List.map_map, Function.comp_def] at hcut
  have hheader : ∀ l ∈ header columns, l ∉ Lexeme.edges :=
    Lexeme.notMem_edges_listing (notMem_delimiters_names columns)
  refine ⟨cut, ?_, hlisted⟩
  rw [lexemes, Lexeme.outline?_append (notMem_edges_front table), Lexeme.outline?_grouped hheader,
    Lexeme.outline?_append (by decide), hcut]
  simp

end InsertText

theorem Dialect.insertText?_of_lex {d : Dialect} {table sql : String} {columns : List String}
    {rows : List (List (List Char))} (hlex : d.lex sql.toList = InsertText.lexemes d table columns rows)
    (hcolumns : columns ≠ []) (hne : rows ≠ [])
    (hrows : ∀ texts ∈ rows, texts ≠ [] ∧ ∀ text ∈ texts, d.Cell text) :
    d.insertText? sql = some ⟨table, columns, rows.map fun texts => texts.map String.ofList⟩ := by
  obtain ⟨cut, houtline, hlisted⟩ := InsertText.outline?_lexemes table columns hne
    fun texts htexts => (hrows texts htexts).2
  rw [← hlex] at houtline
  have hvalues : Lexeme.trim (Lexeme.words " values ") = Lexeme.words "values" := by decide
  have hitems : (rows.map fun texts => Lexeme.listing (texts.map d.lex)).map
      (fun row => (Lexeme.items row).map fun ls => String.ofList (ls.flatMap (Lexeme.text d))) =
      rows.map fun texts => texts.map String.ofList := by
    rw [List.map_map]
    exact List.map_congr_left fun texts htexts =>
      Lexeme.items_lex (hrows texts htexts).1 (hrows texts htexts).2
  unfold insertText?
  simp only [houtline, hvalues, hlisted, InsertText.columns_header hcolumns, Option.bind_eq_bind,
    Option.bind_some, List.head?_cons, List.tail_cons, ← Option.bind_assoc, InsertText.table_front]
  exact congrArg (fun rows => some (InsertText.mk table columns rows)) hitems

namespace Fragment

def lexemesIn (d : Dialect) (style : Style) : Nat → List Fragment → List Lexeme
  | _, [] => []
  | n, .text s :: rest => (Mode.plain.run d s.toList).1 ++ lexemesIn d style n rest
  | n, .name s :: rest => .name s.toList :: lexemesIn d style n rest
  | n, .value (.scalar s) :: rest => d.lex (style.spell d n s) ++ lexemesIn d style (n + 1) rest
  | n, .value (.list _) :: rest | n, .fault _ :: rest => lexemesIn d style n rest

variable {d : Dialect} {style : Style} {n : Nat}

theorem lex_spell_style {fs : List Fragment} (h : Clean d fs) (n : Nat) :
    d.lex (spell d style n fs) = lexemesIn d style n fs := by
  induction fs generalizing n with
  | nil => rfl
  | cons f rest ih =>
    cases f with
    | text s =>
      have hr := ih h.2 n
      unfold Dialect.lex at hr ⊢
      rw [spell, Mode.read_append, h.1.1, hr, lexemesIn]
    | name s =>
      have hb := breaks_spell h.1 d style n
      rw [spell, Dialect.lex_quote d fun c hc => ne_quoteMark_of_breaks (hb c hc) d, ih h.2, lexemesIn]
    | value v =>
      cases v with
      | list vs => exact ih h.2 n
      | scalar s =>
        rw [spell, (d.cell_spell style n s).lex_append _ (breaks_spell h.1 d style (n + 1)), ih h.2,
          lexemesIn]
    | fault e => exact ih h n

theorem lexemesIn_text {s : String} (hs : isPlain s = true) (rest : List Fragment) :
    lexemesIn d style n (.text s :: rest) = Lexeme.words s ++ lexemesIn d style n rest := by
  rw [lexemesIn, Mode.run_of_isPlain hs]
  rfl

theorem lexemesIn_append (fs gs : List Fragment) : lexemesIn d style n (fs ++ gs) =
    lexemesIn d style n fs ++ lexemesIn d style (n + (fs.filterMap scalar?).length) gs := by
  induction fs generalizing n with
  | nil => rfl
  | cons f rest ih =>
    cases f with
    | value v =>
      cases v with
      | list vs => exact ih
      | scalar s =>
        have hcount : n + ((value (.scalar s) :: rest).filterMap scalar?).length =
            n + 1 + (rest.filterMap scalar?).length := by
          have hscalars : (value (.scalar s) :: rest).filterMap scalar? =
              s :: rest.filterMap scalar? := rfl
          rw [hscalars, List.length_cons]
          omega
        rw [List.cons_append, lexemesIn, lexemesIn, ih, List.append_assoc, hcount]
    | text s =>
      rw [List.cons_append, lexemesIn, lexemesIn, ih, List.append_assoc, List.filterMap_cons_none rfl]
    | name s =>
      rw [List.cons_append, lexemesIn, lexemesIn, ih, List.cons_append, List.filterMap_cons_none rfl]
    | fault e => rw [List.cons_append, lexemesIn, lexemesIn, ih, List.filterMap_cons_none rfl]

def lexemeParts (d : Dialect) (style : Style) : Nat → List (List Fragment) → List (List Lexeme)
  | _, [] => []
  | n, fs :: rest =>
    lexemesIn d style n fs :: lexemeParts d style (n + (fs.filterMap scalar?).length) rest

theorem lexemesIn_intercalate (parts : List (List Fragment)) :
    lexemesIn d style n ([.text ", "].intercalate parts) =
      Lexeme.listing (lexemeParts d style n parts) := by
  induction parts generalizing n with
  | nil => rfl
  | cons fs rest ih =>
    cases rest with
    | nil => simp [Lexeme.listing, List.intercalate, lexemeParts]
    | cons gs rest =>
      have hcut : [Fragment.text ", "].intercalate (fs :: gs :: rest) =
          fs ++ .text ", " :: [Fragment.text ", "].intercalate (gs :: rest) := by
        simp [List.intercalate]
      rw [hcut, lexemesIn_append, lexemesIn_text (by decide), ih]
      exact (Lexeme.listing_cons_cons _ _ _).symm

theorem lexemeParts_names (names : List String) :
    lexemeParts d style n (names.map fun s => [.name s]) = names.map fun s => [.name s.toList] := by
  induction names generalizing n with
  | nil => rfl
  | cons s rest ih =>
    rw [List.map_cons, lexemeParts, ih]
    rfl

theorem lexemeParts_values (cells : List Scalar) :
    lexemeParts d style n (cells.map fun s => [.value (.scalar s)]) =
      cells.mapIdx fun i s => d.lex (style.spell d (n + i) s) := by
  induction cells generalizing n with
  | nil => rfl
  | cons s rest ih =>
    have hhead : lexemesIn d style n [.value (.scalar s)] = d.lex (style.spell d n s) := List.append_nil _
    have hnext : n + ([Fragment.value (.scalar s)].filterMap scalar?).length = n + 1 := rfl
    rw [List.map_cons, lexemeParts, hhead, hnext, ih, List.mapIdx_cons]
    simp only [Nat.add_zero, Nat.add_assoc, Nat.add_comm 1]

theorem scalars_intercalate (s : String) (parts : List (List Fragment)) :
    ([.text s].intercalate parts).filterMap scalar? = parts.flatMap fun fs => fs.filterMap scalar? := by
  cases parts with
  | nil => rfl
  | cons fs rest =>
    rw [intercalate_cons, List.filterMap_append, List.filterMap_flatMap, List.flatMap_cons]
    rfl

end Fragment

def cellFragments (cells : List Scalar) : List Fragment :=
  .text "(" :: [.text ", "].intercalate (cells.map fun s => [.value (.scalar s)]) ++ [.text ")"]

def headFragments (table : String) (columns : List String) : List Fragment :=
  [.text "insert into ", .name table, .text " ("] ++
    [.text ", "].intercalate (columns.map fun column => [.name column]) ++ [.text ") values "]

def gridFragments (table : String) (columns : List String) (grid : List (List Scalar)) :
    List Fragment :=
  headFragments table columns ++ [.text ", "].intercalate (grid.map cellFragments)

def cellTexts (d : Dialect) (style : Style) : Nat → List (List Scalar) → List (List (List Char))
  | _, [] => []
  | n, cells :: rest =>
    (cells.mapIdx fun i s => style.spell d (n + i) s) :: cellTexts d style (n + cells.length) rest

section Grids

variable {d : Dialect} {style : Style} {n : Nat}

theorem scalars_cells (cells : List Scalar) : (cellFragments cells).filterMap scalar? = cells := by
  have hclose : [Fragment.text ")"].filterMap scalar? = [] := rfl
  rw [cellFragments, List.cons_append, List.filterMap_cons_none rfl, List.filterMap_append, hclose,
    List.append_nil, scalars_intercalate, List.flatMap_map]
  exact List.flatMap_singleton' cells

theorem scalars_head (table : String) (columns : List String) :
    (headFragments table columns).filterMap scalar? = [] := by
  have hfront : [Fragment.text "insert into ", .name table, .text " ("].filterMap scalar? = [] := rfl
  have hvalues : [Fragment.text ") values "].filterMap scalar? = [] := rfl
  rw [headFragments, List.filterMap_append, List.filterMap_append, hfront, hvalues,
    scalars_intercalate, List.flatMap_map, List.append_nil, List.nil_append]
  exact List.flatMap_eq_nil_iff.mpr fun _ _ => rfl

theorem scalars_grid (table : String) (columns : List String) (grid : List (List Scalar)) :
    (gridFragments table columns grid).filterMap scalar? = grid.flatten := by
  rw [gridFragments, List.filterMap_append, scalars_head, List.nil_append, scalars_intercalate,
    List.flatMap_map]
  simp only [scalars_cells]
  exact List.flatMap_id

theorem lexemesIn_cells (cells : List Scalar) : lexemesIn d style n (cellFragments cells) =
    Lexeme.grouped (Lexeme.listing
      (cells.mapIdx fun i s => d.lex (style.spell d (n + i) s))) := by
  rw [cellFragments, List.cons_append, lexemesIn_text (by decide), lexemesIn_append,
    lexemesIn_text (by decide), lexemesIn_intercalate, lexemeParts_values]
  rfl

theorem lexemeParts_cells (grid : List (List Scalar)) :
    lexemeParts d style n (grid.map cellFragments) =
      (cellTexts d style n grid).map fun texts => Lexeme.grouped (Lexeme.listing (texts.map d.lex)) := by
  induction grid generalizing n with
  | nil => rfl
  | cons cells rest ih =>
    have hlex : (cells.mapIdx fun i s => style.spell d (n + i) s).map d.lex =
        cells.mapIdx fun i s => d.lex (style.spell d (n + i) s) :=
      List.ext_getElem (by simp) (by simp)
    rw [List.map_cons, lexemeParts, lexemesIn_cells, scalars_cells, ih, cellTexts, List.map_cons,
      hlex]

theorem length_cellTexts (grid : List (List Scalar)) :
    (cellTexts d style n grid).length = grid.length := by
  induction grid generalizing n with
  | nil => rfl
  | cons cells rest ih => rw [cellTexts, List.length_cons, ih, List.length_cons]

theorem exists_of_mem_cellTexts {grid : List (List Scalar)} {texts : List (List Char)}
    (h : texts ∈ cellTexts d style n grid) :
    ∃ m, ∃ cells ∈ grid, texts = cells.mapIdx fun i s => style.spell d (m + i) s := by
  induction grid generalizing n with
  | nil => cases h
  | cons cells rest ih =>
    obtain rfl | h := List.mem_cons.mp h
    · exact ⟨n, cells, List.mem_cons_self, rfl⟩
    · obtain ⟨m, cells', hcells, htexts⟩ := ih h
      exact ⟨m, cells', List.mem_cons_of_mem cells hcells, htexts⟩

theorem cell_of_mem_cellTexts {grid : List (List Scalar)} (hgrid : ∀ cells ∈ grid, cells ≠ [])
    {texts : List (List Char)} (h : texts ∈ cellTexts d style n grid) :
    texts ≠ [] ∧ ∀ text ∈ texts, d.Cell text := by
  obtain ⟨m, cells, hcells, rfl⟩ := exists_of_mem_cellTexts h
  refine ⟨by simpa using hgrid cells hcells, fun text htext => ?_⟩
  obtain ⟨i, hi, rfl⟩ := List.mem_mapIdx.mp htext
  exact d.cell_spell style _ _

theorem lexemesIn_grid (table : String) (columns : List String) (grid : List (List Scalar)) :
    lexemesIn d style n (gridFragments table columns grid) =
      InsertText.lexemes d table columns (cellTexts d style n grid) := by
  have hfront : lexemesIn d style n [.text "insert into ", .name table, .text " ("] =
      Lexeme.words "insert into " ++ .name table.toList :: Lexeme.words " (" := by
    rw [lexemesIn_text (by decide), lexemesIn, lexemesIn_text (by decide)]
    rfl
  rw [gridFragments, lexemesIn_append, scalars_head, headFragments, lexemesIn_append,
    lexemesIn_append, hfront, lexemesIn_intercalate, lexemesIn_intercalate, lexemeParts_names,
    lexemesIn_text (by decide), List.length_nil, Nat.add_zero, lexemeParts_cells]
  simp [InsertText.lexemes, InsertText.front, InsertText.header, Lexeme.words, Lexeme.grouped, lexemesIn]

theorem insertText?_grid (table : String) {columns : List String} (hcolumns : columns ≠ [])
    {grid : List (List Scalar)} (hne : grid ≠ []) (hgrid : ∀ cells ∈ grid, cells ≠ [])
    (hclean : Clean d (gridFragments table columns grid)) {sql : String}
    (hsql : sql.toList = spell d style 0 (gridFragments table columns grid)) :
    d.insertText? sql =
      some ⟨table, columns, (cellTexts d style 0 grid).map fun texts => texts.map String.ofList⟩ := by
  have htexts : cellTexts d style 0 grid ≠ [] := by
    rwa [← List.length_pos_iff, length_cellTexts, List.length_pos_iff]
  refine Dialect.insertText?_of_lex ?_ hcolumns htexts fun texts h => cell_of_mem_cellTexts hgrid h
  rw [hsql, lex_spell_style hclean, lexemesIn_grid]

end Grids

namespace Row

variable {row first : Row}

def scalars (row : Row) : List Scalar := row.values.filterMap Value.scalar?

theorem eq_map_scalar {vs : List Value} (h : ∀ values, .list values ∉ vs) :
    vs = (vs.filterMap Value.scalar?).map .scalar := by
  induction vs with
  | nil => rfl
  | cons v rest ih =>
    have hrest := ih fun values hmem => h values (List.mem_cons_of_mem v hmem)
    cases v with
    | scalar s => exact congrArg (.scalar s :: ·) hrest
    | list values => exact absurd List.mem_cons_self (h values)

theorem values_eq (h : ¬ row.HoldsList) : row.values = row.scalars.map .scalar :=
  eq_map_scalar fun values hmem => h ⟨values, hmem⟩

theorem length_scalars (h : row.Fits first) : row.scalars.length = first.keys.length := by
  have hvalues := congrArg List.length (values_eq h.2)
  have hkeys := congrArg List.length (keys_eq_keys.mpr h.1)
  rw [List.length_map] at hvalues
  rw [← hvalues, ← hkeys, values, SortedBy.keys, List.length_map, List.length_map]

theorem length_of_mem_scalars {rows : List Row} (h : ∀ row ∈ rows, row.Fits first) :
    ∀ cells ∈ rows.map scalars, cells.length = first.keys.length := by
  intro cells hcells
  obtain ⟨row, hrow, rfl⟩ := List.mem_map.mp hcells
  exact length_scalars (h row hrow)

theorem fragments_of_fits (h : row.Fits first) (i : Nat) :
    row.fragments first.keys i = cellFragments row.scalars := by
  have hcells : (row.toList.map fun cell => [value cell.2]) =
      row.scalars.map fun s => [.value (.scalar s)] := by
    have hvalues := congrArg (List.map fun v => [value v]) (values_eq h.2)
    rw [values, List.map_map, List.map_map] at hvalues
    exact hvalues
  rw [fragments, if_pos (matches_iff.mp h.1), hcells, cellFragments]

theorem lookup_of_mem {cells : List (String × Value)} {column : String} {v : Value}
    (hsorted : (cells.map Prod.fst).Pairwise (· < ·)) (h : (column, v) ∈ cells) :
    cells.lookup column = some v := by
  induction cells with
  | nil => cases h
  | cons cell rest ih =>
    rw [List.map_cons, List.pairwise_cons] at hsorted
    obtain rfl | h := List.mem_cons.mp h
    · simp
    · have hne : column ≠ cell.1 := by
        rintro rfl
        exact String.lt_irrefl _ (hsorted.1 cell.1 (List.mem_map.mpr ⟨_, h, rfl⟩))
      rw [List.lookup_cons, beq_false_of_ne hne]
      exact ih hsorted.2 h

theorem map_lookup (row : Row) : row.keys.map (row.toList.lookup ·) = row.values.map some := by
  rw [SortedBy.keys, values, List.map_map, List.map_map]
  exact List.map_congr_left fun cell hcell => lookup_of_mem row.sorted hcell

def literal? (d : Dialect) (row : Row) (column : String) : Option String :=
  (row.toList.lookup column).bind fun v => (v.literal d).toOption

theorem mapM_literal? (d : Dialect) (h : row.Fits first) : first.keys.mapM (row.literal? d) =
    some (row.scalars.map fun s => String.ofList (d.literal s)) := by
  apply mapM_eq_some
  have hlookup := congrArg (List.map (Option.bind · fun v => (v.literal d).toOption)) (map_lookup row)
  rw [keys_eq_keys.mpr h.1, values_eq h.2, List.map_map, List.map_map, List.map_map] at hlookup
  rw [List.map_map]
  exact hlookup

end Row

section Statements

variable {d : Dialect} {style : Style} {table : String} {first : Row} {rest : List Row}

theorem insertFragments_eq (hkeys : first.keys ≠ []) (h : ∀ row ∈ first :: rest, row.Fits first) :
    insertFragments table first rest =
      gridFragments table first.keys ((first :: rest).map Row.scalars) := by
  have hempty : ¬ first.isEmpty = true := fun hempty => hkeys (Row.isEmpty_iff.mp hempty)
  have hrows : ((first :: rest).mapIdx fun i row => row.fragments first.keys i) =
      ((first :: rest).map Row.scalars).map cellFragments := by
    refine List.ext_getElem (by simp) fun i hi _ => ?_
    rw [List.getElem_mapIdx, List.getElem_map, List.getElem_map]
    exact Row.fragments_of_fits (h _ (List.getElem_mem _)) i
  rw [insertFragments, if_neg hempty, hrows]
  rfl

/-- The text of an insert says what its values are written as, row by row. -/
theorem insertText?_statement {st : Statement}
    (h : insertStatement d style table (first :: rest) = .ok (some st)) :
    d.insertText? st.sql = some ⟨table, first.keys,
      (cellTexts d style 0 ((first :: rest).map Row.scalars)).map fun texts =>
        texts.map String.ofList⟩ := by
  obtain ⟨hkeys, hfits⟩ := insert_succeeds_iff.mp ⟨st, h⟩
  obtain ⟨-, hsql, -⟩ := insertStatement_eq_ok h
  have hclean := (insertFragments_phrase d table first rest).clean
  rw [insertFragments_eq hkeys hfits] at hsql hclean
  refine insertText?_grid table hkeys (List.cons_ne_nil _ _) (fun cells hcells => ?_) hclean hsql
  rw [← List.length_pos_iff, Row.length_of_mem_scalars hfits cells hcells]
  exact List.length_pos_iff.mpr hkeys

theorem cellTexts_inline (n : Nat) (grid : List (List Scalar)) :
    cellTexts d .inline n grid = grid.map fun cells => cells.map d.literal := by
  induction grid generalizing n with
  | nil => rfl
  | cons cells rest ih =>
    have hcells : (cells.mapIdx fun i s => Style.inline.spell d (n + i) s) = cells.map d.literal :=
      List.ext_getElem (by simp) fun i _ _ => by simp [Style.spell]
    rw [cellTexts, ih, hcells, List.map_cons]

end Statements

/-- Inserts with their values in the text are read back: cut at its parentheses and commas, the text
gives the literals of the values row by row, each under its column. A string is one lexeme, and nothing
of what stands behind it gets into it; bytes and whole numbers can be told from their literals. -/
theorem inline_inserts_read_back (d : Dialect) :
    (∀ (table : String) (rows : List Row) (st : Statement),
      insertStatement d .inline table rows = .ok (some st) →
      ∃ text, d.insertText? st.sql = some text ∧ text.table = table ∧
        (∀ row ∈ rows, row.keys = text.columns) ∧
        rows.mapM (fun row => text.columns.mapM (row.literal? d)) = some text.rows) ∧
    (∀ (s : String) (rest : List Char), rest.head? ≠ some '\x27' →
      d.lex (d.literal (.string s) ++ rest) = .string s.toList :: d.lex rest ∧
        Text.unquote? '\x27' (d.literal (.string s) ++ rest) = some (s.toList, rest)) ∧
    (∀ b : List UInt8, d.bytes? (d.literal (.bytes b)) = some b) ∧
    ∀ n : Int64, Text.int? (d.literal (.int n)) = some n.toInt ∧
      Text.int? (d.literal (.timestamp n)) = some n.toInt := by
  refine ⟨fun table rows st h => ?_, fun s rest hrest => ?_, d.bytes?_literal,
    fun n => ⟨Text.int?_int _, Text.int?_int _⟩⟩
  · cases rows with
    | nil => cases h
    | cons first rest =>
      obtain ⟨-, hfits⟩ := insert_succeeds_iff.mp ⟨st, h⟩
      refine ⟨_, insertText?_statement h, rfl,
        fun row hrow => Row.keys_eq_keys.mpr (hfits row hrow).1, ?_⟩
      apply mapM_eq_some
      rw [cellTexts_inline, List.map_map, List.map_map, List.map_map]
      refine List.map_congr_left fun row hrow => ?_
      rw [Row.mapM_literal? d (hfits row hrow)]
      simp
  · exact ⟨Dialect.lex_string hrest s.toList, Text.unquote?_eq_some.mpr ⟨rfl, hrest⟩⟩

namespace Sample

/-- A row whose string looks like the end of one value and the beginning of another one. -/
def note : Row := .ofList [("id", .null), ("body", .string "'), ('")]

def notes : List Row := [.ofList [("id", .int (-3)), ("body", .string "it's, (1)")], note]

end Sample

theorem inline_inserts_read_back_sample :
    (∃ st text, insertStatement .sqlite .inline "notes" Sample.notes = .ok (some st) ∧
      Dialect.sqlite.insertText? st.sql = some text ∧
      text.rows = [["'it''s, (1)'", "-3"], ["'''), ('''", "NULL"]]) ∧
    (", 1".toList.head? ≠ some '\x27' ∧
      Text.unquote? '\x27' (Dialect.sqlite.literal (.string "it's") ++ ", 1".toList) =
        some ("it's".toList, ", 1".toList)) := by
  obtain ⟨hinsert, hstring, -, -⟩ := inline_inserts_read_back .sqlite
  constructor
  · obtain ⟨text, htext, -, hcolumns, hrows⟩ := hinsert "notes" Sample.notes _ rfl
    refine ⟨_, text, rfl, htext, ?_⟩
    rw [← hcolumns _ List.mem_cons_self] at hrows
    exact Option.some.inj (hrows.symm.trans rfl)
  · have hhead : ", 1".toList.head? ≠ some '\x27' := by decide
    exact ⟨hhead, (hstring "it's" _ hhead).2⟩

end EntityQuery
