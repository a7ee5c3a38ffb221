import EntityQuery.Proofs.Compilation
import Mathlib.Data.List.DropRight
import Mathlib.Data.List.Infix

namespace EntityQuery

namespace Text

variable {s before after word : List Char}

theorem trim_eq (s : List Char) : trim s = (s.dropWhile isBlank).rdropWhile isBlank := rfl

theorem isBlank_of_head?_trim {c : Char} (h : (trim s).head? = some c) : isBlank c = false := by
  obtain ⟨back, hback⟩ := List.rdropWhile_prefix isBlank (s.dropWhile isBlank)
  have hnot := List.head?_dropWhile_not isBlank s
  rwa [← hback, ← trim_eq, List.head?_append, h] at hnot

theorem isBlank_of_getLast?_trim {c : Char} (h : (trim s).getLast? = some c) :
    isBlank c = false := by
  have hne : trim s ≠ [] := fun heq => by simp [heq] at h
  obtain rfl := Option.some.inj ((List.getLast?_eq_some_getLast hne).symm.trans h)
  exact eq_false_of_ne_true (List.rdropWhile_last_not isBlank (s.dropWhile isBlank) hne)

theorem trim_of_ends (hfront : ∀ c, s.head? = some c → isBlank c = false)
    (hback : ∀ c, s.getLast? = some c → isBlank c = false) : trim s = s := by
  have hdrop : s.dropWhile isBlank = s := by
    cases s with
    | nil => rfl
    | cons c rest => exact List.dropWhile_cons_of_neg (by simp [hfront c rfl])
  rw [trim_eq, hdrop, List.rdropWhile_eq_self_iff]
  intro hne
  simp [hback _ (List.getLast?_eq_some_getLast hne)]

theorem trim_trim (s : List Char) : trim (trim s) = trim s :=
  trim_of_ends (fun _ => isBlank_of_head?_trim) (fun _ => isBlank_of_getLast?_trim)

theorem length_trim_le (s : List Char) : (trim s).length ≤ s.length :=
  ((List.rdropWhile_prefix isBlank _).length_le).trans (List.dropWhile_suffix isBlank).length_le

theorem trim_between (hbefore : trim before = before) (hne : before ≠ []) (s : List Char)
    (hafter : trim after = after) (hne' : after ≠ []) :
    trim (before ++ s ++ after) = before ++ s ++ after := by
  refine trim_of_ends (fun c hc => ?_) (fun c hc => ?_)
  · rw [List.append_assoc, List.head?_append_of_ne_nil _ hne, ← hbefore] at hc
    exact isBlank_of_head?_trim hc
  · rw [List.getLast?_append_of_ne_nil _ hne', ← hafter] at hc
    exact isBlank_of_getLast?_trim hc

theorem trim_eq_nil : trim s = [] ↔ ∀ c ∈ s, isBlank c = true := by
  have hdrop : (∀ c ∈ s.dropWhile isBlank, isBlank c = true) ↔ s.dropWhile isBlank = [] := by
    rw [← List.dropWhile_eq_nil_iff, List.dropWhile_idempotent]
  rw [trim_eq, List.rdropWhile_eq_nil_iff, hdrop, List.dropWhile_eq_nil_iff]

theorem splitAtChar?_eq_none {c : Char} : splitAtChar? c s = none ↔ c ∉ s := by
  induction s with
  | nil => simp [splitAtChar?]
  | cons a rest ih =>
    by_cases h : a = c
    · simp [splitAtChar?, h]
    · simp [splitAtChar?, h, ih, Ne.symm h]

theorem splitAtChar?_eq_some {c : Char} :
    splitAtChar? c s = some (before, after) ↔ s = before ++ c :: after ∧ c ∉ before := by
  induction s generalizing before with
  | nil => simp [splitAtChar?]
  | cons a rest ih =>
    by_cases h : a = c
    · subst h
      cases before <;> simp [splitAtChar?]
      grind
    · cases before with
      | nil => simp [splitAtChar?, h]
      | cons b before => simp [splitAtChar?, h, ih]; grind

theorem dropEnd?_eq_some : dropEnd? word s = some before ↔ s = before ++ word := by
  unfold dropEnd?
  constructor
  · intro h
    split at h
    · next hdrop =>
      cases h
      conv_lhs => rw [← List.take_append_drop (s.length - word.length) s, hdrop]
    · cases h
  · rintro rfl
    simp

theorem dropEnd?_eq_none : dropEnd? word s = none ↔ ¬ word <:+ s := by
  rw [← not_iff_not, ← ne_eq, Option.ne_none_iff_exists', not_not]
  simp only [dropEnd?_eq_some]
  exact ⟨fun ⟨t, h⟩ => ⟨t, h.symm⟩, fun ⟨t, h⟩ => ⟨t, h.symm⟩⟩

theorem length_lower (s : List Char) : (lower s).length = s.length := List.length_map _

theorem lower_cons (c : Char) (s : List Char) : lower (c :: s) = c.toLower :: lower s := rfl

theorem lower_append (s t : List Char) : lower (s ++ t) = lower s ++ lower t := List.map_append

theorem lower_take_eq_iff : lower (s.take word.length) = word ↔ word <+: lower s := by
  rw [lower, List.map_take, ← lower, List.prefix_iff_eq_take, eq_comm]

theorem splitAtWord?_cons_of_front {a : Char} {rest : List Char} (h : word <+: lower (a :: rest)) :
    splitAtWord? word (a :: rest) = some ([], (a :: rest).drop word.length) := by
  rw [splitAtWord?, if_pos (lower_take_eq_iff.mpr h)]

theorem splitAtWord?_cons_of_not_front {a : Char} {rest : List Char}
    (h : ¬ word <+: lower (a :: rest)) :
    splitAtWord? word (a :: rest) = (splitAtWord? word rest).map fun p => (a :: p.1, p.2) := by
  rw [splitAtWord?, if_neg (fun heq => h (lower_take_eq_iff.mp heq))]

theorem splitAtWord?_eq_none (hword : word ≠ []) :
    splitAtWord? word s = none ↔ ¬ word <:+: lower s := by
  induction s with
  | nil => simpa [splitAtWord?, lower] using hword
  | cons a rest ih =>
    by_cases hfront : word <+: lower (a :: rest)
    · rw [splitAtWord?_cons_of_front hfront]
      exact iff_of_false nofun fun h => h hfront.isInfix
    · rw [splitAtWord?_cons_of_not_front hfront, Option.map_eq_none_iff, ih, lower_cons,
        List.infix_cons_iff, ← lower_cons, or_iff_right hfront]

theorem append_dropLast_prefix (before found after : List Char) :
    before ++ found.dropLast <+: before ++ found ++ after := by
  rw [List.append_assoc]
  exact (List.prefix_append_right_inj _).mpr
    ((List.dropLast_prefix found).trans (List.prefix_append _ _))

theorem splitAtWord?_eq_some (hword : word ≠ []) :
    splitAtWord? word s = some (before, after) ↔
      ∃ found, lower found = word ∧ s = before ++ found ++ after ∧
        ¬ word <:+: lower (before ++ found.dropLast) := by
  induction s generalizing before with
  | nil =>
    refine iff_of_false nofun ?_
    rintro ⟨found, rfl, hs, -⟩
    simp_all [lower]
  | cons a rest ih =>
    by_cases hfront : word <+: lower (a :: rest)
    · rw [splitAtWord?_cons_of_front hfront]
      constructor
      · intro h
        cases h
        refine ⟨(a :: rest).take word.length, lower_take_eq_iff.mpr hfront, by simp, fun hin => ?_⟩
        have hlength := hin.length_le
        have hpos := List.length_pos_iff.mpr hword
        simp only [length_lower, List.nil_append, List.length_dropLast, List.length_take] at hlength
        omega
      · rintro ⟨found, rfl, hs, hfirst⟩
        cases before with
        | nil => simp [hs, length_lower]
        | cons b before =>
          -- The word stands at the front, in what has to be free of it.
          have hpos : 0 < found.length := by rw [← length_lower]; exact List.length_pos_iff.mpr hword
          refine absurd (List.IsPrefix.isInfix ?_) hfirst
          refine List.prefix_of_prefix_length_le hfront (List.IsPrefix.map _ ?_) ?_
          · exact hs ▸ append_dropLast_prefix (b :: before) found after
          · simp only [length_lower, List.length_append, List.length_cons, List.length_dropLast]
            omega
    · rw [splitAtWord?_cons_of_not_front hfront, Option.map_eq_some_iff]
      constructor
      · rintro ⟨⟨before', after'⟩, hrest, heq⟩
        cases heq
        obtain ⟨found, hfound, rfl, hfirst⟩ := ih.mp hrest
        refine ⟨found, hfound, rfl, fun hin => ?_⟩
        rw [List.cons_append, lower_cons, List.infix_cons_iff, ← lower_cons] at hin
        refine hin.elim (fun hstart => hfront (hstart.trans (List.IsPrefix.map _ ?_))) hfirst
        exact append_dropLast_prefix (a :: before') found after'
      · rintro ⟨found, hfound, hs, hfirst⟩
        cases before with
        | nil =>
          refine absurd ?_ hfront
          rw [hs, List.nil_append, lower_append, hfound]
          exact List.prefix_append _ _
        | cons b before =>
          obtain ⟨rfl, hrest⟩ := List.cons_eq_cons.mp hs
          exact ⟨(before, after), ih.mpr ⟨found, hfound, hrest, fun hin => hfirst (List.infix_cons hin)⟩,
            rfl⟩

theorem eq_blank_of_toLower {c : Char} (h : c.toLower = ' ') : c = ' ' := by
  unfold Char.toLower at h
  split at h
  · next hcapital =>
    have hcode := congrArg (fun c : Char => c.val.toNat) h
    simp [UInt32.toNat_add, UInt32.le_iff_toNat_le] at hcode hcapital
    omega
  · exact h

theorem lower_eq_as (h : lower s = [' ', 'a', 's', ' ']) :
    ∃ x y, s = [' ', x, y, ' '] ∧ x.toLower = 'a' ∧ y.toLower = 's' := by
  simp only [lower, List.map_eq_cons_iff, List.map_eq_nil_iff] at h
  obtain ⟨a, _, rfl, ha, x, _, rfl, hx, y, _, rfl, hy, b, _, rfl, hb, rfl⟩ := h
  rw [eq_blank_of_toLower ha, eq_blank_of_toLower hb]
  exact ⟨x, y, rfl, hx, hy⟩

theorem trim_ne_nil_of_split (h : splitAtWord? [' ', 'a', 's', ' '] (trim s) = some (before, after)) :
    trim after ≠ [] := by
  obtain ⟨found, hfound, hs, -⟩ := (splitAtWord?_eq_some (by simp)).mp h
  obtain ⟨x, y, rfl, -, -⟩ := lower_eq_as hfound
  intro hnil
  have hblank : ∀ c ∈ ' ' :: after, isBlank c = true := by
    simpa using ⟨by decide, trim_eq_nil.mp hnil⟩
  have hlast : (trim s).getLast? = some ((' ' :: after).getLast (by simp)) := by
    rw [hs]
    simp [List.getLast?_eq_some_getLast]
  have hend := isBlank_of_getLast?_trim hlast
  rw [hblank _ (List.getLast_mem _)] at hend
  cases hend

theorem suffix_of_blank (h : ['.', '*'] <:+ s ++ ' ' :: after) (hne : after ≠ []) :
    ['.', '*'] <:+ after := by
  match after, hne with
  | [c], _ =>
    have hend := (@List.suffix_append_inj_of_length_eq _ [] s ['.', '*'] [' ', c] rfl).mp h
    simp at hend
  | c :: c' :: rest, _ =>
    refine List.suffix_of_suffix_length_le h ?_ (by simp)
    exact (List.suffix_cons _ _).trans (List.suffix_append _ _)

theorem infix_concat_as {l : List Char} :
    [' ', 'a', 's', ' '] <:+: l ++ [' ', 'a', 's'] ↔
      [' ', 'a', 's', ' '] <:+: l ∨ [' ', 'a', 's'] <:+ l := by
  have hl : l ++ [' ', 'a', 's'] = l ++ [' '] ++ ['a'] ++ ['s'] := by simp
  have hend (c : Char) (k : List Char) :
      [' ', 'a', 's', ' '] <:+ k ++ [c] ↔ c = ' ' ∧ [' ', 'a', 's'] <:+ k := by
    have h := @List.suffix_append_inj_of_length_eq _ [' ', 'a', 's'] k [' '] [c] rfl
    simpa [and_comm, eq_comm] using h
  rw [hl, List.infix_concat_iff, List.infix_concat_iff, List.infix_concat_iff, hend, hend, hend]
  simp [or_comm]

end Text

namespace Column

variable {text : String} {c : Column}

/-- A column that a text can name: no name is empty, and the point that the text is cut at is the one
between the names. -/
def Nameable : Column → Prop
  | ⟨none, name⟩ => name ≠ "" ∧ '.' ∉ name.toList
  | ⟨some table, name⟩ => table ≠ "" ∧ '.' ∉ table.toList ∧ name ≠ ""

/-- A word that names no column: nothing is in it, or nothing on one side of its first point. -/
def Malformed (word : List Char) : Prop :=
  word = [] ∨ ∃ table name, word = table ++ '.' :: name ∧ '.' ∉ table ∧ (table = [] ∨ name = [])

theorem toList_text_qualified (table name : String) :
    (qualified table name).text.toList = table.toList ++ '.' :: name.toList := by
  simp [qualified, text]

theorem toList_text_bare (name : String) : (bare name).text.toList = name.toList := rfl

theorem parse_of_point {table name : List Char} (hword : Text.trim text.toList = table ++ '.' :: name)
    (hpoint : '.' ∉ table) :
    parse text =
      if table = [] ∨ name = [] then .error (.invalidColumn (String.ofList (Text.trim text.toList)))
      else .ok (qualified (String.ofList table) (String.ofList name)) := by
  have hsplit := Text.splitAtChar?_eq_some.mpr ⟨hword, hpoint⟩
  simp [parse, hsplit]

theorem parse_of_no_point (hpoint : '.' ∉ Text.trim text.toList) :
    parse text =
      if Text.trim text.toList = [] then
        .error (.invalidColumn (String.ofList (Text.trim text.toList)))
      else .ok (bare (String.ofList (Text.trim text.toList))) := by
  have hsplit := Text.splitAtChar?_eq_none.mpr hpoint
  simp [parse, hsplit]

theorem parse_eq_ok : parse text = .ok c ↔ c.Nameable ∧ c.text.toList = Text.trim text.toList := by
  constructor
  · intro h
    cases hsplit : Text.splitAtChar? '.' (Text.trim text.toList) with
    | none =>
      have hpoint := Text.splitAtChar?_eq_none.mp hsplit
      rw [parse_of_no_point hpoint] at h
      split at h
      · cases h
      · next hword =>
        cases h
        exact ⟨⟨by simpa using hword, by simpa using hpoint⟩, by simp [toList_text_bare]⟩
    | some parts =>
      obtain ⟨table, name⟩ := parts
      obtain ⟨hword, hpoint⟩ := Text.splitAtChar?_eq_some.mp hsplit
      rw [parse_of_point hword hpoint] at h
      split at h
      · cases h
      · next hparts =>
        cases h
        obtain ⟨htable, hname⟩ := not_or.mp hparts
        exact ⟨⟨by simpa using htable, by simpa using hpoint, by simpa using hname⟩,
          by simp [toList_text_qualified, hword]⟩
  · rintro ⟨hc, hword⟩
    obtain ⟨_ | table, name⟩ := c
    · obtain ⟨hname, hpoint⟩ := hc
      rw [← bare, toList_text_bare] at hword
      rw [parse_of_no_point (hword ▸ hpoint), ← hword, if_neg (by simpa using hname),
        String.ofList_toList, bare]
    · obtain ⟨htable, hpoint, hname⟩ := hc
      rw [← qualified, toList_text_qualified] at hword
      rw [parse_of_point hword.symm hpoint, if_neg (by simp [htable, hname]),
        String.ofList_toList, String.ofList_toList, qualified]

theorem parse_eq_error : (∃ e, parse text = .error e) ↔ Malformed (Text.trim text.toList) := by
  cases hsplit : Text.splitAtChar? '.' (Text.trim text.toList) with
  | none =>
    have hpoint := Text.splitAtChar?_eq_none.mp hsplit
    have hmalformed : Malformed (Text.trim text.toList) ↔ Text.trim text.toList = [] := by
      refine or_iff_left ?_
      rintro ⟨table, name, hword, -⟩
      simp [hword] at hpoint
    rw [parse_of_no_point hpoint, hmalformed]
    split <;> simp_all
  | some parts =>
    obtain ⟨table, name⟩ := parts
    obtain ⟨hword, hpoint⟩ := Text.splitAtChar?_eq_some.mp hsplit
    have hmalformed : Malformed (Text.trim text.toList) ↔ table = [] ∨ name = [] := by
      constructor
      · rintro (hnil | ⟨table', name', hword', hpoint', hparts⟩)
        · simp [hword] at hnil
        · -- The first point is one place only.
          have hsame := Text.splitAtChar?_eq_some.mpr ⟨hword', hpoint'⟩
          rw [hsplit] at hsame
          cases hsame
          exact hparts
      · exact fun hparts => .inr ⟨table, name, hword, hpoint, hparts⟩
    rw [parse_of_point hword hpoint, hmalformed]
    split <;> simp_all

theorem parse_text (h : parse text = .ok c) : parse c.text = .ok c := by
  obtain ⟨hc, hword⟩ := parse_eq_ok.mp h
  exact parse_eq_ok.mpr ⟨hc, by rw [hword, Text.trim_trim]⟩

theorem trim_text (h : parse c.text = .ok c) : Text.trim c.text.toList = c.text.toList :=
  (parse_eq_ok.mp h).2.symm

theorem text_ne_nil (h : parse c.text = .ok c) : c.text.toList ≠ [] := by
  intro hnil
  obtain ⟨e, he⟩ := parse_eq_error.mpr (.inl ((trim_text h).trans hnil))
  rw [h] at he
  cases he

end Column

namespace SelectItem

variable {text : String} {c : Column}

theorem parse_ne_column {label : Option String}
    (h : Text.trim text.toList = ['*'] ∨ ['.', '*'] <:+ Text.trim text.toList) :
    parse text ≠ .ok (.column c label) := by
  intro hparse
  unfold parse at hparse
  dsimp only at hparse
  split at hparse
  · cases hparse
  · next hall =>
    obtain ⟨table, htable⟩ := h.resolve_left hall
    rw [Text.dropEnd?_eq_some.mpr htable.symm] at hparse
    dsimp only at hparse
    split at hparse <;> cases hparse

theorem parse_of_column (hall : Text.trim text.toList ≠ ['*'])
    (hend : ¬ ['.', '*'] <:+ Text.trim text.toList) :
    parse text =
      match Text.splitAtWord? [' ', 'a', 's', ' '] (Text.trim text.toList) with
      | some (before, after) =>
        (.column · (some (String.ofList (Text.trim after)))) <$> Column.parse (String.ofList before)
      | none => (.column · none) <$> Column.parse (String.ofList (Text.trim text.toList)) := by
  unfold parse
  rw [if_neg hall, Text.dropEnd?_eq_none.mpr hend]
  cases hsplit : Text.splitAtWord? [' ', 'a', 's', ' '] (Text.trim text.toList) with
  | none => cases Column.parse (String.ofList (Text.trim text.toList)) <;> rfl
  | some parts =>
    obtain ⟨before, after⟩ := parts
    have hlabel : (Text.trim after).isEmpty = false := by
      simpa using Text.trim_ne_nil_of_split hsplit
    simp only [hlabel]
    cases Column.parse (String.ofList before) <;> rfl

theorem parse_eq_column : parse text = .ok (.column c none) ↔
    Text.trim text.toList ≠ ['*'] ∧ ¬ ['.', '*'] <:+ Text.trim text.toList ∧
      ¬ [' ', 'a', 's', ' '] <:+: Text.lower (Text.trim text.toList) ∧
      Column.parse (String.ofList (Text.trim text.toList)) = .ok c := by
  by_cases hcolumn : Text.trim text.toList = ['*'] ∨ ['.', '*'] <:+ Text.trim text.toList
  · exact iff_of_false (parse_ne_column hcolumn) fun ⟨hall, hend, _⟩ => hcolumn.elim hall hend
  · obtain ⟨hall, hend⟩ := not_or.mp hcolumn
    rw [parse_of_column hall hend, ← Text.splitAtWord?_eq_none (by simp)]
    generalize Text.splitAtWord? [' ', 'a', 's', ' '] (Text.trim text.toList) = split
    cases split with
    | some parts => simp [map_eq_ok]
    | none => simp [map_eq_ok, hall, hend]

theorem parse_eq_labelled {label : String} : parse text = .ok (.column c (some label)) ↔
    Text.trim text.toList ≠ ['*'] ∧ ¬ ['.', '*'] <:+ Text.trim text.toList ∧ ∃ before after,
      Text.splitAtWord? [' ', 'a', 's', ' '] (Text.trim text.toList) = some (before, after) ∧
        Column.parse (String.ofList before) = .ok c ∧ label.toList = Text.trim after := by
  by_cases hcolumn : Text.trim text.toList = ['*'] ∨ ['.', '*'] <:+ Text.trim text.toList
  · exact iff_of_false (parse_ne_column hcolumn) fun ⟨hall, hend, _⟩ => hcolumn.elim hall hend
  · obtain ⟨hall, hend⟩ := not_or.mp hcolumn
    rw [parse_of_column hall hend]
    generalize Text.splitAtWord? [' ', 'a', 's', ' '] (Text.trim text.toList) = split
    cases split with
    | some parts =>
      obtain ⟨before, after⟩ := parts
      have hlabel : String.ofList (Text.trim after) = label ↔ label.toList = Text.trim after := by
        rw [← String.toList_inj, String.toList_ofList, eq_comm]
      simp [map_eq_ok, hall, hend, hlabel]
    | none => simp [map_eq_ok]

theorem parse_text (hc : Column.parse c.text = .ok c) :
    parse c.text = .ok (.column c none) ↔
      c.text ≠ "*" ∧ ¬ ['.', '*'] <:+ c.text.toList ∧
        ¬ [' ', 'a', 's', ' '] <:+: Text.lower c.text.toList := by
  have hall : c.text.toList = ['*'] ↔ c.text = "*" := by rw [← String.toList_inj]; rfl
  rw [parse_eq_column, Column.trim_text hc, String.ofList_toList, ne_eq, hall]
  simp [hc]

theorem parse_text_label (hc : Column.parse c.text = .ok c) {word label : String}
    (hword : Text.lower word.toList = [' ', 'a', 's', ' ']) :
    parse (c.text ++ word ++ label) = .ok (.column c (some label)) ↔
      ¬ [' ', 'a', 's', ' '] <:+: Text.lower c.text.toList ∧
        ¬ [' ', 'a', 's'] <:+ Text.lower c.text.toList ∧
        label ≠ "" ∧ Text.trim label.toList = label.toList ∧ ¬ ['.', '*'] <:+ label.toList := by
  obtain ⟨x, y, hfound, hx, hy⟩ := Text.lower_eq_as hword
  have hfront : Text.lower (c.text.toList ++ word.toList.dropLast) =
      Text.lower c.text.toList ++ [' ', 'a', 's'] := by
    simp [hfound, Text.lower, hx, hy]
  rw [parse_eq_labelled, String.toList_append, String.toList_append]
  constructor
  · rintro ⟨-, hend, before, after, hsplit, hcolumn, hlabel⟩
    have htrim : Text.trim label.toList = label.toList := by rw [hlabel, Text.trim_trim]
    have hne : label.toList ≠ [] := hlabel ▸ Text.trim_ne_nil_of_split hsplit
    rw [Text.trim_between (Column.trim_text hc) (Column.text_ne_nil hc) _ htrim hne] at hend hsplit
    obtain ⟨found, hfound', hs, hfirst⟩ := (Text.splitAtWord?_eq_some (by simp)).mp hsplit
    -- The column is no longer than what stands in front of the word, so the word cannot stand in it.
    have hstart : c.text.toList ++ word.toList.dropLast <+: before ++ found.dropLast := by
      refine List.prefix_of_prefix_length_le (Text.append_dropLast_prefix _ _ label.toList)
        (hs ▸ Text.append_dropLast_prefix before found after) ?_
      have hle := Text.length_trim_le before
      have hword' := congrArg List.length hword
      have hfound'' := congrArg List.length hfound'
      rw [← String.toList_ofList (l := before), ← (Column.parse_eq_ok.mp hcolumn).2] at hle
      simp [Text.length_lower] at hle hword' hfound'' ⊢
      omega
    have hnot : ¬ [' ', 'a', 's', ' '] <:+: Text.lower (c.text.toList ++ word.toList.dropLast) :=
      fun hin => hfirst (List.IsInfix.trans hin (List.IsPrefix.map _ hstart).isInfix)
    rw [hfront, Text.infix_concat_as, not_or] at hnot
    refine ⟨hnot.1, hnot.2, by simpa using hne, htrim, fun hsuffix => hend ?_⟩
    exact hsuffix.trans (List.suffix_append _ _)
  · rintro ⟨hin, hsuffix, hne, htrim, hend⟩
    have hne' : label.toList ≠ [] := by simpa using hne
    rw [Text.trim_between (Column.trim_text hc) (Column.text_ne_nil hc) _ htrim hne']
    refine ⟨?_, ?_, c.text.toList, label.toList, ?_, ?_, htrim.symm⟩
    · intro hall
      have hlength := congrArg List.length hall
      simp [hfound] at hlength
      omega
    · rw [hfound, List.append_assoc]
      exact fun hsuffix => hend (Text.suffix_of_blank (s := c.text.toList ++ [' ', x, y])
        (by simpa using hsuffix) hne')
    · refine (Text.splitAtWord?_eq_some (by simp)).mpr ⟨word.toList, hword, rfl, ?_⟩
      rw [hfront, Text.infix_concat_as]
      exact not_or.mpr ⟨hin, hsuffix⟩
    · rwa [String.ofList_toList]

end SelectItem

/-- Columns and texts. A column is read from a text unless the text is malformed, and is written again
as that text without the blanks around it. In a select list its text stands for it, alone or with a label
behind it, under just the conditions that no other entry has that text and that nothing in it could be the
word before a label; that word always has a label behind it. -/
theorem column_texts_read_back (text : String) :
    ((∃ e, Column.parse text = .error e) ↔ Column.Malformed (Text.trim text.toList)) ∧
    (∀ c, Column.parse text = .ok c →
      c.text.toList = Text.trim text.toList ∧ Column.parse c.text = .ok c ∧
      (SelectItem.parse c.text = .ok (.column c none) ↔
        c.text ≠ "*" ∧ ¬ ['.', '*'] <:+ c.text.toList ∧
          ¬ [' ', 'a', 's', ' '] <:+: Text.lower c.text.toList) ∧
      ∀ word label : String, Text.lower word.toList = [' ', 'a', 's', ' '] →
        (SelectItem.parse (c.text ++ word ++ label) = .ok (.column c (some label)) ↔
          ¬ [' ', 'a', 's', ' '] <:+: Text.lower c.text.toList ∧
            ¬ [' ', 'a', 's'] <:+ Text.lower c.text.toList ∧
            label ≠ "" ∧ Text.trim label.toList = label.toList ∧ ¬ ['.', '*'] <:+ label.toList)) ∧
    ∀ before after,
      Text.splitAtWord? [' ', 'a', 's', ' '] (Text.trim text.toList) = some (before, after) →
        Text.trim after ≠ [] := by
  refine ⟨Column.parse_eq_error, fun c h => ?_, fun before after h => Text.trim_ne_nil_of_split h⟩
  have hc := Column.parse_text h
  exact ⟨(Column.parse_eq_ok.mp h).2, hc, SelectItem.parse_text hc,
    fun word label hword => SelectItem.parse_text_label hc hword⟩

/-- The end of this column's text is the beginning of the word before a label, and the label is its
middle. -/
theorem column_texts_read_back_sample :
    Column.parse " p.x a " = .ok (.qualified "p" "x a") ∧
      Text.lower " As ".toList = [' ', 'a', 's', ' '] ∧
      SelectItem.parse ((Column.qualified "p" "x a").text ++ " As " ++ "as") =
        .ok (.column (.qualified "p" "x a") (some "as")) := by
  have hparse : Column.parse " p.x a " = .ok (.qualified "p" "x a") := rfl
  have hword : Text.lower " As ".toList = [' ', 'a', 's', ' '] := by decide
  obtain ⟨-, -, -, hlabel⟩ := (column_texts_read_back " p.x a ").2.1 _ hparse
  exact ⟨hparse, hword, (hlabel " As " "as" hword).mpr (by decide)⟩

end EntityQuery
