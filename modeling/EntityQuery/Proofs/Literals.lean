import EntityQuery.Proofs.QuotedNames
import EntityQuery.Proofs.UnionTexts

namespace EntityQuery

namespace Text

def nat? (s : List Char) : Option Nat :=
  if s ≠ [] ∧ s.all Char.isDigit then some (Nat.ofDigitChars 10 s 0) else none

def int? : List Char → Option Int
  | '-' :: s => (nat? s).map fun n : Nat => -(n : Int)
  | s => (nat? s).map fun n : Nat => (n : Int)

def hexDigit? (c : Char) : Option Nat := (List.range 16).find? fun n => Nat.digitChar n = c

def bytes? : List Char → Option (List UInt8)
  | [] => some []
  | [_] => none
  | a :: b :: rest => do
    let high ← hexDigit? a
    let low ← hexDigit? b
    let bytes ← bytes? rest
    some (UInt8.ofNat (16 * high + low) :: bytes)

theorem nat?_nat (n : Nat) : nat? (nat n) = some n := by
  have hdigits : (nat n).all Char.isDigit = true :=
    List.all_eq_true.mpr fun _ hc => Dialect.isDigit_nat hc
  rw [nat?, if_pos ⟨Nat.toDigits_ne_nil, hdigits⟩, nat, Nat.ofDigitChars_ten_toDigits]

theorem int?_int (n : Int) : int? (int n) = some n := by
  unfold int
  split
  · next h =>
    have hneg : -(n.natAbs : Int) = n := by omega
    rw [int?, nat?_nat, Option.map_some, hneg]
  · next h =>
    have hhead : ∀ s, nat n.natAbs ≠ '-' :: s := by
      intro s hs
      have hc : '-' ∈ nat n.natAbs := by rw [hs]; exact List.mem_cons_self
      exact absurd (Dialect.isDigit_nat hc) (by decide)
    unfold int?
    split
    · next s hs => exact absurd hs (hhead s)
    · have hpos : (n.natAbs : Int) = n := by omega
      rw [nat?_nat, Option.map_some, hpos]

theorem hexDigit?_digitChar {n : Nat} (h : n < 16) : hexDigit? (Nat.digitChar n) = some n := by
  have hall : ∀ n ∈ List.range 16, hexDigit? (Nat.digitChar n) = some n := by decide
  exact hall n (List.mem_range.mpr h)

theorem bytes?_hex (b : List UInt8) : bytes? (hex b) = some b := by
  induction b with
  | nil => rfl
  | cons x b ih =>
    have hx : x.toNat < 256 := x.toNat_lt
    have hdigits : hex (x :: b) =
        Nat.digitChar (x.toNat / 16) :: Nat.digitChar (x.toNat % 16) :: hex b := rfl
    have hbyte : UInt8.ofNat (16 * (x.toNat / 16) + x.toNat % 16) = x := by
      rw [Nat.div_add_mod, UInt8.ofNat_toNat]
    rw [hdigits, bytes?, hexDigit?_digitChar (by omega), hexDigit?_digitChar (by omega), ih]
    exact congrArg some (congrArg (· :: b) hbyte)

/-- Characters that stand for themselves in a statement: none of those that quotes, placeholders and
lists are made of. -/
def isWord (c : Char) : Bool := c.isAlphanum || c == '-' || c == '.' || c == ':'

theorem quoted_of_notMem {mark : Char} {s : List Char} (h : mark ∉ s) :
    quoted mark s = mark :: s ++ [mark] := by
  have hs : s.flatMap (fun c => if c = mark then [c, c] else [c]) = s := by
    have hone : ∀ c ∈ s, (if c = mark then [c, c] else [c]) = [c] := fun c hc =>
      if_neg (ne_of_mem_of_not_mem hc h)
    rw [List.flatMap_congr hone, List.flatMap_singleton']
  rw [quoted, hs]

theorem isWord_of_isDigit {c : Char} (h : c.isDigit = true) : isWord c = true := by
  simp [isWord, Char.isAlphanum, h]

theorem isWord_int {n : Int} {c : Char} (h : c ∈ int n) : isWord c = true := by
  unfold int at h
  split at h
  · obtain rfl | h := List.mem_cons.mp h
    · rfl
    · exact isWord_of_isDigit (Dialect.isDigit_nat h)
  · exact isWord_of_isDigit (Dialect.isDigit_nat h)

theorem isWord_hex {b : List UInt8} {c : Char} (h : c ∈ hex b) : isWord c = true := by
  have hdigits : ∀ n ∈ List.range 16, isWord (Nat.digitChar n) = true := by decide
  obtain ⟨x, -, hc⟩ := List.mem_flatMap.mp h
  have hx : x.toNat < 256 := x.toNat_lt
  simp only [List.mem_cons, List.not_mem_nil, or_false] at hc
  obtain rfl | rfl := hc
  · exact hdigits _ (List.mem_range.mpr (by omega))
  · exact hdigits _ (List.mem_range.mpr (by omega))

end Text

namespace Decimal

variable {whole fraction digits : List Char}

theorem Numeral.isWord_text (hwhole : ∀ c ∈ whole, Text.isWord c = true)
    (hfraction : ∀ c ∈ fraction, Text.isWord c = true) :
    ∀ c ∈ (Numeral.mk whole fraction none).text, Text.isWord c = true := by
  intro c hc
  simp only [text, List.append_nil, List.mem_append] at hc
  obtain hc | hc := hc
  · exact hwhole c hc
  · split at hc
    · cases hc
    · obtain rfl | hc := List.mem_cons.mp hc
      · rfl
      · exact hfraction c hc

theorem Layout.isWord_place (layout : Layout) (h : ∀ c ∈ digits, Text.isWord c = true) (point : Int) :
    ∀ c ∈ (layout.place digits point).text, Text.isWord c = true := by
  have hzeros (n : Nat) : ∀ c ∈ List.replicate n '0', Text.isWord c = true := by
    intro c hc
    rw [List.eq_of_mem_replicate hc]
    rfl
  unfold place
  split
  · refine Numeral.isWord_text (List.forall_mem_append.mpr ⟨h, hzeros _⟩) ?_
    cases layout.pointZero
    · exact List.forall_mem_nil _
    · exact List.forall_mem_singleton.mpr rfl
  · split
    · exact Numeral.isWord_text (fun c hc => h c (List.mem_of_mem_take hc))
        fun c hc => h c (List.mem_of_mem_drop hc)
    · exact Numeral.isWord_text (List.forall_mem_singleton.mpr rfl)
        (List.forall_mem_append.mpr ⟨hzeros _, h⟩)

end Decimal

theorem Dialect.isWord_numeral (x : Double) :
    ∀ c ∈ (Dialect.numbers.numeral x).text, Text.isWord c = true := by
  have hdigits (n : Nat) : ∀ c ∈ Text.nat n, Text.isWord c = true := fun c hc =>
    Text.isWord_of_isDigit (isDigit_nat hc)
  unfold Decimal.Layout.numeral
  split
  · exact Decimal.Layout.isWord_place _ (List.forall_mem_singleton.mpr rfl) 1
  · simp only [numbers, if_true]
    exact Decimal.Layout.isWord_place _ (hdigits _) _

theorem Double.isWord_literal (x : Double) : ∀ c ∈ x.literal, Text.isWord c = true := by
  have hnames : ['N', 'a', 'N'].all Text.isWord = true ∧ ['i', 'n', 'f'].all Text.isWord = true := by
    decide
  have hmagnitude : ∀ c ∈ (if x.isFinite then (Dialect.numbers.numeral x).text else ['i', 'n', 'f']),
      Text.isWord c = true := by
    split
    · exact Dialect.isWord_numeral x
    · exact List.all_eq_true.mp hnames.2
  unfold literal
  split
  · exact List.all_eq_true.mp hnames.1
  · dsimp only
    generalize (if x.isFinite then (Dialect.numbers.numeral x).text else ['i', 'n', 'f']) = magnitude
      at hmagnitude
    split
    · exact List.forall_mem_cons.mpr ⟨rfl, hmagnitude⟩
    · exact hmagnitude

theorem Mode.run_marked {d : Dialect} {m : Mode} (h : m.Marked d) (cs : List Char) :
    (m.run d cs).2.Marked d := by
  induction cs generalizing m with
  | nil => exact h
  | cons c rest ih => exact ih (step_text h c).1

namespace Lexeme

def delimiters : List Lexeme := [.other '(', .other ')', .other ',', .other ' ', .unclosed]

theorem notMem_delimiters {cs : List Char} (h : ∀ c ∈ cs, Text.isWord c = true) :
    ∀ l ∈ cs.map other, l ∉ delimiters := by
  intro l hl
  obtain ⟨c, hc, rfl⟩ := List.mem_map.mp hl
  have hword := h c hc
  simp only [delimiters, List.mem_cons, other.injEq, reduceCtorEq, List.not_mem_nil, or_false]
  rintro (rfl | rfl | rfl | rfl) <;> exact absurd hword (by decide)

end Lexeme

namespace Dialect

variable {d : Dialect}

theorem lex_words {cs : List Char} (h : ∀ c ∈ cs, Text.isWord c = true) (rest : List Char) :
    d.lex (cs ++ rest) = cs.map .other ++ d.lex rest := by
  have hplain : isPlain (String.ofList cs) = true := by
    unfold isPlain
    rw [String.toList_ofList, List.all_eq_true]
    intro c hc
    have hword := h c hc
    simp only [Bool.and_eq_true, bne_iff_ne]
    refine ⟨⟨⟨⟨?_, ?_⟩, ?_⟩, ?_⟩, ?_⟩ <;> (rintro rfl; exact absurd hword (by decide))
  have hrun := Mode.run_of_isPlain hplain d
  rw [String.toList_ofList] at hrun
  unfold lex
  rw [Mode.read_append, hrun]

theorem lex_string {rest : List Char} (h : rest.head? ≠ some '\x27') (s : List Char) :
    d.lex (Text.quoted '\x27' s ++ rest) = .string s :: d.lex rest := by
  have hhead : ∀ c ∈ rest.head?, c ≠ '\x27' := by
    rintro c hc rfl
    exact h hc
  unfold lex Text.quoted
  simp only [List.cons_append, List.append_assoc, List.nil_append, Mode.read_cons, Mode.step,
    Mode.start, or_true, if_true]
  rw [Mode.read_inside, List.nil_append, Mode.read_closing hhead]
  rfl

theorem flatMap_text_lex {cs : List Char} (h : .unclosed ∉ d.lex cs) :
    (d.lex cs).flatMap (Lexeme.text d) = cs := by
  have hmarked : (Mode.plain.run d cs).2.Marked d := Mode.run_marked (m := .plain) trivial cs
  have htext := Mode.run_text (d := d) (m := .plain) trivial cs
  have hfinish : (Mode.plain.run d cs).2.finish.flatMap (Lexeme.text d) =
      (Mode.plain.run d cs).2.pending := by
    unfold lex Mode.read at h
    cases hm : (Mode.plain.run d cs).2 with
    | plain => rfl
    | inside mark s => simp [hm, Mode.finish] at h
    | closing mark s =>
      rw [hm] at hmarked
      simpa [Mode.finish] using Mode.text_quoted hmarked s
    | number ds => simp [Mode.finish, Mode.pending, Lexeme.text]
  rw [lex, Mode.read, List.flatMap_append, hfinish, htext]
  rfl

/-- A text that a reader takes for the same lexemes in front of whatever may follow a value, and at
which it takes no list apart. -/
structure Cell (d : Dialect) (cs : List Char) : Prop where
  lex_append : ∀ rest : List Char, (∀ c ∈ rest.head?, breaks c = true) →
    d.lex (cs ++ rest) = d.lex cs ++ d.lex rest
  inside : ∀ l ∈ d.lex cs, l ∉ Lexeme.delimiters

namespace Cell

variable {cs : List Char}

theorem of_lex (ls : List Lexeme) (hls : ∀ l ∈ ls, l ∉ Lexeme.delimiters)
    (h : ∀ rest : List Char, (∀ c ∈ rest.head?, breaks c = true) →
      d.lex (cs ++ rest) = ls ++ d.lex rest) : Cell d cs := by
  have hcs : d.lex cs = ls := by
    have hnil := h [] (by simp)
    rw [List.append_nil] at hnil
    exact hnil.trans (List.append_nil ls)
  exact ⟨fun rest hrest => by rw [hcs, h rest hrest], hcs ▸ hls⟩

theorem words (h : ∀ c ∈ cs, Text.isWord c = true) : Cell d cs :=
  of_lex (cs.map .other) (Lexeme.notMem_delimiters h) fun rest _ => lex_words h rest

theorem placeholder (n : Nat) : Cell d (d.placeholder n) := by
  refine of_lex [d.marker n] ?_ fun rest hrest => ?_
  · exact List.forall_mem_singleton.mpr (by cases d <;> simp [marker, Lexeme.delimiters])
  · refine lex_placeholder d (fun c hc => ?_) n
    have hbreaks := hrest c hc
    simp only [breaks, Bool.and_eq_true, Bool.not_eq_true'] at hbreaks
    exact hbreaks.1.1.1

theorem string {front behind : List Char} (hfront : ∀ c ∈ front, Text.isWord c = true)
    (hbehind : ∀ c ∈ behind, Text.isWord c = true) (s : List Char) :
    Cell d (front ++ (Text.quoted '\x27' s ++ behind)) := by
  refine of_lex (front.map .other ++ (.string s :: behind.map .other)) ?_ fun rest hrest => ?_
  · have hstring : Lexeme.string s ∉ Lexeme.delimiters := by simp [Lexeme.delimiters]
    exact List.forall_mem_append.mpr ⟨Lexeme.notMem_delimiters hfront,
      List.forall_mem_cons.mpr ⟨hstring, Lexeme.notMem_delimiters hbehind⟩⟩
  · have hhead : (behind ++ rest).head? ≠ some '\x27' := by
      intro heq
      cases behind with
      | nil => exact absurd (hrest _ heq) (by decide)
      | cons c behind =>
        cases heq
        exact absurd (hbehind _ List.mem_cons_self) (by decide)
    rw [List.append_assoc, List.append_assoc, lex_words hfront, lex_string hhead, lex_words hbehind,
      List.append_assoc]
    rfl

end Cell

variable (d)

theorem literal_string (s : String) : d.literal (.string s) = Text.quoted '\x27' s.toList := rfl

theorem literal_bytes (b : List UInt8) : d.literal (.bytes b) =
    match d with
    | postgres => Text.quoted '\x27' ('\\' :: 'x' :: Text.hex b) ++ "::bytea".toList
    | mysql | sqlite => 'X' :: Text.quoted '\x27' (Text.hex b) := by
  have hhex : '\x27' ∉ Text.hex b := fun h => absurd (Text.isWord_hex h) (by decide)
  cases d with
  | postgres =>
    rw [Text.quoted_of_notMem (by simpa using hhex)]
    simp [literal]
  | mysql | sqlite =>
    simp only [Text.quoted_of_notMem hhex]
    rfl

theorem cell_literal (s : Scalar) : Cell d (d.literal s) := by
  cases s with
  | null =>
    have hnull : ['N', 'U', 'L', 'L'].all Text.isWord = true := by decide
    exact .words (List.all_eq_true.mp hnull)
  | bool b =>
    have hbool : (d.literal (.bool b)).all Text.isWord = true := by cases d <;> cases b <;> decide
    exact .words (List.all_eq_true.mp hbool)
  | int n | timestamp n => exact .words fun c hc => Text.isWord_int hc
  | float x => exact .words x.isWord_literal
  | string s =>
    have hcell := Cell.string (d := d) (List.forall_mem_nil _) (List.forall_mem_nil _) s.toList
    rw [literal_string]
    rwa [List.append_nil] at hcell
  | bytes b =>
    rw [literal_bytes]
    cases d with
    | postgres =>
      have htype : "::bytea".toList.all Text.isWord = true := by decide
      exact .string (List.forall_mem_nil _) (List.all_eq_true.mp htype) _
    | mysql | sqlite =>
      have hsign : ∀ c ∈ ['X'], Text.isWord c = true := List.forall_mem_singleton.mpr rfl
      simpa using Cell.string hsign (List.forall_mem_nil _) (Text.hex b)

theorem cell_spell (style : Style) (n : Nat) (s : Scalar) : Cell d (style.spell d n s) := by
  cases style with
  | placeholders => exact .placeholder (n + 1)
  | inline => exact d.cell_literal s

/-- The bytes that a literal stands for. -/
def bytes? (text : List Char) : Option (List UInt8) :=
  match d, text with
  | postgres, text =>
    match Text.unquote? '\x27' text with
    | some ('\\' :: 'x' :: digits, rest) =>
      if rest = "::bytea".toList then Text.bytes? digits else none
    | _ => none
  | mysql, 'X' :: text | sqlite, 'X' :: text =>
    match Text.unquote? '\x27' text with
    | some (digits, []) => Text.bytes? digits
    | _ => none
  | _, _ => none

theorem bytes?_literal (b : List UInt8) : d.bytes? (d.literal (.bytes b)) = some b := by
  rw [literal_bytes]
  cases d with
  | postgres =>
    have hread : Text.unquote? '\x27' (Text.quoted '\x27' ('\\' :: 'x' :: Text.hex b) ++
        "::bytea".toList) = some ('\\' :: 'x' :: Text.hex b, "::bytea".toList) :=
      Text.unquote?_eq_some.mpr ⟨rfl, by decide⟩
    simp only [bytes?, hread, if_true, Text.bytes?_hex]
  | mysql | sqlite =>
    have hread : Text.unquote? '\x27' (Text.quoted '\x27' (Text.hex b)) = some (Text.hex b, []) :=
      Text.unquote?_eq_some.mpr ⟨(List.append_nil _).symm, nofun⟩
    simp only [bytes?, hread, Text.bytes?_hex]

end Dialect

end EntityQuery
