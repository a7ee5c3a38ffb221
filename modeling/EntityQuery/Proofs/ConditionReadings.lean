import EntityQuery.Proofs.Readings

namespace EntityQuery

open Fragment

theorem Operator.mem_all (op : Operator) : op ∈ Operator.all := by
  cases op <;> decide

/-- How a test is written around its column. -/
inductive Form where
  | constant (holds : Bool)
  | compare (op : Operator)
  | isNull (negated : Bool)
  | between (negated : Bool)
  | oneOf (negated : Bool)
  | datePart (part : DatePart)
  deriving DecidableEq

namespace Form

def all : List Form :=
  [constant false, constant true, isNull false, isNull true, between false, between true, oneOf false,
    oneOf true] ++ Operator.all.map compare ++ [DatePart.date, .day, .month, .year].map datePart

def before (d : Dialect) : Form → String
  | constant holds => if holds then "1 = 1" else "0 = 1"
  | datePart part => (d.datePart part).1
  | _ => ""

def behind (d : Dialect) : Form → String
  | constant _ => ""
  | compare op => " " ++ d.comparison op ++ " "
  | isNull negated => if negated then " is not null" else " is null"
  | between negated => if negated then " not between " else " between "
  | oneOf negated => if negated then " not in (" else " in ("
  | datePart part => (d.datePart part).2 ++ " "

def hasColumn : Form → Bool
  | constant _ => false
  | _ => true

def bindsNext : Form → Bool
  | constant _ | isNull _ | datePart _ => false
  | _ => true

def head (d : Dialect) (f : Form) : List Token :=
  d.word (f.before d) ++ if f.hasColumn then [.aName] else []

/-- The text behind the column, with a mark for the announcement of a value. -/
def closing (d : Dialect) (f : Form) : String :=
  f.behind d ++ if f.bindsNext then "?" else ""

theorem mem_all (f : Form) : f ∈ all := by
  cases f with
  | compare op => cases op <;> decide
  | datePart part => cases part <;> decide
  | constant b | isNull b | between b | oneOf b => cases b <;> decide

def heads (d : Dialect) : List (List Token) :=
  ([constant false, constant true, isNull false] ++
    [DatePart.date, .day, .month, .year].map datePart).map (head d)

theorem head_mem (d : Dialect) (f : Form) : f.head d ∈ heads d := by
  have hplain {f g : Form} (hb : f.before d = g.before d) (hc : f.hasColumn = g.hasColumn)
      (hg : g.head d ∈ heads d) : f.head d ∈ heads d := by
    unfold head at hg ⊢
    rwa [hb, hc]
  have hbare : (isNull false).head d ∈ heads d := by simp [heads]
  cases f with
  | constant b => cases b <;> simp [heads]
  | datePart part => cases part <;> simp [heads]
  | compare op => exact hplain rfl rfl hbare
  | isNull b | between b | oneOf b => exact hplain rfl rfl hbare

theorem prefixFree_heads (d : Dialect) : PrefixFree (heads d) := by
  cases d <;> decide +kernel

theorem heads_apart (d : Dialect) : ∀ h ∈ heads d, ∀ p ∈ ["(", ")"],
    ¬ letters p <+: h ∧ ¬ h <+: letters p := by
  cases d <;> decide +kernel

theorem eq_of_closing (d : Dialect) : ∀ f ∈ all, ∀ g ∈ all,
    (f.closing d).toList <+: (g.closing d).toList → f.head d = g.head d → f = g := by
  cases d <;> decide +kernel

theorem hasColumn_eq_of_head {d : Dialect} {f g : Form} (h : f.head d = g.head d) :
    f.hasColumn = g.hasColumn := by
  have hlast (f : Form) : (f.head d).getLast? = some .aName ↔ f.hasColumn = true := by
    unfold head
    cases f with
    | constant b => cases b <;> cases d <;> decide
    | _ => simp [hasColumn]
  have hiff : f.hasColumn = true ↔ g.hasColumn = true := by rw [← hlast f, h, hlast g]
  exact Bool.eq_iff_iff.mpr hiff

end Form

def Token.ofChar (c : Char) : Token := if c = '?' then aValue else letter (.other c)

theorem Token.ofChar_injective : Function.Injective ofChar := by
  intro a b h
  unfold ofChar at h
  split at h <;> split at h <;> simp_all

theorem letters_eq_map {s : String} (h : isPlain s = true) : letters s = s.toList.map Token.ofChar := by
  apply List.map_congr_left
  intro c hc
  have hne : c ≠ '?' := by
    rintro rfl
    exact absurd (List.all_eq_true.mp h _ hc) (by decide)
  exact (if_neg hne).symm

namespace Form

variable {d : Dialect}

theorem behind_texts (d : Dialect) : ∀ f ∈ all, isPlain (f.behind d) = true ∧
    (f.hasColumn = true → (letters (f.behind d)).head?.any (fun t => !t.isDot) = true) := by
  cases d <;> decide +kernel

theorem isPlain_behind (d : Dialect) (f : Form) : isPlain (f.behind d) = true :=
  (behind_texts d f f.mem_all).1

theorem behind_headNot {f : Form} (h : f.hasColumn = true) (r : List Token) :
    HeadNot Token.isDot (letters (f.behind d) ++ r) := by
  have hhead := (behind_texts d f f.mem_all).2 h
  exact (Begins.text (List.mem_singleton_self (f.behind d)) r).headNot (by simpa using hhead)

theorem closing_tokens (f : Form) (d : Dialect) :
    (f.closing d).toList.map Token.ofChar =
      letters (f.behind d) ++ if f.bindsNext then [.aValue] else [] := by
  unfold closing
  rw [String.toList_append, List.map_append, letters_eq_map (f.isPlain_behind d)]
  cases f.bindsNext <;> rfl

end Form

namespace Test

def form : Test → Form
  | compare op _ => .compare op
  | between _ _ negated => .between negated
  | oneOf [] negated => .constant negated
  | oneOf (_ :: _) negated => .oneOf negated
  | isNull negated => .isNull negated
  | datePart part _ _ => .datePart part

def tail (d : Dialect) : Test → List Fragment
  | compare _ v => [.value v]
  | between low high _ => [.value low, .text " and ", .value high]
  | oneOf [] _ => []
  | oneOf (v :: vs) _ =>
    [.text ", "].intercalate ((v :: vs).map fun v => [.value v]) ++ [.text ")"]
  | isNull _ => []
  | datePart _ op v =>
    [.text (op.spelling ++ " " ++ d.dateOperand.1), .value v, .text d.dateOperand.2]

variable {d : Dialect} {r s : List Token}

def written (d : Dialect) (c : Column) (t : Test) : List Token :=
  if t.form.hasColumn then
    d.word (t.form.before d) ++ (tokensAll d c.fragments ++
      (letters (t.form.behind d) ++ tokensAll d (t.tail d)))
  else d.word (t.form.before d)

theorem tokensAll_column (c : Column) {w : String} (hw : isPlain w = true) (fs : List Fragment) :
    tokensAll d (c.fragments ++ .text w :: fs) =
      d.word "" ++ (tokensAll d c.fragments ++ (letters w ++ tokensAll d fs)) := by
  rw [tokensAll_append, tokensAll_text hw]
  rfl

theorem tokensAll_constant (w : String) : tokensAll d [.text w] = d.word w := List.append_nil _

theorem fragments_compare {op : Operator} {v : Value}
    (h : (compare op v).normal = compare op v) (c : Column) : (compare op v).fragments d c =
      c.fragments ++ .text ((Form.compare op).behind d) :: tail d (compare op v) := by
  unfold normal at h
  unfold fragments
  split
  all_goals try contradiction
  · next heq => cases heq; cases h
  · next heq => cases heq; cases h
  · next heq => cases heq; cases h
  · next heq => cases heq; rfl

theorem fragments_oneOf (v : Value) (vs : List Value) (negated : Bool) (c : Column) :
    (oneOf (v :: vs) negated).fragments d c = c.fragments ++
      .text ((Form.oneOf negated).behind d) :: tail d (oneOf (v :: vs) negated) := by
  simp [fragments, tail, Form.behind]

theorem fragments_datePart (part : DatePart) (op : Operator) (v : Value) (c : Column) :
    (datePart part op v).fragments d c = .text (d.datePart part).1 :: (c.fragments ++
      [.text ((Form.datePart part).behind d ++ (op.spelling ++ " " ++ d.dateOperand.1)),
        .value v, .text d.dateOperand.2]) := by
  simp only [fragments, Form.behind, String.append_assoc]
  rfl

theorem normal_compare (op : Operator) (v : Value) : (compare op v).normal = compare op v ∨
    ∃ negated, (compare op v).normal = isNull negated ∧
      ∀ (d : Dialect) (c : Column), (compare op v).fragments d c = (isNull negated).fragments d c := by
  unfold normal
  split
  · next heq => cases heq; exact .inr ⟨false, rfl, fun _ _ => rfl⟩
  · next heq => cases heq; exact .inr ⟨true, rfl, fun _ _ => rfl⟩
  · next heq => cases heq; exact .inr ⟨true, rfl, fun _ _ => rfl⟩
  · exact .inl rfl

theorem tokensAll_fragments (t : Test) (c : Column) :
    tokensAll d (t.fragments d c) = written d c t.normal := by
  cases t with
  | compare op v =>
    obtain h | ⟨negated, hn, hf⟩ := normal_compare op v
    · rw [h, fragments_compare h]
      exact tokensAll_column c (Form.isPlain_behind d (.compare op)) _
    · rw [hn, hf]
      exact tokensAll_column c (Form.isPlain_behind d (.isNull negated)) []
  | between low high negated =>
    exact tokensAll_column c (Form.isPlain_behind d (.between negated)) _
  | oneOf vs negated =>
    cases vs with
    | nil => exact tokensAll_constant _
    | cons v vs =>
      rw [fragments_oneOf]
      exact tokensAll_column c (Form.isPlain_behind d (.oneOf negated)) _
  | isNull negated => exact tokensAll_column c (Form.isPlain_behind d (.isNull negated)) []
  | datePart part op v =>
    have hop : isPlain (op.spelling ++ " " ++ d.dateOperand.1) = true :=
      isPlain_append (isPlain_append op.isPlain_spelling (by decide)) d.dateOperand_texts.1
    have hbefore (fs : List Fragment) :
        tokensAll d (.text (d.datePart part).1 :: fs) = d.word (d.datePart part).1 ++ tokensAll d fs :=
      rfl
    rw [fragments_datePart, hbefore, tokensAll_append,
      tokensAll_text (isPlain_append (Form.isPlain_behind d _) hop), letters_append,
      List.append_assoc, ← tokensAll_text hop]
    rfl

theorem sound_tail {t : Test} {c : Column} (h : Sound (t.fragments d c)) :
    Sound (t.normal.tail d) := by
  have hbehind {w : String} {fs : List Fragment} (h : Sound (c.fragments ++ .text w :: fs)) :
      Sound fs :=
    sound_text.mp (sound_append.mp h).2
  cases t with
  | compare op v =>
    obtain hn | ⟨negated, hn, -⟩ := normal_compare op v
    · rw [fragments_compare hn] at h
      rw [hn]
      exact hbehind h
    · rw [hn]
      exact fun _ hf => nomatch hf
  | between low high negated => exact hbehind h
  | oneOf vs negated =>
    cases vs with
    | nil => exact fun _ hf => nomatch hf
    | cons v vs => exact hbehind ((fragments_oneOf v vs negated c) ▸ h)
  | isNull negated => exact fun _ hf => nomatch hf
  | datePart part op v =>
    rw [fragments_datePart] at h
    exact sound_text.mpr (hbehind (sound_text.mp h))

theorem form_cases {t t' : Test} (h : t.form = t'.form) :
    (∃ op v v', t = compare op v ∧ t' = compare op v') ∨
    (∃ negated low high low' high', t = between low high negated ∧ t' = between low' high' negated) ∨
    (∃ negated, t = oneOf [] negated ∧ t' = oneOf [] negated) ∨
    (∃ negated v vs v' vs', t = oneOf (v :: vs) negated ∧ t' = oneOf (v' :: vs') negated) ∨
    (∃ negated, t = isNull negated ∧ t' = isNull negated) ∨
    ∃ part op v op' v', t = datePart part op v ∧ t' = datePart part op' v' := by
  rcases t with ⟨op, v⟩ | ⟨low, high, negated⟩ | ⟨_ | ⟨v, vs⟩, negated⟩ | negated | ⟨part, op, v⟩ <;>
    rcases t' with ⟨op', v'⟩ | ⟨low', high', negated'⟩ | ⟨_ | ⟨v', vs'⟩, negated'⟩ | negated' |
      ⟨part', op', v'⟩ <;>
    cases h <;> simp

theorem tells_operator : Tells fun op : Operator => op.spelling ++ " " := by
  have hall : ∀ op ∈ Operator.all, ∀ op' ∈ Operator.all,
      (op.spelling ++ " ").toList <+: (op'.spelling ++ " ").toList → op = op' := by decide +kernel
  intro op op' h
  have hletter : Function.Injective fun c => Token.letter (.other c) :=
    fun _ _ h => Lexeme.other.inj (Token.letter.inj h)
  exact hall op op.mem_all op' op'.mem_all ((List.prefix_map_iff_of_injective hletter).mp h)

theorem tail_reads {t t' : Test} (hform : t.form = t'.form) (ht : Sound (t.tail d))
    (ht' : Sound (t'.tail d)) (e : tokensAll d (t.tail d) ++ r = tokensAll d (t'.tail d) ++ s) :
    t = t' ∧ r = s := by
  have hvalue (v : Value) : ReadsAt d (fun _ => True) (fun v => [Fragment.value v]) id v := v.reads
  obtain ⟨op, v, v', rfl, rfl⟩ | ⟨negated, low, high, low', high', rfl, rfl⟩ | ⟨negated, rfl, rfl⟩ |
    ⟨negated, v, vs, v', vs', rfl, rfl⟩ | ⟨negated, rfl, rfl⟩ | ⟨part, op, v, op', v', rfl, rfl⟩ :=
    form_cases hform
  · exact (hvalue v v' r s ht ht' trivial trivial e).imp_left (congrArg (compare op))
  · have hhigh : ReadsAt d (fun _ => True) _ _ (low, high) :=
      (high.reads.of Prod.snd).text (w := " and ") (by decide)
    have hboth := ((hvalue low).of Prod.fst).append hhigh fun _ _ _ => trivial
    obtain ⟨h, hrs⟩ := hboth (low', high') r s ht ht' trivial trivial e
    cases h
    exact ⟨rfl, hrs⟩
  · exact ⟨rfl, e⟩
  · have hvalues : ReadsAt d (Begins [")"]) (fun xs : Value × List Value =>
        [.text ", "].intercalate ((xs.1 :: xs.2).map fun v => [.value v])) _ (v, vs) :=
      ReadsAt.separated (by decide) (by decide) fun v _ => v.reads
    have hclosed : ReadsAt d (fun _ => True) _ _ (v, vs) := hvalues.closed (by decide)
    obtain ⟨h, hrs⟩ := hclosed (v', vs') r s ht ht' trivial trivial e
    rw [List.map_id, List.map_id] at h
    exact ⟨by rw [h], hrs⟩
  · exact ⟨rfl, e⟩
  · have hop (op : Operator) : isPlain (op.spelling ++ " " ++ d.dateOperand.1) = true :=
      isPlain_append (isPlain_append op.isPlain_spelling (by decide)) d.dateOperand_texts.1
    have hvalue : ReadsAt d (fun _ => True) _ _ (op, v) :=
      (v.reads.of Prod.snd).closed d.dateOperand_texts.2.1
    have hboth := (tells_operator.append d.dateOperand.1).choose hop Prod.fst hvalue
    obtain ⟨h, hrs⟩ := hboth (op', v') r s ht ht' trivial trivial e
    cases h
    exact ⟨rfl, hrs⟩

theorem exists_tokensAll_column (c : Column) :
    ∃ rest, tokensAll d c.fragments = .aName :: rest := by
  obtain ⟨_ | table, name⟩ := c <;> exact ⟨_, rfl⟩

theorem exists_written (c : Column) (t : Test) : ∃ rest, written d c t = t.form.head d ++ rest ∧
    (t.form.hasColumn = true → Token.aName :: rest = tokensAll d c.fragments ++
      (letters (t.form.behind d) ++ tokensAll d (t.tail d))) ∧
    (t.form.hasColumn = false → rest = tokensAll d (t.tail d)) := by
  cases h : t.form.hasColumn with
  | false =>
    have htail : tokensAll d (t.tail d) = [] := by
      rcases t with ⟨op, v⟩ | ⟨low, high, negated⟩ | ⟨_ | ⟨v, vs⟩, negated⟩ | negated | ⟨part, op, v⟩
      case oneOf.nil => rfl
      all_goals cases h
    exact ⟨[], by simp [written, Form.head, h], (absurd · Bool.false_ne_true), fun _ => htail.symm⟩
  | true =>
    obtain ⟨rest, hrest⟩ := exists_tokensAll_column (d := d) c
    refine ⟨rest ++ (letters (t.form.behind d) ++ tokensAll d (t.tail d)), ?_, ?_,
      (absurd ·.symm Bool.false_ne_true)⟩
    · simp [written, Form.head, h, hrest]
    · intro _
      rw [hrest]
      rfl

theorem closing_prefix (t : Test) (ht : Sound (t.tail d)) (r : List Token) :
    (t.form.closing d).toList.map Token.ofChar <+:
      letters (t.form.behind d) ++ (tokensAll d (t.tail d) ++ r) := by
  have hvalue {v : Value} {fs : List Fragment} (h : Sound (.value v :: fs)) :
      [Token.aValue] <+: tokensAll d (.value v :: fs) ++ r := by
    obtain ⟨a, rfl⟩ := eq_scalar_of_sound (h _ List.mem_cons_self)
    exact ⟨_, rfl⟩
  rw [Form.closing_tokens]
  apply (List.prefix_append_right_inj _).mpr
  cases t with
  | compare | between => exact hvalue ht
  | oneOf vs negated =>
    cases vs with
    | nil => exact List.nil_prefix
    | cons v vs =>
      have htail : ∃ fs, tail d (oneOf (v :: vs) negated) = .value v :: fs := by
        simp only [tail, List.map_cons, intercalate_cons, List.append_assoc]
        exact ⟨_, rfl⟩
      obtain ⟨fs, hfs⟩ := htail
      rw [hfs] at ht ⊢
      exact hvalue ht
  | isNull | datePart => exact List.nil_prefix

theorem reads {t t' : Test} {c c' : Column} (ht : Sound (t.fragments d c))
    (ht' : Sound (t'.fragments d c'))
    (e : tokensAll d (t.fragments d c) ++ r = tokensAll d (t'.fragments d c') ++ s) :
    t.normal = t'.normal ∧ (t.normal.form.hasColumn = true → c = c') ∧ r = s := by
  have ht := sound_tail ht
  have ht' := sound_tail ht'
  rw [tokensAll_fragments, tokensAll_fragments] at e
  generalize t.normal = u at ht e ⊢
  generalize t'.normal = u' at ht' e ⊢
  obtain ⟨rest, hwritten, hcolumn, hnone⟩ := exists_written (d := d) c u
  obtain ⟨rest', hwritten', hcolumn', hnone'⟩ := exists_written (d := d) c' u'
  rw [hwritten, hwritten', List.append_assoc, List.append_assoc] at e
  obtain ⟨hhead, e⟩ := (Form.prefixFree_heads d).read (Form.head_mem d _) (Form.head_mem d _) e
  have hsame := Form.hasColumn_eq_of_head hhead
  cases hu : u.form.hasColumn with
  | false =>
    have hu' : u'.form.hasColumn = false := hsame ▸ hu
    have hclosing : (u.form.closing d).toList <+: (u'.form.closing d).toList := by
      have hnone : (u.form.closing d).toList = [] := by
        cases hf : u.form with
        | constant b => rfl
        | _ => rw [hf] at hu; cases hu
      rw [hnone]
      exact List.nil_prefix
    have hform := Form.eq_of_closing d _ (Form.mem_all _) _ (Form.mem_all _) hclosing hhead
    rw [hnone hu, hnone' hu'] at e
    obtain ⟨htest, hrs⟩ := tail_reads hform ht ht' e
    exact ⟨htest, nofun, hrs⟩
  | true =>
    have hu' : u'.form.hasColumn = true := hsame ▸ hu
    have e := congrArg (Token.aName :: ·) e
    simp only [← List.cons_append] at e
    rw [hcolumn hu, hcolumn' hu', List.append_assoc, List.append_assoc, List.append_assoc,
      List.append_assoc] at e
    obtain ⟨hc, e⟩ := c.reads c' _ _ c.sound c'.sound (Form.behind_headNot hu _)
      (Form.behind_headNot hu' _) e
    have hform : u.form = u'.form := by
      have hp := closing_prefix u ht r
      have hp' := closing_prefix u' ht' s
      rw [e] at hp
      obtain h | h := List.prefix_or_prefix_of_prefix hp hp'
      · exact Form.eq_of_closing d _ (Form.mem_all _) _ (Form.mem_all _)
          ((List.prefix_map_iff_of_injective Token.ofChar_injective).mp h) hhead
      · exact (Form.eq_of_closing d _ (Form.mem_all _) _ (Form.mem_all _)
          ((List.prefix_map_iff_of_injective Token.ofChar_injective).mp h) hhead.symm).symm
    rw [hform] at e
    obtain ⟨htest, hrs⟩ := tail_reads hform ht ht' (List.append_cancel_left e)
    exact ⟨htest, fun _ => hc, hrs⟩

end Test

namespace Condition

def shown (cs : List Condition) : List Condition := cs.filter fun c => !c.isHollow

theorem shown_eq_nil_iff {cs : List Condition} : shown cs = [] ↔ allHollow cs = true := by
  induction cs with
  | nil => exact iff_of_true rfl rfl
  | cons c rest ih =>
    unfold shown at ih ⊢
    rw [allHollow, List.filter_cons]
    cases c.isHollow <;> simp [ih]

theorem normalAll_eq (cs : List Condition) : normalAll cs = (shown cs).map normal := by
  induction cs with
  | nil => rfl
  | cons c rest ih =>
    unfold shown at ih ⊢
    rw [normalAll, ih, List.filter_cons]
    cases c.isHollow <;> rfl

def joined (d : Dialect) (c : Condition) : List Fragment :=
  .text (" " ++ c.connective.keyword ++ " ") :: c.fragments d

theorem levelFragments_rest (d : Dialect) (cs : List Condition) :
    levelFragments d false cs = (shown cs).flatMap (joined d) := by
  induction cs with
  | nil => rfl
  | cons c rest ih =>
    unfold shown at ih ⊢
    rw [levelFragments, ih, List.filter_cons]
    cases c.isHollow <;> rfl

def firstAndRest (cs : List Condition) : Option (Condition × List Condition) :=
  match shown cs with
  | [] => none
  | c :: rest => some (c, rest)

theorem mem_of_firstAndRest {cs : List Condition} {x : Condition × List Condition}
    (h : x ∈ firstAndRest cs) : ∀ c ∈ x.1 :: x.2, c ∈ cs := by
  unfold firstAndRest at h
  split at h
  · cases h
  · next hshown =>
    cases h
    intro c hc
    rw [← hshown] at hc
    exact (List.mem_filter.mp hc).1

def pairFragments (d : Dialect) (x : Condition × List Condition) : List Fragment :=
  x.1.fragments d ++ x.2.flatMap (joined d)

theorem levelFragments_eq (d : Dialect) (cs : List Condition) :
    levelFragments d true cs = (firstAndRest cs).toList.flatMap (pairFragments d) := by
  induction cs with
  | nil => rfl
  | cons c cs ih =>
    rw [levelFragments, ih, levelFragments_rest]
    unfold firstAndRest shown
    rw [List.filter_cons]
    cases c.isHollow with
    | true => rfl
    | false => exact (List.append_nil _).symm

theorem whereFragments_eq (d : Dialect) (cs : List Condition) :
    whereFragments d cs =
      (firstAndRest cs).toList.flatMap fun x => .text " where " :: pairFragments d x := by
  unfold whereFragments
  rw [levelFragments_eq]
  unfold firstAndRest
  split
  · next h => rw [shown_eq_nil_iff.mpr h]; rfl
  · next h =>
    split
    · next hnil => exact absurd (shown_eq_nil_iff.mp hnil) h
    · rw [Option.toList_some, List.flatMap_singleton, List.flatMap_singleton]

/-- The normal form of a condition without its connective. -/
def core (c : Condition) : Condition := c.normal.withConnective .and

theorem normal_test (k : Connective) (c : Column) (t : Test) : normal (.test k c t) =
    .test k (if t.normal.form.hasColumn then c else .bare "") t.normal := by
  rcases t with ⟨op, v⟩ | ⟨low, high, negated⟩ | ⟨_ | ⟨v, vs⟩, negated⟩ | negated | ⟨part, op, v⟩
  case compare =>
    obtain h | ⟨negated, h, -⟩ := Test.normal_compare op v
    · simp only [normal, h]
      rfl
    · simp only [normal, h]
      rfl
  all_goals rfl

theorem normal_eq {c c' : Condition} (hk : c.connective = c'.connective) (h : c.core = c'.core) :
    c.normal = c'.normal := by
  have hcore (c : Condition) : c.core.withConnective c.connective = c.normal := by
    rw [← connective_normal]
    unfold core
    cases c.normal <;> rfl
  rw [← hcore c, ← hcore c', hk, h]

def pairNormal (x : Condition × List Condition) : List Condition := x.1.core :: x.2.map normal

theorem leading_normalAll (cs : List Condition) :
    leading (normalAll cs) = ((firstAndRest cs).map pairNormal).getD [] := by
  rw [normalAll_eq]
  unfold firstAndRest
  cases shown cs <;> rfl

theorem tells_connective : Tells fun k : Connective => " " ++ k.keyword ++ " " := by
  intro k k'
  cases k <;> cases k' <;> decide

theorem isPlain_connective (k : Connective) : isPlain (" " ++ k.keyword ++ " ") = true := by
  cases k <;> decide

variable {d : Dialect} {r s : List Token}

theorem leads_joined : Leads d [" and ", " or "] (joined d) :=
  Leads.text fun c => ⟨by cases c.connective <;> decide, isPlain_connective c.connective⟩

theorem joined_reads {follow : List Token → Prop} {c : Condition}
    (h : ReadsAt d (fun _ => True) (fragments d) core c) :
    ReadsAt d follow (joined d) normal c := by
  have hjoined := tells_connective.choose isPlain_connective connective h
  refine (hjoined.imp fun c' hc => ?_).mono fun _ _ => trivial
  obtain ⟨hk, hcore⟩ := Prod.mk.inj hc
  exact normal_eq hk hcore

theorem pair_reads {ws : List String} (hws : Clash [" and ", " or "] ws)
    {x : Condition × List Condition}
    (h : ∀ c ∈ x.1 :: x.2, ReadsAt d (fun _ => True) (fragments d) core c) :
    ReadsAt d (Begins ws) (pairFragments d) pairNormal x := by
  have hrest : ReadsAt d (Begins ws) _ _ x := (ReadsAt.flatMap leads_joined hws fun c hc =>
    joined_reads (h c (List.mem_cons_of_mem x.1 hc))).of Prod.snd
  have hparts := ((h x.1 List.mem_cons_self).of Prod.fst).append hrest fun _ _ _ => trivial
  exact hparts.imp fun y hy => List.cons_eq_cons.mpr (Prod.mk.inj hy)

theorem test_head_ne (c : Column) (t : Test) {p : String} (hp : p ∈ ["(", ")"]) :
    letters p ++ r ≠ tokensAll d (t.fragments d c) ++ s := by
  intro e
  obtain ⟨rest, hwritten, -, -⟩ := Test.exists_written (d := d) c t.normal
  rw [Test.tokensAll_fragments, hwritten, List.append_assoc] at e
  have hapart := Form.heads_apart d _ (Form.head_mem d t.normal.form) p hp
  obtain h | h := prefix_of_append_eq e
  · exact hapart.1 h
  · exact hapart.2 h

theorem tokensAll_group (k : Connective) (members : List Condition) (r : List Token) :
    tokensAll d (fragments d (.group k members)) ++ r =
      letters "(" ++ (tokensAll d (levelFragments d true members) ++ (letters ")" ++ r)) := by
  have hopen : isPlain "(" = true := by decide
  have hclose : isPlain ")" = true := by decide
  simp only [fragments, List.cons_append, tokensAll_text hopen, tokensAll_append,
    tokensAll_text hclose, List.append_assoc]
  rfl

theorem head_ne_close (c : Condition) : letters ")" ++ r ≠ tokensAll d (c.fragments d) ++ s := by
  cases c with
  | test k c t => exact test_head_ne c t (by decide)
  | group k members =>
    rw [tokensAll_group]
    exact fun e => nomatch (List.cons_eq_cons.mp e).1

theorem not_begins_close (c : Condition) :
    ¬ Begins [")"] (tokensAll d (c.fragments d) ++ s) := by
  rintro (h | ⟨w, hw, rest, hrest⟩)
  · obtain ⟨hnil, -⟩ := List.append_eq_nil_iff.mp h
    exact head_ne_close (d := d) (r := []) (s := letters ")") c (by rw [hnil]; rfl)
  · obtain rfl := List.mem_singleton.mp hw
    exact head_ne_close c hrest

theorem level_reads {cs : List Condition}
    (h : ∀ c ∈ cs, ReadsAt d (fun _ => True) (fragments d) core c) :
    ReadsAt d (Begins [")"]) (levelFragments d true) (fun cs => leading (normalAll cs)) cs := by
  have hstop (x : Condition × List Condition) (r : List Token) :
      ¬ Begins [")"] (tokensAll d (pairFragments d x) ++ r) := by
    rw [pairFragments, tokensAll_append, List.append_assoc]
    exact not_begins_close x.1
  have hpair : ∀ x ∈ firstAndRest cs, ReadsAt d (Begins [")"]) (pairFragments d) pairNormal x :=
    fun x hx => pair_reads (by decide) fun c hc => h c (mem_of_firstAndRest hx c hc)
  refine (((ReadsAt.option hstop hpair).of firstAndRest).congr (levelFragments_eq d)).imp fun cs' h => ?_
  rw [leading_normalAll, leading_normalAll, h]

theorem group_reads {k : Connective} {members : List Condition}
    (h : ∀ c ∈ members, ReadsAt d (fun _ => True) (fragments d) core c) :
    ReadsAt d (fun _ => True) (fun cs => fragments d (.group k cs)) (fun cs => core (.group k cs))
      members := by
  refine (((level_reads h).closed (by decide)).text (w := "(") (by decide)).imp fun members' hm => ?_
  unfold core normal
  rw [hm]

mutual

theorem reads : ∀ c : Condition, ReadsAt d (fun _ => True) (fragments d) core c
  | .test k c t => by
    intro c' r s hc hc' _ _ e
    cases c' with
    | group k' members' =>
      rw [tokensAll_group] at e
      exact absurd e.symm (test_head_ne c t (by decide))
    | test k' c' t' =>
      obtain ⟨htest, hcolumn, hrs⟩ := Test.reads hc hc' e
      refine ⟨?_, hrs⟩
      unfold core
      rw [normal_test, normal_test, ← htest]
      split
      · next hu => rw [hcolumn hu]; rfl
      · rfl
  | .group k members => by
    have hmembers := reads_members members
    intro c' r s hc hc' _ _ e
    cases c' with
    | test k' c' t' =>
      rw [tokensAll_group] at e
      exact absurd e (test_head_ne c' t' (by decide))
    | group k' members' =>
      exact group_reads hmembers members' r s hc hc' trivial trivial e

theorem reads_members : ∀ cs : List Condition, ∀ c ∈ cs,
    ReadsAt d (fun _ => True) (fragments d) core c
  | [] => nofun
  | c :: rest => by
    have hc := reads c
    have hrest := reads_members rest
    exact List.forall_mem_cons.mpr ⟨hc, hrest⟩

end

theorem leads_where : Leads d [" where "] fun x => .text " where " :: pairFragments d x :=
  Leads.text (w := fun _ => " where ") fun _ => by decide

theorem where_reads {ws : List String} (hc : Clash [" and ", " or "] ws) (hc' : Clash [" where "] ws)
    (cs : List Condition) :
    ReadsAt d (Begins ws) (whereFragments d) (fun cs => leading (normalAll cs)) cs := by
  have hpair : ∀ x ∈ firstAndRest cs, ReadsAt d (Begins ws) _ pairNormal x :=
    fun x _ => (pair_reads hc fun c _ => reads c).text (w := " where ") (by decide)
  refine (((ReadsAt.option (leads_where.stops hc') hpair).of firstAndRest).congr
    (whereFragments_eq d)).imp fun cs' h => ?_
  rw [leading_normalAll, leading_normalAll, h]

theorem where_begins {ws : List String} (cs : List Condition) (hr : Begins ws r) :
    Begins (" where " :: ws) (tokensAll d (whereFragments d cs) ++ r) := by
  rw [whereFragments_eq]
  exact leads_where.begins (firstAndRest cs).toList hr

end Condition

end EntityQuery
