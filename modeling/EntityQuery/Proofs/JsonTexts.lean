import EntityQuery.Json.Reader

namespace EntityQuery

namespace Text

theorem nat_eq_zero_of_head {n : Nat} {rest : List Char} (h : nat n = '0' :: rest) :
    n = 0 ∧ rest = [] := by
  induction n using Nat.strongRecOn generalizing rest with
  | ind n ih =>
    by_cases hn : n < 10
    · have hdigits : ∀ n < 10, Nat.digitChar n = '0' → n = 0 := by decide
      rw [nat, Nat.toDigits_of_lt_base hn] at h
      obtain ⟨hhead, hrest⟩ := List.cons.inj h
      exact ⟨hdigits n hn hhead, hrest.symm⟩
    · rw [nat, Nat.toDigits_of_base_le (by decide) (by omega)] at h
      obtain ⟨front, hfront⟩ : ∃ front, nat (n / 10) = '0' :: front := by
        cases hq : nat (n / 10) with
        | nil => exact absurd hq Nat.toDigits_ne_nil
        | cons c front =>
          rw [nat] at hq
          rw [hq] at h
          exact ⟨front, by rw [(List.cons.inj h).1]⟩
      have := (ih (n / 10) (by omega) hfront).1
      omega

end Text

namespace Json

mutual

def tokens : Json → List Token
  | null => [.null]
  | bool b => [.bool b]
  | number negative n => [.number negative n]
  | string s => [.string (some s)]
  | array [] => [.openArray, .closeArray]
  | array (item :: rest) => .openArray :: (tokens item ++ (itemsTokens rest ++ [.closeArray]))
  | object [] => [.openObject, .closeObject]
  | object ((name, value) :: rest) =>
    .openObject :: .string (some name) :: .colon ::
      (tokens value ++ (membersTokens rest ++ [.closeObject]))
  | garbled => [.string none]

def itemsTokens : List Json → List Token
  | [] => []
  | item :: rest => .comma :: (tokens item ++ itemsTokens rest)

def membersTokens : List (String × Json) → List Token
  | [] => []
  | (name, value) :: rest =>
    .comma :: .string (some name) :: .colon :: (tokens value ++ membersTokens rest)

end

theorem ofMembers_map (members : List (String × Json)) :
    ofMembers (members.map fun m => (some m.1, m.2)) = object members := by
  have hall (f : Option String × Json → Option (String × Json))
      (hf : ∀ m : String × Json, f (some m.1, m.2) = some m) :
      (members.map fun m => (some m.1, m.2)).mapM f = some members := by
    induction members with
    | nil => rfl
    | cons m rest ih => simp [hf, ih]
  rw [ofMembers, hall _ fun _ => rfl]

theorem length_tokens_pos (j : Json) : 0 < j.tokens.length := by
  cases j with
  | array items => cases items <;> simp [tokens]
  | object members => cases members <;> simp [tokens]
  | _ => simp [tokens]

theorem read?_array (j : Json) (fuel : Nat) (ts : List Token) :
    read? (fuel + 1) (.openArray :: (j.tokens ++ ts)) =
      (readItems? fuel (j.tokens ++ ts)).map fun (items, rest) => (array items, rest) := by
  cases j with
  | array items => cases items <;> simp [tokens, read?]
  | object members => cases members <;> simp [tokens, read?]
  | _ => simp [tokens, read?]

mutual

theorem read?_tokens : ∀ (j : Json) (fuel : Nat) (ts : List Token), 2 * j.tokens.length ≤ fuel →
    read? fuel (j.tokens ++ ts) = some (j, ts)
  | j, 0, ts, h => by
    have := length_tokens_pos j
    omega
  | null, fuel + 1, ts, _ => rfl
  | bool b, fuel + 1, ts, _ => rfl
  | number negative n, fuel + 1, ts, _ => rfl
  | string s, fuel + 1, ts, _ => rfl
  | garbled, fuel + 1, ts, _ => rfl
  | array [], fuel + 1, ts, _ => rfl
  | array (item :: rest), fuel + 1, ts, h => by
    simp only [tokens, List.length_cons, List.length_append, List.length_nil] at h
    have hitems := readItems?_tokens item rest fuel ts (by omega)
    rw [tokens, List.cons_append, List.append_assoc, read?_array, List.append_assoc]
    rw [List.singleton_append, hitems]
    rfl
  | object [], fuel + 1, ts, _ => rfl
  | object ((name, value) :: rest), fuel + 1, ts, h => by
    simp only [tokens, List.length_cons, List.length_append, List.length_nil] at h
    have hmembers := readMembers?_tokens name value rest fuel ts (by omega)
    simp only [tokens, List.cons_append, List.append_assoc, List.nil_append, read?, hmembers,
      Option.map_some, ofMembers_map]

theorem readItems?_tokens : ∀ (item : Json) (rest : List Json) (fuel : Nat) (ts : List Token),
    2 * (item.tokens.length + (itemsTokens rest).length) + 1 ≤ fuel →
    readItems? fuel (item.tokens ++ (itemsTokens rest ++ .closeArray :: ts)) = some (item :: rest, ts)
  | item, rest, 0, ts, h => by omega
  | item, [], fuel + 1, ts, h => by
    rw [readItems?, read?_tokens item _ _ (by omega)]
    rfl
  | item, second :: rest, fuel + 1, ts, h => by
    simp only [itemsTokens, List.length_cons, List.length_append] at h
    rw [readItems?, read?_tokens item _ _ (by omega)]
    simp only [itemsTokens, List.cons_append, List.append_assoc]
    rw [readItems?_tokens second rest _ ts (by omega)]
    rfl

theorem readMembers?_tokens : ∀ (name : String) (value : Json) (rest : List (String × Json))
    (fuel : Nat) (ts : List Token),
    2 * (value.tokens.length + (membersTokens rest).length) + 1 ≤ fuel →
    readMembers? fuel (.string (some name) :: .colon ::
        (value.tokens ++ (membersTokens rest ++ .closeObject :: ts))) =
      some (((name, value) :: rest).map fun m => (some m.1, m.2), ts)
  | name, value, rest, 0, ts, h => by omega
  | name, value, [], fuel + 1, ts, h => by
    rw [readMembers?, read?_tokens value _ _ (by omega)]
    rfl
  | name, value, (second, value') :: rest, fuel + 1, ts, h => by
    simp only [membersTokens, List.length_cons, List.length_append] at h
    rw [readMembers?, read?_tokens value _ _ (by omega)]
    simp only [membersTokens, List.cons_append, List.append_assoc]
    rw [readMembers?_tokens second value' rest _ ts (by omega)]
    rfl

end

theorem tokensWithin?_mono {fuel fuel' : Nat} {s : List Char} {ts : List Token}
    (h : tokensWithin? fuel s = some ts) (hle : fuel ≤ fuel') : tokensWithin? fuel' s = some ts := by
  induction fuel generalizing fuel' s ts with
  | zero =>
    cases s with
    | nil => cases fuel' <;> exact h
    | cons c rest => cases h
  | succ fuel ih =>
    obtain ⟨more, rfl⟩ : ∃ more, fuel' = more + 1 := ⟨fuel' - 1, by omega⟩
    have hmore : fuel ≤ more := by omega
    cases s with
    | nil => exact h
    | cons c rest =>
      rw [tokensWithin?] at h ⊢
      split
      · next hs => 
        rw [if_pos hs] at h
        exact ih h hmore
      · next hs =>
        rw [if_neg hs] at h
        cases ht : token? c rest with
        | none => simp [ht] at h
        | some out =>
          obtain ⟨t, rest'⟩ := out
          cases hr : tokensWithin? fuel rest' with
          | none => simp [ht, hr] at h
          | some ts' =>
            simp only [ht, hr, Option.bind_eq_bind, Option.bind_some] at h ⊢
            rw [ih hr hmore]
            exact h

def Stops (s : List Char) : Prop :=
  ∀ c ∈ s.head?, isDigit c = false ∧ c ≠ '.' ∧ c ≠ 'e' ∧ c ≠ 'E'

/-- A text is cut into the given tokens, whatever comes after it. -/
def Lexes (s : List Char) (ts : List Token) : Prop :=
  ∀ (fuel : Nat) (rest : List Char) (more : List Token), Stops rest →
    tokensWithin? fuel rest = some more →
    tokensWithin? (fuel + s.length) (s ++ rest) = some (ts ++ more)

namespace Lexes

theorem nil : Lexes [] [] := fun _ _ _ _ h => h

theorem append {s s' : List Char} {ts ts' : List Token} (h : Lexes s ts) (h' : Lexes s' ts')
    (hs : ∀ rest, Stops rest → Stops (s' ++ rest)) : Lexes (s ++ s') (ts ++ ts') := by
  intro fuel rest more hrest hmore
  have hlast := h' fuel rest more hrest hmore
  have hfirst := h _ _ _ (hs rest hrest) hlast
  rw [List.append_assoc, List.append_assoc, List.length_append]
  rwa [Nat.add_assoc, Nat.add_comm s'.length] at hfirst

theorem token {c : Char} {s : List Char} {t : Token} (hspace : isSpace c = false)
    (htoken : ∀ rest, Stops rest → token? c (s ++ rest) = some (t, rest)) : Lexes (c :: s) [t] := by
  intro fuel rest more hrest hmore
  have hmore := tokensWithin?_mono hmore (Nat.le_add_right fuel s.length)
  rw [List.length_cons, ← Nat.add_assoc, List.cons_append, tokensWithin?, if_neg (by simp [hspace]),
    htoken rest hrest]
  simp [hmore]

theorem cons {c : Char} {s : List Char} {t : Token} {ts : List Token} (hspace : isSpace c = false)
    (htoken : ∀ rest, token? c rest = some (t, rest)) (h : Lexes s ts) : Lexes (c :: s) (t :: ts) := by
  intro fuel rest more hrest hmore
  rw [List.length_cons, ← Nat.add_assoc, List.cons_append, tokensWithin?, if_neg (by simp [hspace]),
    htoken, Option.bind_eq_bind, Option.bind_some]
  simp [h fuel rest more hrest hmore]

end Lexes

theorem isDigit_of_mem_nat {n : Nat} {c : Char} (h : c ∈ Text.nat n) : isDigit c = true := by
  have hdigit := Nat.isDigit_of_mem_toDigits (by decide) (by decide) h
  exact hdigit

theorem digits?_nat (n : Nat) {rest : List Char} (hrest : Stops rest) :
    digits? (Text.nat n ++ rest) = some (Text.nat n, rest) := by
  have htake : rest.takeWhile isDigit = [] := by
    cases rest with
    | nil => rfl
    | cons c rest => exact List.takeWhile_cons_of_neg (by simp [(hrest c rfl).1])
  have hdrop : rest.dropWhile isDigit = rest := by
    cases rest with
    | nil => rfl
    | cons c rest => exact List.dropWhile_cons_of_neg (by simp [(hrest c rfl).1])
  have hall : ∀ c ∈ Text.nat n, isDigit c = true := fun c hc => isDigit_of_mem_nat hc
  rw [digits?, List.takeWhile_append_of_pos hall, List.dropWhile_append_of_pos hall, htake, hdrop,
    List.append_nil]
  split
  · next h => exact absurd h Nat.toDigits_ne_nil
  · rfl

theorem numeral?_nat (n : Nat) {rest : List Char} (hrest : Stops rest) :
    numeral? (Text.nat n ++ rest) = some ({ whole := Text.nat n }, rest) := by
  have hwhole : whole? (Text.nat n ++ rest) = some (Text.nat n, rest) := by
    cases hn : Text.nat n with
    | nil => exact absurd hn Nat.toDigits_ne_nil
    | cons c front =>
      by_cases hc : c = '0'
      · subst hc
        obtain ⟨-, rfl⟩ := Text.nat_eq_zero_of_head hn
        rfl
      · rw [← hn, ← digits?_nat n hrest, hn, List.cons_append, whole?]
        simpa using hc
  have hfraction : fraction? rest = some ([], rest) := by
    unfold fraction?
    split
    · exact absurd rfl (hrest '.' rfl).2.1
    · rfl
  have hexponent : exponent? rest = some (none, rest) := by
    unfold exponent?
    split
    · exact absurd rfl (hrest 'e' rfl).2.2.1
    · exact absurd rfl (hrest 'E' rfl).2.2.2
    · rfl
  simp [numeral?, hwhole, hfraction, hexponent]

theorem mem_of_isDigit {c : Char} (h : isDigit c = true) :
    c ∈ ['0', '1', '2', '3', '4', '5', '6', '7', '8', '9'] := by
  have hall : ∀ n < 58, 48 ≤ n →
      Char.ofNat n ∈ ['0', '1', '2', '3', '4', '5', '6', '7', '8', '9'] := by decide
  simp only [isDigit, Bool.and_eq_true, decide_eq_true_eq, Char.le_def, UInt32.le_iff_toNat_le] at h
  rw [← Char.ofNat_toNat c]
  exact hall c.toNat (Nat.lt_succ_of_le h.2) h.1

theorem token?_digit {c : Char} (h : isDigit c = true) (rest : List Char) :
    token? c rest = (numeral? (c :: rest)).map fun (n, rest) => (.number false n, rest) := by
  have hc := mem_of_isDigit h
  simp only [List.mem_cons, List.not_mem_nil, or_false] at hc
  obtain rfl | rfl | rfl | rfl | rfl | rfl | rfl | rfl | rfl | rfl := hc <;> rfl

theorem isSpace_digit {c : Char} (h : isDigit c = true) : isSpace c = false := by
  rw [Bool.eq_false_iff]
  intro hspace
  simp only [isSpace, Bool.or_eq_true, decide_eq_true_eq] at hspace
  obtain ((rfl | rfl) | rfl) | rfl := hspace <;> exact absurd h (by decide)

theorem lexes_number (negative : Bool) (n : Nat) :
    Lexes (numberText negative { whole := Text.nat n }) [.number negative { whole := Text.nat n }] := by
  have htext : ({ whole := Text.nat n } : Decimal.Numeral).text = Text.nat n := by
    simp [Decimal.Numeral.text]
  unfold numberText
  rw [htext]
  cases negative with
  | true =>
    rw [if_pos rfl]
    refine Lexes.token (by decide) fun rest hrest => ?_
    rw [token?, numeral?_nat n hrest]
    rfl
  | false =>
    rw [if_neg Bool.false_ne_true]
    have hnumeral (rest : List Char) (hrest : Stops rest) := numeral?_nat n hrest
    cases hn : Text.nat n with
    | nil => exact absurd hn Nat.toDigits_ne_nil
    | cons c front =>
      have hc : isDigit c = true := isDigit_of_mem_nat (n := n) (by simp [hn])
      rw [hn] at hnumeral
      refine Lexes.token (isSpace_digit hc) fun rest hrest => ?_
      rw [token?_digit hc, ← List.cons_append, hnumeral rest hrest]
      rfl

def Piece.of (c : Char) : Piece :=
  if c.toNat < 0x20 ∧ c ∉ ['\x08', '\x09', '\x0a', '\x0c', '\x0d'] then .unit c.toNat else .char c

theorem hexDigits?_hex {n : Nat} (h : n < 0x20) :
    hexDigits? '0' '0' (Nat.digitChar (n / 16)) (Nat.digitChar (n % 16)) = some n := by
  have hall : ∀ n < 0x20,
      hexDigits? '0' '0' (Nat.digitChar (n / 16)) (Nat.digitChar (n % 16)) = some n := by decide
  exact hall n h

theorem escape_cases (c : Char) :
    (∃ l, l ≠ 'u' ∧ letter? l = some c ∧ escape c = ['\\', l] ∧ Piece.of c = .char c) ∨
    (c.toNat < 0x20 ∧ Piece.of c = .unit c.toNat ∧ escape c =
      ['\\', 'u', '0', '0', Nat.digitChar (c.toNat / 16), Nat.digitChar (c.toNat % 16)]) ∨
    (0x20 ≤ c.toNat ∧ c ≠ '\x22' ∧ c ≠ '\\' ∧ escape c = [c] ∧ Piece.of c = .char c) := by
  unfold escape
  split
  · next h => exact .inl ⟨'\x22', by decide, by subst h; rfl, rfl, h ▸ rfl⟩
  split
  · next h => exact .inl ⟨'\\', by decide, by subst h; rfl, rfl, h ▸ rfl⟩
  split
  · next h => exact .inl ⟨'b', by decide, h ▸ rfl, rfl, h ▸ rfl⟩
  split
  · next h => exact .inl ⟨'t', by decide, h ▸ rfl, rfl, h ▸ rfl⟩
  split
  · next h => exact .inl ⟨'n', by decide, h ▸ rfl, rfl, h ▸ rfl⟩
  split
  · next h => exact .inl ⟨'f', by decide, h ▸ rfl, rfl, h ▸ rfl⟩
  split
  · next h => exact .inl ⟨'r', by decide, h ▸ rfl, rfl, h ▸ rfl⟩
  split
  · next hquote hback hb ht hn hf hr hlow =>
    refine .inr (.inl ⟨hlow, by simp [Piece.of, hlow, hb, ht, hn, hf, hr], ?_⟩)
    have hbyte : (UInt8.ofNat c.toNat).toNat = c.toNat := by
      rw [UInt8.toNat_ofNat']
      omega
    simp [Text.hex, hbyte]
  · next hquote hback _ _ _ _ _ hhigh =>
    exact .inr (.inr ⟨by omega, hquote, hback, rfl, by simp [Piece.of, hhigh]⟩)

theorem pieces?_escape (c : Char) (s : List Char) :
    pieces? (escape c ++ s) = (pieces? s).map fun (pieces, rest) => (.of c :: pieces, rest) := by
  obtain ⟨l, hl, hc, he, hp⟩ | ⟨hlow, hp, he⟩ | ⟨hhigh, hquote, hback, he, hp⟩ := escape_cases c
  · rw [he, hp, List.cons_append, List.singleton_append]
    rw [pieces?, hc]
    · cases pieces? s <;> rfl
    · exact fun _ _ _ _ _ h => absurd h hl
  · rw [he, hp]
    simp only [List.cons_append, List.nil_append, pieces?, hexDigits?_hex hlow]
    cases pieces? s <;> rfl
  · rw [he, hp, List.singleton_append]
    have hlow : ¬ c.toNat < 0x20 := by omega
    simp [pieces?, hback, hlow]

theorem pieces?_flatMap_escape (l rest : List Char) :
    pieces? (l.flatMap escape ++ '\x22' :: rest) = some (l.map Piece.of, rest) := by
  induction l with
  | nil => rfl
  | cons c l ih => rw [List.flatMap_cons, List.append_assoc, pieces?_escape, ih]; rfl

theorem join?_map_of (l : List Char) : join? (l.map Piece.of) = some l := by
  induction l with
  | nil => rfl
  | cons c l ih =>
    rw [List.map_cons]
    obtain ⟨-, -, -, -, hp⟩ | ⟨hlow, hp, -⟩ | ⟨-, -, -, -, hp⟩ := escape_cases c
    · rw [hp, join?, ih]
      rfl
    · have hunit : c.toNat < 0xD800 := by omega
      rw [hp]
      unfold join?
      simp [ih, hunit, Char.ofNat_toNat]
    · rw [hp, join?, ih]
      rfl

theorem lexes_quote (s : String) : Lexes (quote s) [.string (some s)] := by
  refine Lexes.token (by decide) fun rest _ => ?_
  change token? '\x22' ((s.toList.flatMap escape ++ ['\x22']) ++ rest) = _
  rw [token?, List.append_assoc, List.singleton_append, pieces?_flatMap_escape]
  simp [join?_map_of]

def Token.IsWhole : Token → Prop
  | .number _ n => ∃ k, n = { whole := Text.nat k }
  | _ => True

def IsWhole (j : Json) : Prop := ∀ t ∈ j.tokens, t.IsWhole

@[simp] theorem isWhole_null : null.IsWhole := List.forall_mem_singleton.mpr trivial

@[simp] theorem isWhole_bool (b : Bool) : (bool b).IsWhole := List.forall_mem_singleton.mpr trivial

@[simp] theorem isWhole_string (s : String) : (string s).IsWhole :=
  List.forall_mem_singleton.mpr trivial

@[simp] theorem isWhole_array {items : List Json} :
    (array items).IsWhole ↔ ∀ j ∈ items, j.IsWhole := by
  have hitems (items : List Json) :
      (∀ t ∈ itemsTokens items, t.IsWhole) ↔ ∀ j ∈ items, j.IsWhole := by
    induction items with
    | nil => simp [itemsTokens]
    | cons item rest ih =>
      rw [itemsTokens, List.forall_mem_cons, List.forall_mem_append, ih, List.forall_mem_cons]
      exact and_iff_right trivial
  cases items with
  | nil => simp [IsWhole, tokens, Token.IsWhole]
  | cons item rest =>
    rw [IsWhole, tokens, List.forall_mem_cons, List.forall_mem_append, List.forall_mem_append, hitems,
      List.forall_mem_cons]
    simp [IsWhole, Token.IsWhole]

@[simp] theorem isWhole_object {members : List (String × Json)} :
    (object members).IsWhole ↔ ∀ m ∈ members, m.2.IsWhole := by
  have hmembers (members : List (String × Json)) :
      (∀ t ∈ membersTokens members, t.IsWhole) ↔ ∀ m ∈ members, m.2.IsWhole := by
    induction members with
    | nil => simp [membersTokens]
    | cons m rest ih =>
      rw [membersTokens, List.forall_mem_cons, List.forall_mem_cons, List.forall_mem_cons,
        List.forall_mem_append, ih, List.forall_mem_cons]
      simp [IsWhole, Token.IsWhole]
  cases members with
  | nil => simp [IsWhole, tokens, Token.IsWhole]
  | cons m rest =>
    rw [IsWhole, tokens, List.forall_mem_cons, List.forall_mem_cons, List.forall_mem_cons,
      List.forall_mem_append, List.forall_mem_append, hmembers, List.forall_mem_cons]
    simp [IsWhole, Token.IsWhole]

theorem stops_cons {c : Char} (h : c ∈ [',', ':', ']', '\x7d']) (rest : List Char) :
    Stops (c :: rest) := by
  intro d hd
  obtain rfl : c = d := Option.some.inj hd
  simp only [List.mem_cons, List.not_mem_nil, or_false] at h
  obtain rfl | rfl | rfl | rfl := h <;> decide

theorem stops_itemsText (items : List Json) {rest : List Char} (h : Stops rest) :
    Stops (itemsText items ++ rest) := by
  cases items with
  | nil => exact h
  | cons item items => exact stops_cons (by decide) _

theorem stops_membersText (members : List (String × Json)) {rest : List Char} (h : Stops rest) :
    Stops (membersText members ++ rest) := by
  cases members with
  | nil => exact h
  | cons m members => exact stops_cons (by decide) _

theorem lexes_garbled : Lexes garbled.text [.string none] := by
  refine Lexes.token (by decide) fun rest _ => ?_
  have hunit : hexDigits? 'd' '8' '0' '0' = some 0xD800 := by decide
  have hpieces : pieces? ('\\' :: 'u' :: 'd' :: '8' :: '0' :: '0' :: '\x22' :: rest) =
      some ([.unit 0xD800], rest) := by
    rw [pieces?, hunit]
    rfl
  have hjoin : join? [.unit 0xD800] = none := by decide
  change token? '\x22' ('\\' :: 'u' :: 'd' :: '8' :: '0' :: '0' :: '\x22' :: rest) = _
  rw [token?, hpieces]
  simp [hjoin]

theorem Lexes.close {c : Char} {s : List Char} {t : Token} {ts : List Token} (h : Lexes s ts)
    (hc : c ∈ [',', ':', ']', '\x7d']) (hspace : isSpace c = false)
    (htoken : ∀ rest, token? c rest = some (t, rest)) : Lexes (s ++ [c]) (ts ++ [t]) :=
  h.append (.cons hspace htoken .nil) fun rest _ => stops_cons hc rest

theorem Lexes.member {s : List Char} {ts : List Token} (h : Lexes s ts) (name : String) :
    Lexes (quote name ++ ':' :: s) (.string (some name) :: .colon :: ts) :=
  (lexes_quote name).append (.cons (by decide) (fun _ => rfl) h) fun _ _ => stops_cons (by decide) _

mutual

theorem lexes_text : ∀ {j : Json}, j.IsWhole → Lexes j.text j.tokens
  | null, _ => .token (by decide) fun _ _ => rfl
  | bool true, _ => .token (by decide) fun _ _ => rfl
  | bool false, _ => .token (by decide) fun _ _ => rfl
  | number negative n, h => by
    obtain ⟨k, rfl⟩ := h _ (List.mem_singleton_self _)
    exact lexes_number negative k
  | string s, _ => lexes_quote s
  | garbled, _ => lexes_garbled
  | array [], _ => .cons (by decide) (fun _ => rfl) (.cons (by decide) (fun _ => rfl) .nil)
  | array (item :: rest), h => by
    rw [IsWhole, tokens, List.forall_mem_cons, List.forall_mem_append, List.forall_mem_append] at h
    obtain ⟨-, hitem, hrest, -⟩ := h
    have hitems := (lexes_text hitem).append (lexes_itemsText hrest) fun _ => stops_itemsText rest
    rw [tokens, ← List.append_assoc]
    exact .cons (by decide) (fun _ => rfl) (hitems.close (by decide) (by decide) fun _ => rfl)
  | object [], _ => .cons (by decide) (fun _ => rfl) (.cons (by decide) (fun _ => rfl) .nil)
  | object ((name, value) :: rest), h => by
    rw [IsWhole, tokens, List.forall_mem_cons, List.forall_mem_cons, List.forall_mem_cons,
      List.forall_mem_append, List.forall_mem_append] at h
    obtain ⟨-, -, -, hvalue, hrest, -⟩ := h
    have hmembers := ((lexes_text hvalue).member name).append (lexes_membersText hrest)
      fun _ => stops_membersText rest
    rw [tokens, ← List.append_assoc]
    exact .cons (by decide) (fun _ => rfl) (hmembers.close (by decide) (by decide) fun _ => rfl)

theorem lexes_itemsText : ∀ {items : List Json}, (∀ t ∈ itemsTokens items, t.IsWhole) →
    Lexes (itemsText items) (itemsTokens items)
  | [], _ => .nil
  | item :: rest, h => by
    rw [itemsTokens, List.forall_mem_cons, List.forall_mem_append] at h
    refine .cons (by decide) (fun _ => rfl) ?_
    exact (lexes_text h.2.1).append (lexes_itemsText h.2.2) fun _ => stops_itemsText rest

theorem lexes_membersText : ∀ {members : List (String × Json)},
    (∀ t ∈ membersTokens members, t.IsWhole) → Lexes (membersText members) (membersTokens members)
  | [], _ => .nil
  | (name, value) :: rest, h => by
    rw [membersTokens, List.forall_mem_cons, List.forall_mem_cons, List.forall_mem_cons,
      List.forall_mem_append] at h
    obtain ⟨-, -, -, hvalue, hrest⟩ := h
    refine .cons (by decide) (fun _ => rfl) ?_
    exact ((lexes_text hvalue).member name).append (lexes_membersText hrest)
      fun _ => stops_membersText rest

end

theorem parse?_text {j : Json} (h : j.IsWhole) : parse? j.text = some j := by
  have hstops : Stops [] := fun _ hc => by cases hc
  have htokens : tokens? j.text = some j.tokens := by
    have hlexes := lexes_text h 0 [] [] hstops rfl
    rwa [List.append_nil, List.append_nil, Nat.zero_add] at hlexes
  have hread := read?_tokens j (2 * j.tokens.length + 1) [] (by omega)
  rw [List.append_nil] at hread
  simp [parse?, htokens, hread]

mutual

def depth : Json → Nat
  | array items => itemsDepth items + 1
  | object members => membersDepth members + 1
  | _ => 0

def itemsDepth : List Json → Nat
  | [] => 0
  | item :: rest => max (depth item) (itemsDepth rest)

def membersDepth : List (String × Json) → Nat
  | [] => 0
  | (_, value) :: rest => max (depth value) (membersDepth rest)

end

mutual

theorem clip_of_depth_le : ∀ {j : Json} {limit : Nat}, j.depth ≤ limit → j.clip limit = j
  | null, limit, _ => by cases limit <;> rfl
  | bool _, limit, _ => by cases limit <;> rfl
  | number _ _, limit, _ => by cases limit <;> rfl
  | string _, limit, _ => by cases limit <;> rfl
  | garbled, limit, _ => by cases limit <;> rfl
  | array items, 0, h => by simp [depth] at h
  | array items, limit + 1, h => by
    rw [clip, clipItems_of_depth_le (by simpa [depth] using h)]
  | object members, 0, h => by simp [depth] at h
  | object members, limit + 1, h => by
    rw [clip, clipMembers_of_depth_le (by simpa [depth] using h)]

theorem clipItems_of_depth_le : ∀ {items : List Json} {limit : Nat}, itemsDepth items ≤ limit →
    clipItems limit items = items
  | [], _, _ => rfl
  | item :: rest, limit, h => by
    obtain ⟨hitem, hrest⟩ := Nat.max_le.mp h
    rw [clipItems, clip_of_depth_le hitem, clipItems_of_depth_le hrest]

theorem clipMembers_of_depth_le : ∀ {members : List (String × Json)} {limit : Nat},
    membersDepth members ≤ limit → clipMembers limit members = members
  | [], _, _ => rfl
  | (name, value) :: rest, limit, h => by
    obtain ⟨hvalue, hrest⟩ := Nat.max_le.mp h
    rw [clipMembers, clip_of_depth_le hvalue, clipMembers_of_depth_le hrest]

end

end Json

end EntityQuery
