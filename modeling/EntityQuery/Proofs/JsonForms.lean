import EntityQuery.Proofs.JsonSpellings
import EntityQuery.Proofs.JsonTexts

namespace EntityQuery

def Scalar.isFloat : Scalar → Bool
  | .float _ => true
  | _ => false

namespace Value

mutual

def hasFloat : Value → Bool
  | .scalar s => s.isFloat
  | .list values => anyFloat values

def anyFloat : List Value → Bool
  | [] => false
  | v :: rest => v.hasFloat || anyFloat rest

end

end Value

def Test.hasFloat : Test → Bool
  | .compare _ v => v.hasFloat
  | .between low high _ => low.hasFloat || high.hasFloat
  | .oneOf values _ => Value.anyFloat values
  | .isNull _ => false
  | .datePart _ _ v => v.hasFloat

namespace Condition

mutual

def hasFloat : Condition → Bool
  | .test _ _ t => t.hasFloat
  | .group _ members => anyFloat members

def anyFloat : List Condition → Bool
  | [] => false
  | c :: rest => c.hasFloat || anyFloat rest

end

end Condition

def JoinTest.hasFloat : JoinTest → Bool
  | .columns .. => false
  | .value _ v => v.hasFloat

def Join.hasFloat (j : Join) : Bool := j.tests.any JoinTest.hasFloat

def Statement.hasFloat (s : Statement) : Bool := Value.anyFloat s.bindings

namespace Json

/-- A datum that is read back from its JSON form, with whole numbers only in it. -/
structure RoundTrips {α : Type} [Codec α] (a : α) : Prop where
  whole : (encode a).IsWhole
  decode : decode? (encode a) = some a

/-- A type all of whose data are read back from their JSON forms. -/
class LawfulCodec (α : Type) [Codec α] : Prop where
  roundTrips (a : α) : RoundTrips a

section Parts

variable {α : Type} [Codec α] [LawfulCodec α]

@[simp] theorem isWhole_encode (a : α) : (encode a).IsWhole := (LawfulCodec.roundTrips a).whole

@[simp] theorem decode?_encode (a : α) : decode? (encode a) = some a :=
  (LawfulCodec.roundTrips a).decode

end Parts

@[simp] theorem isWhole_ofInt (n : Int) : (ofInt n).IsWhole :=
  List.forall_mem_singleton.mpr ⟨_, rfl⟩

@[simp] theorem isWhole_variant {name : String} {payload : Json} :
    (variant name payload).IsWhole ↔ payload.IsWhole := by
  simp [variant]

theorem digitsValue_nat (n : Nat) : digitsValue (Text.nat n) = n :=
  Nat.ofDigitChars_eq_foldl.symm.trans Nat.ofDigitChars_ten_toDigits

theorem int?_ofInt (n : Int) : int? (ofInt n) = some n := by
  unfold int? ofInt
  simp only [List.isEmpty_nil, Option.isNone_none, Bool.and_self, if_true, digitsValue_nat]
  by_cases hn : n < 0
  · obtain ⟨k, rfl⟩ : ∃ k : Nat, n = -((k + 1 : Nat) : Int) := ⟨n.natAbs - 1, by omega⟩
    rw [decide_eq_true hn, Int.natAbs_neg, Int.natAbs_natCast]
    rfl
  · rw [decide_eq_false hn]
    exact congrArg some (Int.natAbs_of_nonneg (by omega))

instance : LawfulCodec Bool where
  roundTrips b := ⟨isWhole_bool b, rfl⟩

instance : LawfulCodec String where
  roundTrips s := ⟨isWhole_string s, rfl⟩

instance : LawfulCodec Int64 where
  roundTrips n := by
    refine ⟨isWhole_ofInt _, ?_⟩
    have hrange : Int64.minValue.toInt ≤ n.toInt ∧ n.toInt ≤ Int64.maxValue.toInt :=
      ⟨n.minValue_le_toInt, n.toInt_le⟩
    change (int? (ofInt n.toInt)).bind _ = _
    rw [int?_ofInt, Option.bind_some, if_pos hrange, Int64.ofInt_toInt]

instance : LawfulCodec UInt8 where
  roundTrips n := by
    refine ⟨isWhole_ofInt _, ?_⟩
    have hrange : (0 : Int) ≤ n.toNat ∧ (n.toNat : Int) < 256 :=
      ⟨by omega, by have := n.toNat_lt; omega⟩
    change (int? (ofInt n.toNat)).bind _ = _
    rw [int?_ofInt, Option.bind_some, if_pos hrange, Int.toNat_natCast, UInt8.ofNat_toNat]

section List

variable {α : Type} [Codec α]

theorem RoundTrips.list {l : List α} (h : ∀ a ∈ l, RoundTrips a) : RoundTrips l where
  whole := by
    refine isWhole_array.mpr fun j hj => ?_
    obtain ⟨a, ha, rfl⟩ := List.mem_map.mp hj
    exact (h a ha).whole
  decode := by
    change (l.map encode).mapM decode? = some l
    induction l with
    | nil => rfl
    | cons a rest ih =>
      obtain ⟨ha, hrest⟩ := List.forall_mem_cons.mp h
      simp [ha.decode, ih hrest]

instance [LawfulCodec α] : LawfulCodec (List α) where
  roundTrips _ := .list fun a _ => LawfulCodec.roundTrips a

end List

/-- A text is not null, so that a text that is left out can be told from every other one. -/
instance : LawfulCodec (Option String) where
  roundTrips s := by
    cases s with
    | none => exact ⟨isWhole_null, rfl⟩
    | some s => exact ⟨isWhole_string s, rfl⟩

theorem bind_fields? {β : Type} (k : List (Option Json) → Option β) (fields : List (String × Json))
    (hn : (fields.map Prod.fst).Nodup) :
    (fields? (fields.map Prod.fst) (object fields)).bind k = k (fields.map fun f => some f.2) := by
  rw [fields?, objectFields?_self fields hn]
  rfl

@[simp] theorem required?_encode {α : Type} [Codec α] [LawfulCodec α] (a : α) :
    required? (some (encode a)) = some a :=
  decode?_encode a

@[simp] theorem optional?_encode (s : Option String) : optional? (some (encode s)) = some s :=
  decode?_encode s

@[simp] theorem orElse?_encode {α : Type} [Codec α] [LawfulCodec α] (default a : α) :
    orElse? default (some (encode a)) = some a :=
  decode?_encode a

instance : LawfulCodec Operator where
  roundTrips o := ⟨isWhole_string _, by cases o <;> rfl⟩

instance : LawfulCodec Connective where
  roundTrips c := ⟨isWhole_string _, by cases c <;> rfl⟩

instance : LawfulCodec DatePart where
  roundTrips p := ⟨isWhole_string _, by cases p <;> rfl⟩

instance : LawfulCodec Direction where
  roundTrips d := ⟨isWhole_string _, by cases d <;> rfl⟩

instance : LawfulCodec SortScope where
  roundTrips s := ⟨isWhole_string _, by cases s <;> rfl⟩

instance : LawfulCodec JoinType where
  roundTrips t := ⟨isWhole_string _, by cases t <;> rfl⟩

instance : LawfulCodec StorageType where
  roundTrips t := ⟨isWhole_string _, by cases t <;> rfl⟩

instance : LawfulCodec Dialect where
  roundTrips d := ⟨isWhole_string _, by cases d <;> rfl⟩

instance : LawfulCodec Column where
  roundTrips c :=
    ⟨isWhole_object.mpr (by simp),
      (bind_fields? _ [("table", encode c.table), ("name", encode c.name)] (by simp)).trans (by simp)⟩

instance : LawfulCodec SortKey where
  roundTrips k :=
    ⟨isWhole_object.mpr (by simp),
      (bind_fields? _ [("column", encode k.column), ("direction", encode k.direction)]
        (by simp)).trans (by simp)⟩

instance : LawfulCodec SelectItem where
  roundTrips
    | .all => ⟨isWhole_string _, rfl⟩
    | .attributes => ⟨isWhole_string _, rfl⟩
    | .allOf table => ⟨isWhole_variant.mpr (isWhole_encode table), rfl⟩
    | .column column label =>
      ⟨isWhole_variant.mpr (isWhole_object.mpr (by simp)),
        (bind_fields? _ [("column", encode column), ("alias", encode label)] (by simp)).trans
          (by simp)⟩

instance : LawfulCodec Entity where
  roundTrips e :=
    ⟨isWhole_object.mpr (by simp),
      (bind_fields? _ [("code", encode e.code), ("table", encode e.table),
        ("key_column", encode e.key)] (by simp)).trans (by simp)⟩

instance : LawfulCodec Attribute where
  roundTrips
    | .static code column type =>
      ⟨isWhole_variant.mpr (isWhole_object.mpr (by simp)),
        (bind_fields? _ [("code", encode code), ("column", encode column),
          ("sql_type", encode type)] (by simp)).trans (by simp)⟩
    | .dynamic id code table type =>
      ⟨isWhole_variant.mpr (isWhole_object.mpr (by simp)),
        (bind_fields? _ [("id", encode id), ("code", encode code), ("table", encode table),
          ("sql_type", encode type)] (by simp)).trans (by simp)⟩

instance : LawfulCodec Naming where
  roundTrips n :=
    ⟨isWhole_object.mpr (by simp),
      (bind_fields? _ [("attribute_wildcard", encode n.wildcard),
        ("join_alias_suffix", encode n.labelSuffix), ("value_column", encode n.valueColumn),
        ("entity_key_column", encode n.entityColumn),
        ("attribute_key_column", encode n.attributeColumn),
        ("default_timestamp_column", encode n.timestampColumn)] (by simp)).trans (by simp)⟩

theorem roundTrips_scalar {s : Scalar} (h : s.isFloat = false) :
    (encodeScalar s).IsWhole ∧ decodeScalar? (encodeScalar s) = some s := by
  cases s with
  | null => exact ⟨isWhole_string _, rfl⟩
  | bool b =>
    exact ⟨isWhole_variant.mpr (isWhole_encode b), congrArg (Scalar.bool <$> ·) (decode?_encode b)⟩
  | int n =>
    exact ⟨isWhole_variant.mpr (isWhole_encode n), congrArg (Scalar.int <$> ·) (decode?_encode n)⟩
  | float x => cases h
  | string s =>
    exact ⟨isWhole_variant.mpr (isWhole_encode s), congrArg (Scalar.string <$> ·) (decode?_encode s)⟩
  | bytes b =>
    exact ⟨isWhole_variant.mpr (isWhole_encode b), congrArg (Scalar.bytes <$> ·) (decode?_encode b)⟩
  | timestamp n =>
    exact ⟨isWhole_variant.mpr (isWhole_encode n),
      congrArg (Scalar.timestamp <$> ·) (decode?_encode n)⟩

theorem decodeValue?_encodeScalar (s : Scalar) :
    decodeValue? (encodeScalar s) = .scalar <$> decodeScalar? (encodeScalar s) := by
  have hvariant {name : String} (h : name ≠ "List") (payload : Json) :
      decodeValue? (variant name payload) = .scalar <$> decodeScalar? (variant name payload) := by
    cases payload <;> simp [variant, decodeValue?, h]
  cases s with
  | null => rfl
  | _ => exact hvariant (by decide) _

theorem encodeValues_eq (values : List Value) : encodeValues values = values.map encode := by
  induction values with
  | nil => rfl
  | cons v rest ih => rw [encodeValues, ih]; rfl

theorem decodeValues?_eq (items : List Json) : decodeValues? items = items.mapM decode? := by
  induction items with
  | nil => rfl
  | cons j rest ih => rw [decodeValues?, List.mapM_cons, ih]; rfl

mutual

theorem roundTrips_value : ∀ {v : Value}, v.hasFloat = false → RoundTrips v
  | .scalar s, h => by
    obtain ⟨hwhole, hread⟩ := roundTrips_scalar h
    refine ⟨hwhole, (decodeValue?_encodeScalar s).trans ?_⟩
    rw [hread]
    rfl
  | .list values, h => by
    have hvalues := RoundTrips.list (roundTrips_of_anyFloat h)
    have hencode : encode (Value.list values) = variant "List" (encode values) :=
      congrArg (fun items => variant "List" (array items)) (encodeValues_eq values)
    have hdecode : decode? (variant "List" (encode values)) = Value.list <$> decode? (encode values) :=
      congrArg (Value.list <$> ·) (decodeValues?_eq _)
    refine ⟨?_, ?_⟩
    · rw [hencode]
      exact isWhole_variant.mpr hvalues.whole
    · rw [hencode, hdecode, hvalues.decode]
      rfl

theorem roundTrips_of_anyFloat : ∀ {values : List Value}, Value.anyFloat values = false →
    ∀ v ∈ values, RoundTrips v
  | [], _ => List.forall_mem_nil _
  | v :: rest, h => by
    obtain ⟨hv, hrest⟩ := Bool.or_eq_false_iff.mp h
    exact List.forall_mem_cons.mpr ⟨roundTrips_value hv, roundTrips_of_anyFloat hrest⟩

end

theorem RoundTrips.required {α : Type} [Codec α] {a : α} (h : RoundTrips a) :
    required? (some (encode a)) = some a :=
  h.decode

theorem roundTrips_test (connective : Connective) (column : Column) {t : Test}
    (h : t.hasFloat = false) :
    (encodeTest connective column t).IsWhole ∧
      decodeTest? (encodeTest connective column t) = some (.test connective column t) := by
  simp only [decodeTest?, encodeTest, variant, variant?]
  cases t with
  | compare op v =>
    have hv := roundTrips_value h
    refine ⟨isWhole_variant.mpr (isWhole_object.mpr (by simp [hv.whole])), ?_⟩
    exact (bind_fields? _ [("column", encode column), ("operator", encode op), ("value", encode v),
      ("boolean", encode connective)] (by simp)).trans (by simp [hv.required])
  | between low high negated =>
    obtain ⟨hlow, hhigh⟩ := Bool.or_eq_false_iff.mp h
    have hlow := roundTrips_value hlow
    have hhigh := roundTrips_value hhigh
    refine ⟨isWhole_variant.mpr (isWhole_object.mpr (by simp [hlow.whole, hhigh.whole])), ?_⟩
    exact (bind_fields? _ [("column", encode column), ("low", encode low), ("high", encode high),
      ("boolean", encode connective), ("not", encode negated)] (by simp)).trans
      (by simp [hlow.required, hhigh.required])
  | oneOf values negated =>
    have hvalues := RoundTrips.list (roundTrips_of_anyFloat h)
    refine ⟨isWhole_variant.mpr (isWhole_object.mpr (by simp [hvalues.whole])), ?_⟩
    exact (bind_fields? _ [("column", encode column), ("values", encode values),
      ("boolean", encode connective), ("not", encode negated)] (by simp)).trans
      (by simp [hvalues.required])
  | isNull negated =>
    refine ⟨isWhole_variant.mpr (isWhole_object.mpr (by simp)), ?_⟩
    exact (bind_fields? _ [("column", encode column), ("boolean", encode connective),
      ("not", encode negated)] (by simp)).trans (by simp)
  | datePart part op v =>
    have hv := roundTrips_value h
    refine ⟨isWhole_variant.mpr (isWhole_object.mpr (by simp [hv.whole])), ?_⟩
    exact (bind_fields? _ [("part", encode part), ("column", encode column), ("operator", encode op),
      ("value", encode v), ("boolean", encode connective)] (by simp)).trans (by simp [hv.required])

theorem decodeCondition?_encodeTest (connective : Connective) (column : Column) (t : Test) :
    decodeCondition? (encodeTest connective column t) =
      decodeTest? (encodeTest connective column t) := by
  have hvariant {name : String} (h : name ≠ "Nested") (payload : Json) :
      decodeCondition? (variant name payload) = decodeTest? (variant name payload) := by
    simp [variant, decodeCondition?, h]
  cases t <;> exact hvariant (by decide) _

theorem encodeConditions_eq (members : List Condition) :
    encodeConditions members = members.map encode := by
  induction members with
  | nil => rfl
  | cons c rest ih => rw [encodeConditions, ih]; rfl

theorem decodeConditions?_eq (items : List Json) : decodeConditions? items = items.mapM decode? := by
  induction items with
  | nil => rfl
  | cons j rest ih => rw [decodeConditions?, List.mapM_cons, ih]; rfl

theorem decodeGroup?_object (connective : Connective) (items : List Json) :
    decodeGroup? (object [("clauses", array items), ("boolean", encode connective)]) =
      .group connective <$> decodeConditions? items := by
  rw [decodeGroup?_eq]
  refine (bind_fields? groupOf? [("clauses", array items), ("boolean", encode connective)]
    (by simp)).trans ?_
  cases h : decodeConditions? items <;> simp [groupOf?, groupMembers?, h]

mutual

theorem roundTrips_condition : ∀ {c : Condition}, c.hasFloat = false → RoundTrips c
  | .test connective column t, h => by
    obtain ⟨hwhole, hread⟩ := roundTrips_test connective column h
    exact ⟨hwhole, (decodeCondition?_encodeTest connective column t).trans hread⟩
  | .group connective members, h => by
    have hmembers := RoundTrips.list (roundTrips_of_anyFloat_conditions h)
    have hencode : encode (Condition.group connective members) =
        variant "Nested" (object [("clauses", encode members), ("boolean", encode connective)]) :=
      congrArg (fun items => variant "Nested" (object [("clauses", array items), _]))
        (encodeConditions_eq members)
    have hdecode : decode? (encode (Condition.group connective members)) =
        Condition.group connective <$> decode? (encode members) := by
      rw [hencode]
      exact (decodeGroup?_object connective _).trans
        (congrArg (Condition.group connective <$> ·) (decodeConditions?_eq _))
    refine ⟨?_, ?_⟩
    · rw [hencode]
      exact isWhole_variant.mpr (isWhole_object.mpr (by simp [hmembers.whole]))
    · rw [hdecode, hmembers.decode]
      rfl

theorem roundTrips_of_anyFloat_conditions : ∀ {members : List Condition},
    Condition.anyFloat members = false → ∀ c ∈ members, RoundTrips c
  | [], _ => List.forall_mem_nil _
  | c :: rest, h => by
    obtain ⟨hc, hrest⟩ := Bool.or_eq_false_iff.mp h
    exact List.forall_mem_cons.mpr ⟨roundTrips_condition hc, roundTrips_of_anyFloat_conditions hrest⟩

end

theorem roundTrips_joinTest {t : JoinTest} (h : t.hasFloat = false) : RoundTrips t := by
  cases t with
  | columns left right =>
    refine ⟨isWhole_variant.mpr (isWhole_object.mpr (by simp)), ?_⟩
    exact (bind_fields? _ [("left", encode left), ("right", encode right)] (by simp)).trans (by simp)
  | value column v =>
    have hv := roundTrips_value h
    refine ⟨isWhole_variant.mpr (isWhole_object.mpr (by simp [hv.whole])), ?_⟩
    exact (bind_fields? _ [("column", encode column), ("value", encode v)] (by simp)).trans
      (by simp [hv.required])

theorem roundTrips_join {j : Join} (h : j.hasFloat = false) : RoundTrips j := by
  have htests : RoundTrips j.tests := .list fun t ht =>
    roundTrips_joinTest (by simpa using List.any_eq_false.mp h t ht)
  refine ⟨isWhole_object.mpr (by simp [htests.whole]), ?_⟩
  exact (bind_fields? _ [("kind", encode j.type), ("table", encode j.table), ("alias", encode j.label),
    ("conditions", encode j.tests)] (by simp)).trans (by simp [htests.required])

theorem roundTrips_statement {s : Statement} (h : s.hasFloat = false) : RoundTrips s := by
  have hbindings := RoundTrips.list (roundTrips_of_anyFloat h)
  refine ⟨isWhole_object.mpr (by simp [hbindings.whole]), ?_⟩
  exact (bind_fields? _ [("sql", encode s.sql), ("bindings", encode s.bindings)] (by simp)).trans
    (by simp [hbindings.required])

def ofDeepText? {α : Type} [Codec α] (s : String) : Option α := (parse? s.toList).bind decode?

theorem RoundTrips.ofDeepText?_write {α : Type} [Codec α] {a : α} (h : RoundTrips a) :
    ofDeepText? (write a) = some a := by
  rw [ofDeepText?, write, String.toList_ofList, parse?_text h.whole, Option.bind_some, h.decode]

theorem RoundTrips.ofText?_write {α : Type} [Codec α] {a : α} (h : RoundTrips a)
    (hdepth : (encode a).depth ≤ maxDepth) : ofText? (write a) = some a := by
  rw [ofText?, write, String.toList_ofList, parse?_text h.whole, Option.bind_some,
    clip_of_depth_le hdepth, h.decode]

def restate? (α : Type) [Codec α] (s : String) : Option String :=
  (ofDeepText? s : Option α).map write

/-- The texts of a type tell its data: those of data without a floating-point number are read back, with
the limit to the depth as well where they are within it, and so differ for different data. A text that
is written for what any text holds is settled. -/
structure Faithful (α : Type) [Codec α] (hasFloat : α → Bool := fun _ => false) : Prop where
  read : ∀ a : α, hasFloat a = false → ofDeepText? (write a) = some a
  within : ∀ a : α, hasFloat a = false → (encode a).depth ≤ maxDepth → ofText? (write a) = some a
  distinct : ∀ a b : α, hasFloat a = false → hasFloat b = false → write a = write b → a = b
  settled : ∀ s t : String, (∀ a : α, ofDeepText? s = some a → hasFloat a = false) →
    restate? α s = some t → restate? α t = some t

theorem Faithful.of_roundTrips {α : Type} [Codec α] {hasFloat : α → Bool}
    (h : ∀ a : α, hasFloat a = false → RoundTrips a) : Faithful α hasFloat where
  read a ha := (h a ha).ofDeepText?_write
  within a ha := (h a ha).ofText?_write
  distinct a b ha hb heq := by
    have hread := (h a ha).ofDeepText?_write
    rw [heq, (h b hb).ofDeepText?_write] at hread
    exact (Option.some.inj hread).symm
  settled s t hs ht := by
    obtain ⟨a, ha, rfl⟩ := Option.map_eq_some_iff.mp ht
    rw [restate?, (h a (hs a ha)).ofDeepText?_write]
    rfl

theorem Faithful.of_lawful (α : Type) [Codec α] [LawfulCodec α] : Faithful α :=
  .of_roundTrips fun a _ => LawfulCodec.roundTrips a

/-- All forms tell their data, and besides the forms that are written the usual others are accepted. -/
theorem faithful_forms :
    Faithful Value Value.hasFloat ∧ Faithful Condition Condition.hasFloat ∧
    Faithful JoinTest JoinTest.hasFloat ∧ Faithful Join Join.hasFloat ∧
    Faithful Statement Statement.hasFloat ∧
    Faithful SelectItem ∧ Faithful Column ∧ Faithful SortKey ∧
    Faithful Attribute ∧ Faithful Entity ∧ Faithful Naming ∧
    Faithful Operator ∧ Faithful Connective ∧ Faithful DatePart ∧ Faithful Direction ∧
    Faithful SortScope ∧ Faithful JoinType ∧ Faithful StorageType ∧ Faithful Dialect ∧
    AcceptsForms :=
  ⟨.of_roundTrips fun _ => roundTrips_value, .of_roundTrips fun _ => roundTrips_condition,
    .of_roundTrips fun _ => roundTrips_joinTest, .of_roundTrips fun _ => roundTrips_join,
    .of_roundTrips fun _ => roundTrips_statement,
    .of_lawful _, .of_lawful _, .of_lawful _, .of_lawful _, .of_lawful _, .of_lawful _, .of_lawful _,
    .of_lawful _, .of_lawful _, .of_lawful _, .of_lawful _, .of_lawful _, .of_lawful _, .of_lawful _,
    acceptsForms⟩

example : ofDeepText? "[null, \"price\"]" = some (Column.bare "price") := by decide +kernel

example : ofDeepText? "\x7b\"unit\":[1], \"name\":\"price\"\x7d" = some (Column.bare "price") := by
  decide +kernel

example : (ofDeepText? "\x7b\"Null\":null\x7d" : Option Value) = some .null ∧
    (ofDeepText? "\x7b\"String\":\"Null\"\x7d" : Option Value) = some (.string "Null") := by
  decide +kernel

end Json

end EntityQuery
