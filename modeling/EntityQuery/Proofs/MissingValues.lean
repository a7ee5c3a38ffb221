import EntityQuery.Proofs.ClauseTexts
import EntityQuery.Proofs.NullOperands
import EntityQuery.Proofs.Rows

namespace EntityQuery

open Fragment

namespace Truth

def not : Truth → Truth
  | no => yes
  | unknown => unknown
  | yes => no

def signed (negated : Bool) (t : Truth) : Truth := if negated then t.not else t

@[simp] theorem signed_unknown (negated : Bool) : signed negated unknown = unknown := by
  cases negated <;> rfl

end Truth

/-- What a database makes of values that are not null: the values of functions, and the outcome of
comparisons. A value that is cast is a value. -/
structure Database where
  call : Wrapper → Scalar → Scalar
  compare : String → Scalar → Scalar → Truth
  cast : ∀ s, s ≠ .null → call ("cast(", " as text)") s ≠ .null

namespace Database

variable (db : Database)

def apply (f : Wrapper) (s : Scalar) : Scalar :=
  if f = ("", "") then s else if s = .null then .null else db.call f s

/-- A comparison with null is unknown, unless null is a value like any other for it. -/
def test (op : String) (l r : Scalar) : Truth :=
  if l = .null ∨ r = .null then
    if op ∈ nullSafe then .ofBool (decide (l = r)) else .unknown
  else db.compare op l r

@[simp] theorem apply_null (f : Wrapper) : db.apply f .null = .null := by
  unfold apply
  split <;> rfl

theorem apply_dateOperand (d : Dialect) {s : Scalar} (h : s ≠ .null) :
    db.apply d.dateOperand s ≠ .null := by
  unfold apply
  cases d with
  | sqlite =>
    rw [if_neg (by decide), if_neg h]
    exact db.cast s h
  | mysql => exact h
  | postgres => exact h

theorem test_null {op : String} (h : op ∉ nullSafe) (r : Scalar) : db.test op .null r = .unknown := by
  unfold test
  rw [if_pos (.inl rfl), if_neg h]

theorem test_null_null {op : String} (h : op ∈ nullSafe) : db.test op .null .null = .yes := by
  unfold test
  rw [if_pos (.inl rfl), if_pos h]
  rfl

theorem test_null_of_ne (op : String) {r : Scalar} (h : r ≠ .null) :
    db.test op .null r = if op ∈ nullSafe then .no else .unknown := by
  unfold test
  rw [if_pos (.inl rfl), decide_eq_false (Ne.symm h)]
  rfl

theorem any_null {values : List Scalar} (h : values ≠ []) :
    values.foldr (fun v t => (db.test "=" .null v).or t) .no = .unknown := by
  have hfold : values.foldr (fun v t => (db.test "=" .null v).or t) .no =
      if values.isEmpty then .no else .unknown := by
    clear h
    induction values with
    | nil => rfl
    | cons v rest ih =>
      rw [List.foldr_cons, ih, db.test_null (by decide)]
      cases rest <;> rfl
  rw [hfold, if_neg (by simpa using h)]

end Database

/-- The value of a predicate for a row. -/
def Predicate.truth (db : Database) (row : Tuple) : Predicate → Truth
  | constant holds => .ofBool holds
  | isNull c negated => .ofBool (decide (row c = .null) != negated)
  | between c low high negated =>
    ((db.test ">=" (row c) low).and (db.test "<=" (row c) high)).signed negated
  | oneOf c values negated =>
    (values.foldr (fun v t => (db.test "=" (row c) v).or t) .no).signed negated
  | compare f c op g v => db.test op (db.apply f (row c)) (db.apply g v)

/-- How a database decides a test by its text. -/
def Database.engine (db : Database) (d : Dialect) : Engine := fun t s =>
  ((t.predicate? d (.bare "")).map (Predicate.truth db fun _ => s)).getD .unknown

namespace Test

/-- What callers may ask: null is compared in the family of equality only, and a part of a date with
values. -/
def Accepted : Test → Prop
  | compare op v => v = .null → op.isEquality = true
  | datePart _ _ v => v ≠ .null
  | _ => True

theorem WellPosed.accepted {t : Test} (h : t.WellPosed) : t.Accepted := by
  cases t with
  | compare op v => exact fun hv => mem_equality.mp (h.1 hv)
  | datePart part op v => exact h.1
  | between | oneOf | isNull => trivial

theorem accepted_of_filter {f : Filter} {t : Test} (h : f.test = .ok t) :
    t.Accepted ∧ ∀ values negated, t = oneOf values negated → f = .oneOf values negated := by
  refine ⟨(wellPosed_of_filter h).accepted, ?_⟩
  rintro values negated rfl
  have h := mapError_eq_ok.mp h
  cases f with
  | compare text v =>
    rw [Filter.resolve] at h
    split at h <;> cases (comparison_eq_ok h).1
  | oneOf values negated =>
    cases h
    rfl
  | between | isNull => cases h
  | datePart part text v =>
    rw [Filter.resolve] at h
    split at h
    · cases h
    · split at h <;> cases h

variable {d : Dialect} {c : Column} {t : Test} {p : Predicate} {row : Tuple} {s : Scalar}

theorem normal_of_ne_null (op : Operator) {v : Value} (h : v ≠ .null) :
    (compare op v).normal = compare op v := by
  unfold normal
  split <;> simp_all

theorem needsValue_of_ne_null (op : Operator) {v : Value} (h : v ≠ .null) :
    (compare op v).needsValue = true := by
  unfold needsValue
  split <;> simp_all

theorem ne_null_of_scalar? {v : Value} {s : Scalar} (hs : v.scalar? = some s) (hv : v ≠ .null) :
    s ≠ .null := by
  rintro rfl
  cases v with
  | scalar s => cases hs; exact hv rfl
  | list => cases hs

theorem ne_nil_of_mapM {v : Value} {vs : List Value} {values : List Scalar}
    (h : (v :: vs).mapM Value.scalar? = some values) : values ≠ [] := by
  rintro rfl
  rw [List.mapM_cons] at h
  obtain ⟨s, -, h⟩ := Option.bind_eq_some_iff.mp h
  obtain ⟨ss, -, h⟩ := Option.bind_eq_some_iff.mp h
  cases h

theorem truth_compare_null (op : Operator) {v : Value} (h : v ≠ .null) (engine : Engine) :
    (compare op v).truth engine .null = if op = .nullSafeEq then .no else .unknown := by
  cases op with
  | nullSafeEq => simp [truth, Value.isNull, Truth.ofBool]
  | eq | ne | bangNe =>
    unfold truth
    split <;> simp_all
  | _ => rfl

theorem truth_datePart_null (part : DatePart) (op : Operator) {v : Value} (h : v ≠ .null)
    (engine : Engine) :
    (datePart part op v).truth engine .null = if op = .nullSafeEq then .no else .unknown := by
  cases op with
  | nullSafeEq => simp [truth, Value.isNull, Truth.ofBool]
  | _ => rfl

theorem truth_eq_engine (hp : t.predicate? d c = some p) (db : Database) (row : Tuple) :
    p.truth db row = db.engine d t (row c) := by
  unfold Database.engine
  cases t with
  | compare op v =>
    obtain hn | ⟨negated, hn, -⟩ := normal_compare op v
    · rw [predicate?_compare hn] at hp ⊢
      obtain ⟨s, hs, rfl⟩ := Option.map_eq_some_iff.mp hp
      rw [hs]
      rfl
    · rw [← predicate?_normal, hn] at hp ⊢
      cases hp
      rfl
  | between low high negated =>
    obtain ⟨lo, hlo, hp⟩ := Option.bind_eq_some_iff.mp hp
    obtain ⟨hi, hhi, hp⟩ := Option.bind_eq_some_iff.mp hp
    cases hp
    simp [predicate?, hlo, hhi, Predicate.truth]
  | oneOf vs negated =>
    cases vs with
    | nil => cases hp; rfl
    | cons v vs =>
      obtain ⟨values, hvalues, rfl⟩ := Option.map_eq_some_iff.mp hp
      simp [predicate?, hvalues, Predicate.truth]
  | isNull negated => cases hp; rfl
  | datePart part op v =>
    obtain ⟨s, hs, rfl⟩ := Option.map_eq_some_iff.mp hp
    simp [predicate?, hs, Predicate.truth]

theorem truth_of_value (hs : s ≠ .null) (db : Database) (t : Test) :
    t.truth (db.engine d) s = db.engine d t s := by
  unfold truth
  split
  all_goals try contradiction
  · rfl
  · rfl
  · simp [Database.engine, predicate?, Predicate.truth]
  · simp [Database.engine, predicate?, Predicate.truth]
  · simp [Database.engine, predicate?, Predicate.truth]
  · rfl

theorem truth_of_null (hp : t.predicate? d c = some p) (ht : t.Accepted) (db : Database)
    (hrow : row c = .null) : p.truth db row = t.truth (db.engine d) .null := by
  cases t with
  | compare op v =>
    -- Null itself is compared by its own texts, or by the operator that takes it for a value.
    by_cases hv : v = .null
    · subst hv
      cases op with
      | eq | ne | bangNe => cases hp; simp [Predicate.truth, truth, hrow]
      | nullSafeEq =>
        cases hp
        have hop : d.comparison .nullSafeEq ∈ nullSafe := by cases d <;> decide
        simp [Predicate.truth, truth, hrow, db.test_null_null hop, Value.isNull, Truth.ofBool]
      | _ => cases ht rfl
    · rw [predicate?_compare (normal_of_ne_null op hv)] at hp
      obtain ⟨s, hs, rfl⟩ := Option.map_eq_some_iff.mp hp
      have hop : d.comparison op ∈ nullSafe ↔ op = .nullSafeEq := by cases d <;> cases op <;> decide
      have hoperand : db.apply ("", "") s ≠ .null := ne_null_of_scalar? hs hv
      rw [truth_compare_null op hv, Predicate.truth, hrow, db.apply_null, db.test_null_of_ne _ hoperand]
      simp only [hop]
  | between low high negated =>
    obtain ⟨lo, -, hp⟩ := Option.bind_eq_some_iff.mp hp
    obtain ⟨hi, -, hp⟩ := Option.bind_eq_some_iff.mp hp
    cases hp
    simp [truth, Predicate.truth, hrow, db.test_null (by decide : ">=" ∉ nullSafe),
      db.test_null (by decide : "<=" ∉ nullSafe), Truth.and]
  | oneOf vs negated =>
    cases vs with
    | nil => cases hp; rfl
    | cons v vs =>
      obtain ⟨values, hvalues, rfl⟩ := Option.map_eq_some_iff.mp hp
      simp [truth, Predicate.truth, hrow, db.any_null (ne_nil_of_mapM hvalues)]
  | isNull negated => cases hp; simp [Predicate.truth, truth, hrow]
  | datePart part op v =>
    obtain ⟨s, hs, rfl⟩ := Option.map_eq_some_iff.mp hp
    have hop : op.spelling ∈ nullSafe ↔ op = .nullSafeEq := by cases op <;> decide
    have hoperand := db.apply_dateOperand d (ne_null_of_scalar? hs ht)
    rw [truth_datePart_null part op ht, Predicate.truth, hrow, db.apply_null,
      db.test_null_of_ne _ hoperand]
    simp only [hop]

theorem truth_of_predicate (hp : t.predicate? d c = some p) (ht : t.Accepted) (db : Database)
    (row : Tuple) : p.truth db row = t.truth (db.engine d) (row c) := by
  by_cases hrow : row c = .null
  · rw [truth_of_null hp ht db hrow, hrow]
  · rw [truth_of_value hrow, truth_eq_engine hp]

/-- For a row without a value a test is true just if it needs no value. The one test left out needs a
value, but is about none. -/
theorem needsValue_iff (ht : t.Accepted) (hne : t ≠ oneOf [] true) (engine : Engine) :
    t.needsValue = true ↔ t.truth engine .null ≠ .yes := by
  cases t with
  | compare op v =>
    by_cases hv : v = .null
    · subst hv
      cases op with
      | eq | ne | bangNe | nullSafeEq => simp [needsValue, truth, Truth.ofBool, Value.isNull]
      | _ => cases ht rfl
    · rw [truth_compare_null op hv, needsValue_of_ne_null op hv]
      split <;> simp
  | between low high negated => simp [needsValue, truth]
  | oneOf vs negated =>
    cases vs with
    | nil =>
      obtain rfl : negated = false := by simpa using hne
      simp [needsValue, truth, Truth.ofBool]
    | cons v vs => simp [needsValue, truth]
  | isNull negated => cases negated <;> simp [needsValue, truth, Truth.ofBool]
  | datePart part op v =>
    rw [truth_datePart_null part op ht, needsValue]
    · split <;> simp
    all_goals simp

theorem sound_of_needsValue (h : t.needsValue = false) (d : Dialect) (c : Column) :
    Sound (t.fragments d c) := by
  have hplain (w : String) : Sound (c.fragments ++ [.text w]) :=
    sound_append.mpr ⟨c.sound, sound_text.mpr sound_nil⟩
  unfold needsValue at h
  split at h
  · exact hplain " is null"
  · exact sound_append.mpr ⟨c.sound, sound_text.mpr (sound_cons.mpr ⟨rfl, sound_nil⟩)⟩
  · exact hplain _
  · cases h

end Test

namespace Builder

/-- Each predicate that callers may add needs a value just where its text is not true of a row without
one, except for the negated membership in nothing: that one needs a value, and its text is true of all
rows. Predicates with a list for a value have no text, and need one. -/
theorem needsValue_of_filter {b b' : Builder} {k : Connective} {code : String} {f : Filter}
    (h : b.filter k code f = .ok b') :
    ∃ r, b'.buffer.requests = b.buffer.requests ++ [r] ∧ r.code? = some code ∧
      ∀ (d : Dialect) (col : String → Column),
        (∀ st, Statement.ofFragments d .placeholders ((r.image col).fragments d) = .ok st →
          ∃ p, st.predicate? d = some p ∧
            (f ≠ .oneOf [] true → ∀ (db : Database) (row : Tuple), row (col code) = .null →
              (r.needsValue = true ↔ p.truth db row ≠ .yes)) ∧
            (f = .oneOf [] true → r.needsValue = true ∧
              ∀ (db : Database) (row : Tuple), p.truth db row = .yes)) ∧
        ((¬ ∃ st, Statement.ofFragments d .placeholders ((r.image col).fragments d) = .ok st) →
          r.needsValue = true) := by
  obtain ⟨t, ht, rfl⟩ := filter_eq_ok h
  refine ⟨.test k code t, rfl, rfl, fun d col => ⟨fun st hst => ?_, fun hnone => ?_⟩⟩
  · obtain ⟨p, hp, hread⟩ := Test.predicate?_of_statement hst
    refine ⟨p, hread, fun hf db row hrow => ?_, ?_⟩
    · obtain ⟨haccepted, hmembership⟩ := Test.accepted_of_filter ht
      rw [Test.truth_of_predicate hp haccepted, hrow]
      exact Test.needsValue_iff haccepted (fun he => hf (hmembership [] true he)) _
    · rintro rfl
      cases ht
      cases hp
      exact ⟨rfl, fun _ _ => rfl⟩
  · -- Only a list among the values keeps a test from having a text, and then it needs a value.
    by_contra hneeds
    have hsound := Test.sound_of_needsValue (by simpa [Request.needsValue] using hneeds) d (col code)
    exact hnone (Statement.exists_ofFragments.mpr hsound)

theorem needsValue_of_filter_sample :
    ∃ b' r st p, (ofEntity .sqlite Sample.entity).filter .and "color" (.compare "<=>" .null) = .ok b' ∧
      b'.buffer.requests = [r] ∧
      Statement.ofFragments .sqlite .placeholders
        ((r.image fun _ => .qualified "color_attr" "value").fragments .sqlite) = .ok st ∧
      st.sql = "\"color_attr\".\"value\" is ?" ∧ st.bindings = [.null] ∧
      st.predicate? .sqlite = some p ∧
      ∀ (db : Database) (row : Tuple), row (.qualified "color_attr" "value") = .null →
        (r.needsValue = true ↔ p.truth db row ≠ .yes) := by
  have hfilter : ∃ b', (ofEntity .sqlite Sample.entity).filter .and "color" (.compare "<=>" .null) =
      .ok b' ∧ b'.buffer.requests = [.test .and "color" (.compare .nullSafeEq .null)] := ⟨_, rfl, rfl⟩
  obtain ⟨b', h, hrequests⟩ := hfilter
  obtain ⟨r, hr, -, hreading⟩ := needsValue_of_filter h
  have hsame : [r] = [.test .and "color" (.compare .nullSafeEq .null)] := hr.symm.trans hrequests
  obtain rfl := List.singleton_inj.mp hsame
  obtain ⟨p, hp, htruth, -⟩ := (hreading .sqlite fun _ => .qualified "color_attr" "value").1 _ rfl
  exact ⟨b', _, _, p, h, hrequests, rfl, by decide +kernel, rfl, hp, htruth nofun⟩

/-- The negated membership in nothing needs a value, and holds for all rows. -/
theorem exists_filter_true_without_value :
    ∃ b' r st p, (ofEntity .sqlite Sample.entity).filter .and "color" (.oneOf [] true) = .ok b' ∧
      b'.buffer.requests = [r] ∧ r.needsValue = true ∧
      Statement.ofFragments .sqlite .placeholders
        ((r.image fun _ => .qualified "color_attr" "value").fragments .sqlite) = .ok st ∧
      st.sql = "1 = 1" ∧ st.predicate? .sqlite = some p ∧
      ∀ (db : Database) (row : Tuple), p.truth db row = .yes :=
  ⟨_, _, _, .constant true, rfl, rfl, rfl, rfl, by decide +kernel, by decide +kernel,
    fun _ _ => rfl⟩

end Builder

end EntityQuery
