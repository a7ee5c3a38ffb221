import EntityQuery.Proofs.Bookkeeping

namespace EntityQuery

theorem find?_eq_some_iff_of_sorted {l : List String} (hl : l.Pairwise (· < ·))
    {p : String → Bool} {code : String} :
    l.find? p = some code ↔ code ∈ l ∧ p code = true ∧ ∀ other ∈ l, p other = true → code ≤ other := by
  induction l with
  | nil => simp
  | cons a rest ih =>
    obtain ⟨ha, hrest⟩ := List.pairwise_cons.mp hl
    rw [List.find?_cons]
    cases hp : p a with
    | true =>
      simp only [Option.some.injEq, List.mem_cons]
      constructor
      · rintro rfl
        refine ⟨.inl rfl, hp, ?_⟩
        rintro other (rfl | hm) -
        · exact String.le_refl other
        · exact String.not_lt.mp (String.lt_asymm (ha other hm))
      · rintro ⟨rfl | hm, -, hleast⟩
        · rfl
        · exact absurd (hleast a (.inl rfl) hp) (String.not_le.mpr (ha code hm))
    | false =>
      simp only [ih hrest, List.mem_cons, forall_eq_or_imp, hp, Bool.false_eq_true, false_implies,
        true_and]
      constructor
      · rintro ⟨hm, h⟩
        exact ⟨.inr hm, h⟩
      · rintro ⟨rfl | hm, h⟩
        · exact absurd h.1 (by simp [hp])
        · exact ⟨hm, h⟩

theorem CodeSet.find?_eq_some_iff {s : CodeSet} {p : String → Bool} {code : String} :
    s.toList.find? p = some code ↔
      code ∈ s.toList ∧ p code = true ∧ ∀ other ∈ s.toList, p other = true → code ≤ other :=
  find?_eq_some_iff_of_sorted (by simpa using s.sorted)

namespace Builder

/-- Nothing was asked of attributes, and the select list asks for none: it has no bare name and no
marker, or there is no entity and no marker. -/
def AsksNothing (b : Builder) : Prop :=
  b.buffer.requests = [] ∧ b.buffer.sorts = [] ∧
    (b.expansion = .untouched ∨ b.entity = none ∧ ∀ kept, b.expansion ≠ .every kept)

/-- The query refers to a code, in its buffer or in its select list, that is not that of an
attribute. -/
def Lacks (b : Builder) (attributes : Attributes) (code : String) : Prop :=
  (code ∈ b.buffer.referenced.toList ∨ code ∈ b.expansion.codes) ∧ attributes.contains code = false

theorem lacks_iff {b : Builder} {attributes : Attributes} {code : String} :
    b.Lacks attributes code ↔
      code ∈ (b.neededCodes b.expansion).toList ∧ attributes.contains code = false := by
  rw [neededCodes, CodeSet.mem_insertAll, Lacks]

theorem isPlain_iff {b : Builder} (hb : b.buffer.Exact) : b.isPlain = true ↔ b.AsksNothing := by
  have hasked : b.buffer.hasConditions = false ↔ b.buffer.requests = [] ∧ b.buffer.sorts = [] := by
    rw [← Bool.not_eq_true, hb.hasConditions_iff]
    simp
  unfold isPlain AsksNothing
  cases hx : b.expansion <;>
    simp [hx, hasked, and_assoc, Expansion.isUntouched, Expansion.isEvery]

theorem contains_schema {b : Builder} {e : Entity} {attributes : Attributes} {code : String}
    (h : code ∈ (b.neededCodes b.expansion).toList) :
    (b.schema e attributes).attributes.contains code = attributes.contains code := by
  unfold Keyed.contains
  rw [find?_schema_of_needed h]

theorem find?_neededCodes {b : Builder} {e : Entity} {attributes : Attributes} {code : String} :
    (b.neededCodes b.expansion).toList.find? (!(b.schema e attributes).attributes.contains ·) =
        some code ↔
      b.Lacks attributes code ∧ ∀ other, b.Lacks attributes other → code ≤ other := by
  rw [CodeSet.find?_eq_some_iff]
  simp only [lacks_iff, Bool.not_eq_true', and_assoc]
  grind [contains_schema]

/-- A pass has one of five outcomes. -/
theorem stage_cases {b : Builder} (hb : b.buffer.Exact) (catalogs : Catalogs) :
    (b.AsksNothing ∧ b.stage catalogs = (.ok none, catalogs)) ∨
    (¬ b.AsksNothing ∧ b.entity = none ∧ b.stage catalogs = (.error .missingEntity, catalogs)) ∨
    ¬ b.AsksNothing ∧ ∃ e, b.entity = some e ∧
      (b.stage catalogs).2 = catalogs.looked e ∧
      ((catalogs.attributes? e = none ∧
          (b.stage catalogs).1 = .error (.unknownEntity e.code)) ∨
        ∃ attributes, catalogs.attributes? e = some attributes ∧
          ((∃ code, b.Lacks attributes code ∧ (∀ other, b.Lacks attributes other → code ≤ other) ∧
              (b.stage catalogs).1 = .error (.unknownAttribute e.code code)) ∨
            (∀ code, ¬ b.Lacks attributes code) ∧
              ∃ staged, (b.stage catalogs).1 = .ok (some staged))) := by
  by_cases hn : b.AsksNothing
  · exact .inl ⟨hn, by rw [stage, if_pos ((isPlain_iff hb).mpr hn)]⟩
  have hp : b.isPlain = false := by simpa [← isPlain_iff hb] using hn
  cases he : b.entity with
  | none => exact .inr (.inl ⟨hn, rfl, by simp [stage, hp, he]⟩)
  | some e =>
    refine .inr (.inr ⟨hn, e, rfl, ?_⟩)
    cases ha : catalogs.attributes? e with
    | none =>
      refine ⟨?_, .inl ⟨rfl, ?_⟩⟩
      · simp only [stage, hp, he, Bool.false_eq_true, if_false]
        rfl
      · simp [stage, hp, he, Catalogs.load_of_none ha, bind, Except.bind]
    | some attributes =>
      have hstage := stage_of_entity hp he ha
      refine ⟨by rw [hstage], .inr ⟨attributes, rfl, ?_⟩⟩
      cases hf : (b.neededCodes b.expansion).toList.find?
          (!(b.schema e attributes).attributes.contains ·) with
      | some code =>
        obtain ⟨hl, hleast⟩ := find?_neededCodes.mp hf
        refine .inl ⟨code, hl, hleast, ?_⟩
        rw [hstage, stageWith, hf]
        rfl
      | none =>
        have hknown : ∀ code, ¬ b.Lacks attributes code := by
          intro code hl
          obtain ⟨hc, hmissing⟩ := lacks_iff.mp hl
          have hfound := List.find?_eq_none.mp hf code hc
          simp [contains_schema hc, hmissing] at hfound
        refine .inr ⟨hknown, exists_stage hp he ha ?_ ?_ ?_⟩
        · intro code hc
          simpa [lacks_iff, hc] using hknown code
        · intro code hc
          exact CodeSet.mem_insertAll.mpr (.inl (hb.mem_referenced_of_asked (by simp [hc])))
        · intro r hr
          refine CodeSet.mem_insertAll.mpr (.inl (hb.mem_referenced_of_asked ?_))
          exact List.mem_append_right _ (List.mem_map_of_mem hr)

/-- A query that can be built asks for no column but those of codes on record: where all of these
are known, looking for columns does not fail. -/
theorem exists_compiled {b : Builder} (hb : b.buffer.Exact) {schema : Schema}
    (hknown : ∀ code ∈ b.buffer.referenced.toList, schema.attributes.contains code = true)
    (rules : JoinRules) (s : JoinStage) :
    (∃ out, Request.compileAll schema rules s b.buffer.requests = .ok out) ∧
      ∃ out, SortRequest.compileAll schema rules s b.buffer.sorts = .ok out := by
  constructor
  · apply Request.exists_compileAll
    intro code hc
    exact hknown code (hb.mem_referenced_of_asked (List.mem_append_left _ hc))
  · apply SortRequest.exists_compileAll
    intro r hr
    refine hknown r.code (hb.mem_referenced_of_asked ?_)
    exact List.mem_append_right _ (List.mem_map_of_mem hr)

/-- The outcome of a pass over a query that can be built, condition by condition, and whether it looks
into the catalog. After the look it fails only for a code that is no attribute's, and then names the
least; the search for columns that comes next finds all of them, however deep the groups are. -/
theorem stage_outcome {b : Builder} (hb : b.Reachable) (catalogs : Catalogs) :
    ((b.stage catalogs).1 = .ok none ↔ b.AsksNothing) ∧
    (b.AsksNothing → (b.stage catalogs).2 = catalogs) ∧
    (¬ b.AsksNothing →
      ((b.stage catalogs).1 = .error .missingEntity ↔ b.entity = none) ∧
      (b.entity = none → (b.stage catalogs).2 = catalogs) ∧
      ∀ e, b.entity = some e →
        (b.stage catalogs).2 = catalogs.looked e ∧
        ((b.stage catalogs).1 = .error (.unknownEntity e.code) ↔
          catalogs.attributes? e = none) ∧
        ∀ attributes, catalogs.attributes? e = some attributes →
          ((∃ code, (b.stage catalogs).1 = .error (.unknownAttribute e.code code) ∧
              b.Lacks attributes code ∧ ∀ other, b.Lacks attributes other → code ≤ other) ↔
            ∃ code, b.Lacks attributes code) ∧
          ((∃ staged, (b.stage catalogs).1 = .ok (some staged)) ↔
            ∀ code, ¬ b.Lacks attributes code)) ∧
    ∀ schema : Schema,
      (∀ code ∈ b.buffer.referenced.toList, schema.attributes.contains code = true) →
      ∀ rules s, (∃ out, Request.compileAll schema rules s b.buffer.requests = .ok out) ∧
        ∃ out, SortRequest.compileAll schema rules s b.buffer.sorts = .ok out := by
  have hexact : b.buffer.Exact := hb _ kept_exact
  obtain ⟨hn, hs⟩ | ⟨hn, he, hs⟩ | ⟨hn, e, he, hlook, hs⟩ := stage_cases hexact catalogs
  · rw [hs]
    exact ⟨by simp [hn], fun _ => rfl, fun h => absurd hn h, fun _ => exists_compiled hexact⟩
  · rw [hs]
    exact ⟨by simp [hn], fun _ => rfl, fun _ => ⟨by simp [he], fun _ => rfl, by simp [he]⟩,
      fun _ => exists_compiled hexact⟩
  · refine ⟨by grind, fun h => absurd h hn, fun _ => ⟨by grind, by simp [he], ?_⟩,
      fun _ => exists_compiled hexact⟩
    intro e' he'
    obtain rfl : e = e' := Option.some.inj (he.symm.trans he')
    refine ⟨hlook, by grind, ?_⟩
    intro attributes ha
    obtain ⟨hnone, -⟩ | ⟨attributes', ha', hs⟩ := hs
    · simp [hnone] at ha
    obtain rfl : attributes = attributes' := Option.some.inj (ha.symm.trans ha')
    obtain ⟨code, hl, hleast, hs⟩ | ⟨hknown, staged, hs⟩ := hs
    · exact ⟨⟨fun _ => ⟨code, hl⟩, fun _ => ⟨code, hs, hl, hleast⟩⟩, by simp [hs]; exact ⟨code, hl⟩⟩
    · simp [hs, hknown]

end Builder

namespace Sample

def lacking : Builder :=
  { Builder.ofEntity .sqlite entity with
    buffer := (Buffer.addTest {} .and "color" (.compare .eq (.string "red"))).addGroup .or
      { Builder.ofEntity .sqlite entity with
        buffer := (Buffer.addTest {} .and "weight" (.isNull false)).addSort
          { code := "height", direction := .asc, scope := .own } } }

theorem reachable_lacking : lacking.Reachable := by
  have hrun : (Session.run ⟨.ofEntity .sqlite entity, catalogs⟩
      [.filter .and "color" (.compare "=" (.string "red")),
        .group .or [.filter .and "weight" (.isNull false), .sortByAttribute "height" .asc]]).2 =
      .ok ⟨lacking, catalogs⟩ := rfl
  exact Session.reachable_of_run (Builder.reachable_blank _ _ _) hrun

end Sample

theorem Builder.stage_outcome_sample :
    Sample.lacking.Reachable ∧
      (Sample.lacking.stage Sample.catalogs).1 = .error (.unknownAttribute "product" "height") := by
  obtain ⟨-, -, hasked, -⟩ := Builder.stage_outcome Sample.reachable_lacking Sample.catalogs
  have hn : ¬ Sample.lacking.AsksNothing := fun h => nomatch h.1
  obtain ⟨-, -, hknown⟩ := (hasked hn).2.2 Sample.entity rfl
  obtain ⟨code, hstage, hl, hleast⟩ :=
    (hknown _ rfl).1.mpr ⟨"weight", .inl (by decide), by decide⟩
  have hle : code ≤ "height" := hleast "height" ⟨.inl (by decide), by decide⟩
  have hreferenced : code = "color" ∨ code = "height" ∨ code = "weight" := by
    obtain ⟨hm | hm, -⟩ := hl
    · simpa using (show code ∈ ["color", "height", "weight"] from hm)
    · cases hm
  obtain rfl | rfl | rfl := hreferenced
  · exact absurd hl.2 (by decide)
  · exact ⟨Sample.reachable_lacking, hstage⟩
  · exact absurd hle (by decide)

end EntityQuery
