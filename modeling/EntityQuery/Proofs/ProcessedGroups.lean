import EntityQuery.Proofs.FoldedGroups
import EntityQuery.Proofs.PassOutcomes
import EntityQuery.Proofs.ProcessedQueries

namespace EntityQuery

namespace Builder

variable {b child : Builder} {c : Catalogs}

theorem addGroup_of_asked (hasked : child.buffer.hasConditions = true) (k : Connective) :
    b.addGroup k child = { b with buffer := b.buffer.addGroup k child } :=
  if_pos hasked

theorem conditions_of_stripped_addGroup {done : Builder} (hasked : child.buffer.hasConditions = true)
    (hasked' : done.buffer.hasConditions = true) {k : Connective}
    (h : (b.addGroup k done).stripped = (b.addGroup k child).stripped) :
    done.base.conditions = child.base.conditions := by
  rw [addGroup_of_asked hasked, addGroup_of_asked hasked'] at h
  have hrequests := congrArg Buffer.requests (congrArg Builder.buffer h)
  simp only [stripped, Buffer.addGroup, Request.strippedAll_append, Request.strippedAll,
    Request.stripped_group] at hrequests
  have hgroup := (List.cons.inj (List.append_cancel_left hrequests)).1
  injection hgroup with _ _ hcontents
  exact (Select.mk.inj (Builder.mk.inj hcontents).1).2.2.2.2.1

theorem imageAll_addGroup (hasked : child.buffer.hasConditions = true) (k : Connective)
    (col : String → Column) :
    Request.imageAll col (b.addGroup k child).buffer.requests =
      Request.imageAll col b.buffer.requests ++
        [.group k (child.base.conditions ++ Request.imageAll col child.buffer.requests)] := by
  rw [addGroup_of_asked hasked]
  change Request.imageAll col (b.buffer.requests ++ [_]) = _
  rw [Request.imageAll_append, Request.imageAll, Request.image_group, Request.imageAll]

theorem exists_stage_of_process (hphase : b.phase ≠ .processed)
    (hpass : (b.process c).1 = .ok ()) : ∃ out, (b.stage c).1 = .ok out := by
  unfold process at hpass
  rw [if_neg hphase] at hpass
  generalize b.stage c = out at hpass ⊢
  obtain ⟨e | out, c'⟩ := out
  · cases hpass
  · exact ⟨out, rfl⟩

theorem process_of_asked (hindex : b.index = ∅) (hasked : b.buffer.hasConditions = true)
    (hphase : b.phase ≠ .processed) (hpass : (b.process c).1 = .ok ()) :
    (b.process c).2.1.buffer = b.buffer ∧
      ∃ e attributes, b.entity = some e ∧ c.attributes? e = some attributes ∧
        (b.process c).2.1.base.conditions = b.base.conditions ++
          Request.imageAll (b.naming.columnOf e attributes) b.buffer.requests := by
  have hplain : b.isPlain = false := by simp [isPlain, hasked]
  obtain ⟨out, hstage⟩ := exists_stage_of_process hphase hpass
  obtain ⟨staged, rfl⟩ := exists_staged hplain hstage
  obtain ⟨e, attributes, he, ha, hs⟩ := stages_of_stage hstage
  have himage : staged.conditions =
      Request.imageAll (b.naming.columnOf e attributes) b.buffer.requests := by
    rw [hs.conditions]
    exact Request.imageAll_congr fun code hm => columnOf_schema hindex (hs.requests code hm)
  rw [process_of_stage hphase hstage]
  exact ⟨rfl, e, attributes, he, ha, by rw [conditions_commit, himage]⟩

/-- Whether a pass succeeds depends on the codes on record, and not on the clauses of groups. -/
theorem exists_stage_congr {b' : Builder} (hb' : b'.buffer.Exact) (hbase : b'.base = b.base)
    (hentity : b'.entity = b.entity) (hreferenced : b'.buffer.referenced = b.buffer.referenced)
    (hasked : b'.buffer.hasConditions = true) {staged : Staged}
    (h : (b.stage c).1 = .ok (some staged)) : ∃ staged', (b'.stage c).1 = .ok (some staged') := by
  have hn : ¬ b'.AsksNothing := by simp [← isPlain_iff hb', isPlain, hasked]
  have hneeded : b'.neededCodes b'.expansion = b.neededCodes b.expansion := by
    rw [neededCodes, neededCodes, expansion, expansion, hbase, hreferenced]
  obtain ⟨e, attributes, he, ha, hs⟩ := stages_of_stage h
  -- A pass fails for want of an entity or of a code, and of these there are the same.
  obtain ⟨hn', -⟩ | ⟨-, he', -⟩ | ⟨-, e', he', -, houtcome⟩ := stage_cases hb' c
  · exact absurd hn' hn
  · simp [hentity, he] at he'
  · obtain rfl : e = e' := Option.some.inj (by rw [← he, ← hentity, he'])
    obtain ⟨hnone, -⟩ | ⟨attributes', ha', ⟨code, hlacks, -⟩ | ⟨-, hstaged⟩⟩ := houtcome
    · simp [ha] at hnone
    · obtain rfl : attributes = attributes' := Option.some.inj (ha.symm.trans ha')
      obtain ⟨hc, hmissing⟩ := lacks_iff.mp hlacks
      rw [hneeded] at hc
      have hknown := hs.needed code hc
      rw [contains_schema hc, hmissing] at hknown
      cases hknown
    · exact hstaged

theorem conditions_process_addGroup (hindex : b.index = ∅) (hphase : b.phase ≠ .processed)
    (hasked : child.buffer.hasConditions = true) {k : Connective}
    (hpass : ((b.addGroup k child).process c).1 = .ok ()) :
    ∃ e attributes, b.entity = some e ∧ c.attributes? e = some attributes ∧
      ((b.addGroup k child).process c).2.1.base.conditions =
        b.base.conditions ++ Request.imageAll (b.naming.columnOf e attributes) b.buffer.requests ++
          [.group k (child.base.conditions ++
            Request.imageAll (b.naming.columnOf e attributes) child.buffer.requests)] := by
  have hgroup := addGroup_of_asked (b := b) hasked k
  obtain ⟨-, e, attributes, he, ha, hconditions⟩ :=
    process_of_asked (by rw [hgroup, hindex]) (by rw [hgroup]; rfl) (by rwa [hgroup]) hpass
  refine ⟨e, attributes, by rw [← he, hgroup], ha, ?_⟩
  rw [hconditions, imageAll_addGroup hasked, List.append_assoc, hgroup]

theorem process_addGroup_congr {other : Builder} (hphase : b.phase ≠ .processed)
    (hasked : child.buffer.hasConditions = true) (hbuffer : other.buffer = child.buffer)
    {k : Connective} (hexact : (b.addGroup k other).buffer.Exact)
    (hpass : ((b.addGroup k child).process c).1 = .ok ()) :
    ((b.addGroup k other).process c).1 = .ok () := by
  have hgroup := addGroup_of_asked (b := b) hasked k
  have hgroup' := addGroup_of_asked (b := b) (hbuffer ▸ hasked) k
  have hreferenced :
      (b.addGroup k other).buffer.referenced = (b.addGroup k child).buffer.referenced := by
    rw [hgroup, hgroup', Buffer.addGroup, Buffer.addGroup, hbuffer]
  obtain ⟨out, hstage⟩ := exists_stage_of_process (by rwa [hgroup]) hpass
  obtain ⟨staged, rfl⟩ := exists_staged (by rw [hgroup]; rfl) hstage
  obtain ⟨staged', hstage'⟩ := exists_stage_congr hexact (by rw [hgroup, hgroup'])
    (by rw [hgroup, hgroup']) hreferenced (by rw [hgroup']; rfl) hstage
  rw [process_of_stage (by rwa [hgroup']) hstage']

/-- A query that has been processed before it is added as a group has its predicates in the group
twice: as the clauses that its own pass made of them, with the columns of that pass, and again as the
clauses that the pass over the whole query makes of them. The contents of the group are those of the
query as it was before only where there are no predicates; otherwise it makes no difference only where
the whole query had been processed already. -/
theorem addGroup_processed (hb : b.Reachable) (hchild : child.Reachable)
    (hasked : child.buffer.hasConditions = true) (hphase : child.phase ≠ .processed)
    (hpass : (child.process c).1 = .ok ()) (k : Connective) :
    ((b.addGroup k (child.process c).2.1).stripped = (b.addGroup k child).stripped ↔
      child.buffer.requests = []) ∧
    (child.buffer.requests = [] → ∀ c', ((b.addGroup k (child.process c).2.1).statement c').1 =
      ((b.addGroup k child).statement c').1) ∧
    (b.phase = .processed → ∀ c', ((b.addGroup k (child.process c).2.1).statement c').1 =
      ((b.addGroup k child).statement c').1) ∧
    (b.phase ≠ .processed → ∀ c', ((b.addGroup k child).process c').1 = .ok () →
      ((b.addGroup k (child.process c).2.1).process c').1 = .ok () ∧
      ∃ front e attributes e' attributes',
        child.entity = some e ∧ c.attributes? e = some attributes ∧
        b.entity = some e' ∧ c'.attributes? e' = some attributes' ∧
        ((b.addGroup k child).process c').2.1.base.conditions = front ++
          [.group k (child.base.conditions ++
            Request.imageAll (b.naming.columnOf e' attributes') child.buffer.requests)] ∧
        ((b.addGroup k (child.process c).2.1).process c').2.1.base.conditions = front ++
          [.group k (child.base.conditions ++
            Request.imageAll (child.naming.columnOf e attributes) child.buffer.requests ++
            Request.imageAll (b.naming.columnOf e' attributes') child.buffer.requests)]) := by
  obtain ⟨hbuffer, e, attributes, he, ha, hconditions⟩ :=
    process_of_asked (hchild _ kept_index hphase) hasked hphase hpass
  have hexact : (b.addGroup k (child.process c).2.1).buffer.Exact :=
    hb.addGroup (hchild.process c) k _ kept_exact
  generalize (child.process c).2.1 = done at hbuffer hconditions hexact ⊢
  have hasked' : done.buffer.hasConditions = true := by rw [hbuffer, hasked]
  have hgroup := addGroup_of_asked (b := b) hasked k
  have hgroup' := addGroup_of_asked (b := b) hasked' k
  have hsame (hnone : child.buffer.requests = []) :
      (b.addGroup k done).stripped = (b.addGroup k child).stripped := by
    have halike : child.AlikeAsGroup done :=
      ⟨by rw [hbuffer], by rw [hconditions, hnone, Request.imageAll, List.append_nil],
        by rw [hbuffer], by rw [hbuffer]⟩
    exact halike.stripped_addGroup_eq k
  refine ⟨⟨fun h => ?_, hsame⟩, fun hnone c' => statement_congr_stripped (hsame hnone) c', ?_, ?_⟩
  · have hclauses := conditions_of_stripped_addGroup hasked hasked' h
    rw [hconditions] at hclauses
    exact Request.imageAll_eq_nil_iff.mp (List.append_right_eq_self.mp hclauses)
  · intro hphase' c'
    rw [statement_of_processed _ _ (by rwa [hgroup']), statement_of_processed _ _ (by rwa [hgroup]),
      hgroup, hgroup']
  · intro hphase' c' hpass'
    have hindex : b.index = ∅ := hb _ kept_index hphase'
    have htwice := process_addGroup_congr hphase' hasked hbuffer hexact hpass'
    obtain ⟨e', attributes', he', ha', hcs⟩ :=
      conditions_process_addGroup hindex hphase' hasked hpass'
    obtain ⟨e'', attributes'', he'', ha'', hcs'⟩ :=
      conditions_process_addGroup hindex hphase' hasked' htwice
    obtain rfl : e' = e'' := Option.some.inj (he'.symm.trans he'')
    obtain rfl : attributes' = attributes'' := Option.some.inj (ha'.symm.trans ha'')
    refine ⟨htwice, _, e, attributes, e', attributes', he, ha, he', ha', hcs, ?_⟩
    rw [hcs', hconditions, hbuffer]

end Builder

namespace Sample

def products : Builder := .ofEntity .sqlite entity

def red : Builder :=
  { products with
    buffer := (Buffer.addTest {} .and "color" (.compare .eq (.string "red"))).addTest .or "size"
      (.isNull false) }

theorem reachable_products : products.Reachable := Builder.reachable_blank _ _ _

theorem reachable_red : red.Reachable := by
  have hrun : (Session.run ⟨products, catalogs⟩
      [.filter .and "color" (.compare "=" (.string "red")), .filter .or "size" (.isNull false)]).2 =
      .ok ⟨red, catalogs⟩ := rfl
  exact Session.reachable_of_run reachable_products hrun

end Sample

theorem Builder.addGroup_processed_sample :
    Sample.products.Reachable ∧ Sample.red.Reachable ∧ Sample.red.buffer.hasConditions = true ∧
      Sample.red.phase ≠ .processed ∧ (Sample.red.process Sample.catalogs).1 = .ok () ∧
      (Sample.products.addGroup .and (Sample.red.process Sample.catalogs).2.1).stripped ≠
        (Sample.products.addGroup .and Sample.red).stripped ∧
      ∃ front conditions,
        ((Sample.products.addGroup .and (Sample.red.process Sample.catalogs).2.1).process
          Sample.catalogs).2.1.base.conditions = front ++ [.group .and conditions] ∧
        conditions.length = 2 * Sample.red.buffer.requests.length := by
  have hphase : Sample.red.phase ≠ .processed := by decide
  obtain ⟨hsame, -, -, htwice⟩ := addGroup_processed (c := Sample.catalogs) Sample.reachable_products
    Sample.reachable_red rfl hphase rfl .and
  obtain ⟨-, front, e, attributes, e', attributes', -, -, -, -, -, hconditions⟩ :=
    htwice (by decide) Sample.catalogs rfl
  refine ⟨Sample.reachable_products, Sample.reachable_red, rfl, hphase, rfl,
    mt hsame.mp nofun, front, _, hconditions, ?_⟩
  rw [Request.imageAll_eq_map, Request.imageAll_eq_map]
  rfl

/-- The statement of a query with a group has a predicate of the group once, and twice where the query
that was added had been processed before. -/
theorem exists_group_with_predicate_twice :
    Sample.products.Reachable ∧ Sample.red.Reachable ∧ Sample.red.entity = Sample.products.entity ∧
      Sample.red.buffer.hasConditions = true ∧ (Sample.red.process Sample.catalogs).1 = .ok () ∧
      ∃ once twice,
        ((Sample.products.addGroup .and Sample.red).statement Sample.catalogs).1 = .ok once ∧
        ((Sample.products.addGroup .and (Sample.red.process Sample.catalogs).2.1).statement
          (Sample.red.process Sample.catalogs).2.2).1 = .ok twice ∧
        once.bindings.count (.scalar (.string "red")) = 1 ∧
        twice.bindings.count (.scalar (.string "red")) = 2 := by
  refine ⟨Sample.reachable_products, Sample.reachable_red, rfl, rfl, rfl, _, _, rfl, rfl, ?_, ?_⟩
  · decide
  · decide

end EntityQuery
