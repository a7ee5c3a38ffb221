import EntityQuery.Proofs.ConditionReadings
import EntityQuery.Proofs.Readings

namespace EntityQuery

open Fragment

variable {d : Dialect} {r s : List Token}

namespace Select

def bodyNormal (d : Dialect) (q : Select) : Select where
  dialect := d
  table := q.table
  items := SelectItem.normalList q.items
  joins := q.joins
  conditions := Condition.leading (Condition.normalAll q.conditions)
  sortKeys := q.sortKeys
  limit := q.limit
  offset := q.offset

theorem normalIn_eq (d : Dialect) (q : Select) :
    q.normalIn d =
      { q.bodyNormal d with
        unionSortKeys := if q.unions.isEmpty then [] else q.unionSortKeys
        unions := normalMembers d q.unions } := by
  cases q
  rw [normalIn]
  rfl

theorem joins_reads (joins : List Join) :
    ReadsAt d (Begins afterJoins) (List.flatMap Join.fragments) id joins := by
  rw [← List.map_id_fun]
  exact ReadsAt.flatMap Join.leads_joins (by decide) fun j _ => j.reads

theorem body_reads (q : Select) : ReadsAt d (Begins [")"]) (bodyFragments d) (bodyNormal d) q := by
  have hitems := ((SelectItem.list_reads (d := d) q.items).of items).text (w := "select ") (by decide)
  have htable : ReadsAt d (Begins afterTable) (fun q => [.text " from ", .name q.table]) table q :=
    ((ReadsAt.name q.table).of table).text (by decide)
  have hjoins := (joins_reads (d := d) q.joins).of joins
  have hwhere : ReadsAt d (Begins afterWhere) (fun q => Condition.whereFragments d q.conditions) _ q :=
    (Condition.where_reads (by decide) (by decide) q.conditions).of conditions
  have hkeys : ReadsAt d (Begins afterKeys) _ _ q :=
    (SortKey.list_reads (by decide) (by decide) q.sortKeys).of sortKeys
  have hlimit : ReadsAt d (Begins afterLimit) (fun q => countFragments " limit " q.limit) limit q :=
    (count_reads (by decide) (by decide) (by decide) q.limit).of limit
  have hoffset : ReadsAt d (Begins [")"]) (fun q => countFragments " offset " q.offset) offset q :=
    (count_reads (by decide) (by decide) (by decide) q.offset).of offset
  have htable := hitems.append htable fun q r _ => by
    rw [tokensAll_text (by decide), List.append_assoc]
    exact Begins.text (List.mem_singleton_self " from ") _
  have hjoins := htable.append hjoins fun q r hr => Join.leads_joins.begins q.joins hr
  have hwhere := hjoins.append hwhere fun q r hr => Condition.where_begins q.conditions hr
  have hkeys := hwhere.append hkeys fun q r hr => SortKey.list_begins q.sortKeys hr
  have hlimit := hkeys.append hlimit fun q r hr => count_begins (by decide) q.limit hr
  have hoffset := hlimit.append hoffset fun q r hr => count_begins (by decide) q.offset hr
  refine hoffset.imp fun q' h => ?_
  simp only [Prod.mk.injEq, id_eq] at h
  obtain ⟨⟨⟨⟨⟨⟨hitems, htable⟩, hjoins⟩, hwhere⟩, hkeys⟩, hlimit⟩, hoffset⟩ := h
  unfold bodyNormal
  rw [hitems, htable, hjoins, hwhere, hkeys, hlimit, hoffset]

def unionText : UnionType → String
  | .distinct => " union ("
  | .all => " union all ("

theorem tells_union : Tells unionText := by
  intro type type'
  cases type <;> cases type' <;> decide

theorem isPlain_union (type : UnionType) : isPlain (unionText type) = true := by
  cases type <;> decide

def unionFragments (d : Dialect) (m : UnionType × Select) : List Fragment :=
  .text (unionText m.1) :: (m.2.fragments d ++ [.text ")"])

theorem memberFragments_eq (members : List (UnionType × Select)) :
    memberFragments d members = members.flatMap (unionFragments d) := by
  induction members with
  | nil => rfl
  | cons m rest ih =>
    obtain ⟨type, member⟩ := m
    rw [List.flatMap_cons, ← ih]
    cases type <;> rfl

theorem normalMembers_eq (members : List (UnionType × Select)) :
    normalMembers d members = members.map fun m => (m.1, m.2.normalIn d) := by
  induction members with
  | nil => rw [normalMembers, List.map_nil]
  | cons m rest ih => rw [normalMembers, List.map_cons, ih]

theorem leads_union : Leads d [" union (", " union all ("] (unionFragments d) :=
  Leads.text fun m => ⟨by cases m.1 <;> decide, isPlain_union m.1⟩

theorem member_reads {follow : List Token → Prop} {m : UnionType × Select}
    (h : ReadsAt d (Begins [")"]) (fragments d) (normalIn d) m.2) :
    ReadsAt d follow (unionFragments d) (fun m => (m.1, m.2.normalIn d)) m :=
  tells_union.choose isPlain_union Prod.fst ((h.of Prod.snd).closed (by decide))

def unitedFragments (d : Dialect) (q : Select) : List Fragment :=
  .text "(" :: (q.bodyFragments d ++ [.text ")"]) ++ memberFragments d q.unions ++
    SortKey.listFragments q.unionSortKeys

theorem fragments_of_isEmpty {q : Select} (h : q.unions.isEmpty = true) :
    q.fragments d = q.bodyFragments d := by
  cases q
  exact if_pos h

theorem fragments_of_not_isEmpty {q : Select} (h : ¬ q.unions.isEmpty = true) :
    q.fragments d = q.unitedFragments d := by
  cases q
  exact if_neg h

theorem body_ne_united (q q' : Select) :
    tokensAll d (q.bodyFragments d) ++ r ≠ tokensAll d (q'.unitedFragments d) ++ s := by
  unfold bodyFragments unitedFragments
  simp only [List.cons_append]
  rw [tokensAll_text (by decide), tokensAll_text (by decide)]
  exact fun e => nomatch (List.cons_eq_cons.mp e).1

theorem united_reads {q : Select}
    (h : ∀ m ∈ q.unions, ReadsAt d (Begins [")"]) (fragments d) (normalIn d) m.2) :
    ReadsAt d (Begins [")"]) (unitedFragments d)
      (fun q => ((q.bodyNormal d, normalMembers d q.unions), q.unionSortKeys)) q := by
  have hbody : ReadsAt d (fun _ => True) _ _ q :=
    ((body_reads (d := d) q).closed (by decide)).text (w := "(") (by decide)
  have hmembers : ReadsAt d (Begins [" order by ", ")"])
      (fun q => memberFragments d q.unions) (fun q => normalMembers d q.unions) q := by
    simp only [memberFragments_eq, normalMembers_eq]
    exact (ReadsAt.flatMap leads_union (by decide) fun m hm => member_reads (h m hm)).of unions
  have hkeys : ReadsAt d (Begins [")"]) _ _ q :=
    (SortKey.list_reads (by decide) (by decide) q.unionSortKeys).of unionSortKeys
  have hmembers := hbody.append hmembers fun _ _ _ => trivial
  exact hmembers.append hkeys fun q r hr => SortKey.list_begins q.unionSortKeys hr

theorem reads_of_members {q : Select}
    (h : ∀ m ∈ q.unions, ReadsAt d (Begins [")"]) (fragments d) (normalIn d) m.2) :
    ReadsAt d (Begins [")"]) (fragments d) (normalIn d) q := by
  intro q' r s hq hq' hr hs e
  rw [normalIn_eq, normalIn_eq]
  by_cases hu : q.unions.isEmpty = true
  · rw [fragments_of_isEmpty hu] at hq e
    by_cases hu' : q'.unions.isEmpty = true
    · rw [fragments_of_isEmpty hu'] at hq' e
      obtain ⟨hbody, hrs⟩ := body_reads q q' r s hq hq' hr hs e
      refine ⟨?_, hrs⟩
      rw [hbody, if_pos hu, if_pos hu', List.isEmpty_iff.mp hu, List.isEmpty_iff.mp hu']
    · rw [fragments_of_not_isEmpty hu'] at e
      exact absurd e (body_ne_united q q')
  · rw [fragments_of_not_isEmpty hu] at hq e
    by_cases hu' : q'.unions.isEmpty = true
    · rw [fragments_of_isEmpty hu'] at e
      exact absurd e.symm (body_ne_united q' q)
    · rw [fragments_of_not_isEmpty hu'] at hq' e
      obtain ⟨hunited, hrs⟩ := united_reads h q' r s hq hq' hr hs e
      simp only [Prod.mk.injEq] at hunited
      obtain ⟨⟨hbody, hmembers⟩, hkeys⟩ := hunited
      refine ⟨?_, hrs⟩
      rw [hbody, hmembers, if_neg hu, if_neg hu', hkeys]

mutual

theorem reads : ∀ q : Select, ReadsAt d (Begins [")"]) (fragments d) (normalIn d) q
  | ⟨_, _, _, _, _, _, _, unions, _, _⟩ => by
    have hmembers := member_select_reads unions
    exact reads_of_members hmembers

theorem member_select_reads : ∀ members : List (UnionType × Select), ∀ m ∈ members,
    ReadsAt d (Begins [")"]) (fragments d) (normalIn d) m.2
  | [] => nofun
  | (_, member) :: rest => by
    have hmember := reads member
    have hrest := member_select_reads rest
    exact List.forall_mem_cons.mpr ⟨hmember, hrest⟩

end

end Select

theorem Statement.sound_of_ok {fs : List Fragment} {st : Statement}
    (h : Statement.ofFragments d .placeholders fs = .ok st) : Sound fs :=
  (Statement.ofFragments_eq_ok.mp h).1

namespace Select

/-- Two queries that one dialect writes as the same statement have the same normal form. -/
theorem normal_of_statement {q q' : Select} {st st' : Statement} (hd : q.dialect = q'.dialect)
    (hq : q.statement = .ok st) (hq' : q'.statement = .ok st') (hsql : st.sql = st'.sql)
    (hbindings : st.bindings = st'.bindings) : q.normal = q'.normal := by
  have hst : st = st' := by
    cases st
    cases st'
    simp_all
  subst hst
  unfold statement at hq hq'
  rw [← hd] at hq'
  have htokens := tokens_eq_of_statement (q.phrase q.dialect).clean (q'.phrase q.dialect).clean hq hq'
  have e : tokensAll q.dialect (q.fragments q.dialect) ++ [] =
      tokensAll q.dialect (q'.fragments q.dialect) ++ [] := congrArg (· ++ []) htokens
  have hnormal := (q.reads q' [] [] (Statement.sound_of_ok hq) (Statement.sound_of_ok hq')
    (Begins.nil _) (Begins.nil _) e).1
  unfold normal
  rw [← hd]
  exact hnormal

end Select

namespace Sample

/-- The query `union` in other words: a test for null, its groups without a test elsewhere, and in the
member a select list written out and orderings of no union. -/
def sameUnion : Select where
  dialect := .postgres
  table := "products"
  items := [.column (.bare "a?") (some "$1")]
  joins := [{
    type := .left
    table := "varchars"
    tests := [.value (.bare "attribute_id") (.int 2)] }]
  conditions := [
    .group .and [],
    .test .or (.bare "color") (.isNull false),
    .group .or [.test .and (.bare "color") (.compare .like (.string "r?"))]]
  unions := [(.all, {
    dialect := .sqlite
    table := "more"
    items := [.all]
    conditions := [.test .or (.bare "size") (.oneOf [.int 1, .int 3] false)]
    unionSortKeys := [{ column := .bare "id", direction := .desc }] })]

end Sample

theorem Select.normal_of_statement_sample :
    ∃ st, Sample.union.statement = .ok st ∧ Sample.sameUnion.statement = .ok st ∧
      Sample.union.normal = Sample.sameUnion.normal := by
  refine ⟨_, rfl, rfl, ?_⟩
  exact normal_of_statement rfl rfl rfl rfl rfl

end EntityQuery
