import EntityQuery.Proofs.QueryWords
import EntityQuery.Proofs.UnionTexts
import Mathlib.Logic.Relation

namespace EntityQuery

namespace Condition

inductive OnlyGroups : Condition → Prop
  | group (k : Connective) {members : List Condition} (h : ∀ c ∈ members, OnlyGroups c) :
    OnlyGroups (.group k members)

theorem allHollow_iff {cs : List Condition} : allHollow cs = true ↔ ∀ c ∈ cs, c.isHollow = true := by
  induction cs with
  | nil => simp [allHollow]
  | cons c rest ih => rw [allHollow, Bool.and_eq_true, ih, List.forall_mem_cons]

theorem OnlyGroups.isHollow {c : Condition} (h : c.OnlyGroups) : c.isHollow = true := by
  induction h with
  | group k _ ih => exact allHollow_iff.mpr ih

mutual

theorem onlyGroups_of_isHollow : ∀ c : Condition, c.isHollow = true → c.OnlyGroups
  | .test .., h => nomatch h
  | .group k members, h => .group k (onlyGroups_of_allHollow members h)

theorem onlyGroups_of_allHollow : ∀ cs : List Condition, allHollow cs = true → ∀ c ∈ cs, c.OnlyGroups
  | [], _ => nofun
  | c :: rest, h => by
    rw [allHollow, Bool.and_eq_true] at h
    exact List.forall_mem_cons.mpr
      ⟨onlyGroups_of_isHollow c h.1, onlyGroups_of_allHollow rest h.2⟩

end

theorem isHollow_iff {c : Condition} : c.isHollow = true ↔ c.OnlyGroups :=
  ⟨onlyGroups_of_isHollow c, OnlyGroups.isHollow⟩

/-- One change of a level that leaves no trace: a group of nothing but groups is left out, the first
clause that is no such group gets another connective, or either is done in a group. -/
inductive Tidied : List Condition → List Condition → Prop
  | drop (before : List Condition) {c : Condition} (after : List Condition) (h : c.OnlyGroups) :
    Tidied (before ++ c :: after) (before ++ after)
  | lead {before : List Condition} {c : Condition} (after : List Condition) (k : Connective)
    (hbefore : ∀ b ∈ before, b.OnlyGroups) (hc : ¬ c.OnlyGroups) :
    Tidied (before ++ c :: after) (before ++ c.withConnective k :: after)
  | inside (before : List Condition) (k : Connective) {members members' : List Condition}
    (after : List Condition) (h : Tidied members members') :
    Tidied (before ++ .group k members :: after) (before ++ .group k members' :: after)

theorem normalAll_append (cs ds : List Condition) :
    normalAll (cs ++ ds) = normalAll cs ++ normalAll ds := by
  simp only [normalAll_eq, shown, List.filter_append, List.map_append]

theorem normalAll_eq_nil {cs : List Condition} (h : ∀ c ∈ cs, c.OnlyGroups) : normalAll cs = [] := by
  rw [normalAll_eq, List.map_eq_nil_iff, shown_eq_nil_iff, allHollow_iff]
  exact fun c hc => (h c hc).isHollow

theorem withConnective_normal (k : Connective) (c : Condition) :
    (c.withConnective k).normal = c.normal.withConnective k := by
  cases c with
  | test k' c t => simp only [withConnective, normal_test]
  | group k' members => rfl

/-- A change that leaves no trace leaves the normal form of a level. -/
theorem Tidied.leading_normalAll {cs cs' : List Condition} (h : Tidied cs cs') :
    leading (normalAll cs) = leading (normalAll cs') := by
  induction h with
  | drop before after h =>
    rw [normalAll_append, normalAll_append, normalAll, if_pos h.isHollow]
  | @lead before c after k hbefore hc =>
    have hshown : ¬ c.isHollow = true := isHollow_iff.not.mpr hc
    have hconnective :
        (c.normal.withConnective k).withConnective .and = c.normal.withConnective .and := by
      cases c.normal <;> rfl
    rw [normalAll_append, normalAll_append, normalAll_eq_nil hbefore, List.nil_append, List.nil_append,
      normalAll, normalAll, isHollow_withConnective, if_neg hshown, if_neg hshown,
      withConnective_normal, leading, leading, hconnective]
  | @inside before k members members' after h ih =>
    -- Whether a group is hollow shows in its normal form, so that it is left out before and after.
    have hhollow : (group k members).isHollow = (group k members').isHollow := by
      rw [← isHollow_normal, ← isHollow_normal (group k members'), normal, normal, ih]
    have hnormal : (group k members).normal = (group k members').normal := by
      rw [normal, normal, ih]
    rw [normalAll_append, normalAll_append, normalAll, normalAll, hhollow, hnormal]

end Condition

namespace Select

inductive Tidied : Select → Select → Prop
  | clauses {q : Select} {cs : List Condition} (h : Condition.Tidied q.conditions cs) :
    Tidied q { q with conditions := cs }
  | member {q : Select} {before after : List (UnionType × Select)} {type : UnionType}
    {m m' : Select} (hunions : q.unions = before ++ (type, m) :: after) (h : Tidied m m') :
    Tidied q { q with unions := before ++ (type, m') :: after }

theorem Tidied.normalIn_eq {q q' : Select} (h : Tidied q q') (d : Dialect) :
    q.normalIn d = q'.normalIn d := by
  induction h with
  | clauses h =>
    rw [Select.normalIn_eq, Select.normalIn_eq]
    unfold bodyNormal
    rw [h.leading_normalAll]
  | member hunions h ih =>
    rw [Select.normalIn_eq, Select.normalIn_eq]
    unfold bodyNormal
    have hne (m : UnionType × Select) (before after : List (UnionType × Select)) :
        (before ++ m :: after).isEmpty = false := by simp
    simp only [hunions, hne, normalMembers_eq, List.map_append, List.map_cons, ih]

theorem Tidied.statement_eq {q q' : Select} (h : Tidied q q') (d : Dialect) :
    (q.writtenIn d).statement = (q'.writtenIn d).statement := by
  rw [statement_writtenIn, statement_writtenIn, ← fragments_normalIn d d q, h.normalIn_eq,
    fragments_normalIn]

/-- Changes that leave no trace in any number leave the statement of a query or its fault, in every
dialect. In no statement does an opening parenthesis, a `where` or a connective stand at the end, in
front of a closing parenthesis or a connective, or in front of another part of the query. -/
theorem statement_of_tidied (d : Dialect) :
    (∀ q q', Relation.ReflTransGen Tidied q q' →
      (q.writtenIn d).statement = (q'.writtenIn d).statement) ∧
    ∀ (q : Select) st, (q.writtenIn d).statement = .ok st →
      ∀ before w after, d.words st.sql = before ++ w :: after → w.opens = true →
        ∃ v rest, after = v :: rest ∧ v.closes = false := by
  constructor
  · intro q q' h
    induction h with
    | refl => rfl
    | tail _ hlast ih => rw [ih, hlast.statement_eq]
  · intro q st hst before w after hwords hopens
    rw [statement_writtenIn] at hst
    have hwhole : Word.Whole (d.words st.sql) := by
      rw [Fragment.words_of_statement (q.phrase d).clean hst]
      exact q.stands.1
    exact hwhole.exists_next hwords hopens

end Select

namespace Sample

def untidy : Select where
  dialect := .postgres
  table := "products"
  conditions := [.group .or [.group .and []],
    .group .and [.group .or [], .test .or (.bare "color") (.compare .eq (.string "red"))]]
  unions := [(.all, { dialect := .mysql, table := "more", conditions := [.group .and []] })]

def tidy : Select where
  dialect := .postgres
  table := "products"
  conditions := [.group .and [.test .and (.bare "color") (.compare .eq (.string "red"))]]
  unions := [(.all, { dialect := .mysql, table := "more" })]

theorem untidy_tidied : Relation.ReflTransGen Select.Tidied untidy tidy := by
  have hempty (k : Connective) : Condition.OnlyGroups (.group k []) := .group k nofun
  have hnested : Condition.OnlyGroups (.group .or [.group .and []]) :=
    .group .or (List.forall_mem_singleton.mpr (hempty .and))
  have htest : ¬ Condition.OnlyGroups (.test .or (.bare "color") (.compare .eq (.string "red"))) := nofun
  refine .head (.clauses (.drop [] _ hnested)) ?_
  refine .head (.clauses (.inside [] .and [] (.drop [] _ (hempty .or)))) ?_
  refine .head (.clauses (.inside [] .and [] (.lead [] .and nofun htest))) ?_
  exact .single (@Select.Tidied.member _ [] [] .all _ _ rfl (.clauses (.drop [] [] (hempty .and))))

end Sample

theorem Select.statement_of_tidied_sample :
    Relation.ReflTransGen Select.Tidied Sample.untidy Sample.tidy ∧
      (Sample.untidy.writtenIn .sqlite).statement = (Sample.tidy.writtenIn .sqlite).statement ∧
      ∃ st, (Sample.untidy.writtenIn .sqlite).statement = .ok st ∧
        ∃ before v rest, Dialect.sqlite.words st.sql = before ++ .letters "where".toList :: v :: rest ∧
          v.closes = false := by
  obtain ⟨htidied, hwords⟩ := Select.statement_of_tidied .sqlite
  have hsplit : Dialect.sqlite.words
      "(select * from \"products\" where (\"color\" = ?)) union all (select * from \"more\")" =
        [.opening, .letters "select".toList, .letters ['*'], .letters "from".toList, .operand] ++
          .letters "where".toList :: [.opening, .operand, .letters ['='], .operand, .closing, .closing,
            .letters "union".toList, .letters "all".toList, .opening, .letters "select".toList,
            .letters ['*'], .letters "from".toList, .operand, .closing] := by decide +kernel
  have hstatement : (Sample.untidy.writtenIn .sqlite).statement = .ok
      ⟨"(select * from \"products\" where (\"color\" = ?)) union all (select * from \"more\")",
        [.string "red"]⟩ := by decide +kernel
  obtain ⟨v, rest, hrest, hcloses⟩ := hwords _ _ hstatement _ _ _ hsplit (by decide)
  exact ⟨Sample.untidy_tidied, htidied _ _ Sample.untidy_tidied, _, hstatement, _, v, rest,
    hrest ▸ hsplit, hcloses⟩

end EntityQuery
