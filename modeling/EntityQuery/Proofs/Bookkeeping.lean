import EntityQuery.Proofs.Passes
import EntityQuery.Proofs.Runs

namespace EntityQuery

/-- The codes that a request adds to the record of its buffer. A group adds those that were on record
for its own query when it was added. -/
def Request.recorded : Request → List String
  | .test _ code _ => [code]
  | .group _ codes _ => codes.toList

mutual

/-- A group stands for a query that was asked for attributes, and has the record of its buffer. -/
inductive Request.Exact : Request → Prop
  | test (connective : Connective) (code : String) (t : Test) :
    Request.Exact (.test connective code t)
  | group (connective : Connective) {q : Builder} :
    q.buffer.hasConditions = true → Buffer.Exact q.buffer →
      Request.Exact (.group connective q.buffer.referenced q)

/-- The records are those of the requests and the orderings in the buffer, and exact in its groups. -/
inductive Buffer.Exact : Buffer → Prop
  | intro {b : Buffer} :
    (b.hasConditions = true ↔ b.requests ≠ [] ∨ b.sorts ≠ []) →
    (∀ code, code ∈ b.referenced.toList ↔
      (∃ r ∈ b.requests, code ∈ r.recorded) ∨ ∃ r ∈ b.sorts, code = r.code) →
    (∀ r ∈ b.requests, Request.Exact r) → Buffer.Exact b

end

namespace Buffer

variable {b : Buffer}

theorem exact_empty : Exact {} :=
  .intro (by simp) (fun _ => by simp [EmptyCollection.emptyCollection]) (by simp)

theorem Exact.hasConditions_iff (h : b.Exact) :
    b.hasConditions = true ↔ b.requests ≠ [] ∨ b.sorts ≠ [] := by
  cases h with
  | intro hconditions _ _ => exact hconditions

theorem Exact.mem_referenced (h : b.Exact) (code : String) :
    code ∈ b.referenced.toList ↔
      (∃ r ∈ b.requests, code ∈ r.recorded) ∨ ∃ r ∈ b.sorts, code = r.code := by
  cases h with
  | intro _ hreferenced _ => exact hreferenced code

theorem Exact.requests (h : b.Exact) : ∀ r ∈ b.requests, r.Exact := by
  cases h with
  | intro _ _ hrequests => exact hrequests

theorem Exact.addTest (h : b.Exact) (k : Connective) (code : String) (t : Test) :
    (b.addTest k code t).Exact := by
  refine .intro (by simp [Buffer.addTest]) (fun other => ?_) ?_
  · simp only [Buffer.addTest, CodeSet.mem_insert, h.mem_referenced, List.mem_append,
      List.mem_singleton]
    grind [Request.recorded]
  · intro r hr
    obtain hr | hr := List.mem_append.mp hr
    · exact h.requests r hr
    · obtain rfl := List.mem_singleton.mp hr
      exact .test k code t

theorem Exact.addGroup (h : b.Exact) (k : Connective) {q : Builder} (hq : q.buffer.Exact)
    (hasked : q.buffer.hasConditions = true) : (b.addGroup k q).Exact := by
  refine .intro (by simp [Buffer.addGroup]) (fun other => ?_) ?_
  · simp only [Buffer.addGroup, CodeSet.union, CodeSet.mem_insertAll, h.mem_referenced,
      List.mem_append, List.mem_singleton]
    grind [Request.recorded]
  · intro r hr
    obtain hr | hr := List.mem_append.mp hr
    · exact h.requests r hr
    · obtain rfl := List.mem_singleton.mp hr
      exact .group k hasked hq

theorem Exact.addSort (h : b.Exact) (sort : SortRequest) : (b.addSort sort).Exact := by
  refine .intro (by simp [Buffer.addSort]) (fun other => ?_) h.requests
  simp only [Buffer.addSort, CodeSet.mem_insert, h.mem_referenced, List.mem_append,
    List.mem_singleton]
  grind

end Buffer

mutual

theorem Request.Exact.mem_recorded {code : String} :
    ∀ {r : Request}, r.Exact → code ∈ r.codes → code ∈ r.recorded
  | .test _ _ _, _, hc => by simpa [Request.codes, Request.recorded] using hc
  | .group _ _ { buffer := { requests, .. }, .. }, h, hc => by
    cases h with
    | group _ _ hq =>
      rw [Request.codes] at hc
      obtain ⟨r, hr, hc⟩ := Request.exists_recorded requests hq.requests hc
      exact (hq.mem_referenced code).mpr (.inl ⟨r, hr, hc⟩)

theorem Request.exists_recorded {code : String} :
    ∀ rs : List Request, (∀ r ∈ rs, r.Exact) → code ∈ Request.codesAll rs →
      ∃ r ∈ rs, code ∈ r.recorded
  | [], _, hc => by simp [Request.codesAll] at hc
  | r :: rest, h, hc => by
    rw [Request.codesAll] at hc
    obtain hc | hc := List.mem_append.mp hc
    · exact ⟨r, by simp, Request.Exact.mem_recorded (h r (by simp)) hc⟩
    · obtain ⟨q, hq, hc⟩ := Request.exists_recorded rest (fun q hq => h q (by simp [hq])) hc
      exact ⟨q, by simp [hq], hc⟩

end

theorem Buffer.Exact.mem_referenced_of_asked {b : Buffer} (h : b.Exact) {code : String}
    (hc : code ∈ Request.codesAll b.requests ++ b.sorts.map SortRequest.code) :
    code ∈ b.referenced.toList := by
  rw [h.mem_referenced]
  obtain hc | hc := List.mem_append.mp hc
  · exact .inl (Request.exists_recorded b.requests h.requests hc)
  · obtain ⟨r, hr, rfl⟩ := List.mem_map.mp hc
    exact .inr ⟨r, hr, rfl⟩

theorem Builder.kept_exact : Builder.Kept fun b => b.buffer.Exact where
  blank _ _ _ := Buffer.exact_empty
  filter h hb := by obtain ⟨t, -, rfl⟩ := Builder.filter_eq_ok hb; exact h.addTest _ _ t
  filterColumn h hb := by obtain ⟨c, t, -, -, rfl⟩ := Builder.filterColumn_eq_ok hb; exact h
  addGroup h hc := by
    unfold Builder.addGroup
    split
    · next hasked => exact h.addGroup _ hc hasked
    · split <;> exact h
  union h _ hb := by cases Builder.union_eq_ok hb; exact h
  sortByAttribute h := h.addSort _
  sortBy h hb := by obtain ⟨c, rfl⟩ := Builder.sortBy_eq_ok hb; exact h
  sortByTimestamp h hb := by obtain ⟨c, rfl⟩ := Builder.sortByTimestamp_eq_ok hb; exact h
  select h hb := by obtain ⟨items, rfl⟩ := Builder.select_eq_ok hb; exact h
  selectAttributes h := h
  limit h := h
  offset h := h
  withEntity h := h
  withNaming h := h
  process {b catalogs} h := by
    unfold Builder.process
    split
    · exact h
    · generalize b.stage catalogs = out
      obtain ⟨_ | _ | _, c⟩ := out <;> exact h

/-- The buffers in a buffer: itself, and those in its groups, at any depth. -/
inductive Buffer.Holds : Buffer → Buffer → Prop
  | self (b : Buffer) : Holds b b
  | group {b inner : Buffer} {k : Connective} {codes : CodeSet} {q : Builder} :
    .group k codes q ∈ b.requests → q.buffer.Holds inner → Holds b inner

def Buffer.Asks (b : Buffer) (code : String) : Prop :=
  (∃ k t, .test k code t ∈ b.requests) ∨ ∃ r ∈ b.sorts, r.code = code

namespace Buffer

variable {b inner : Buffer} {code : String}

theorem Exact.of_group (h : b.Exact) {k : Connective} {codes : CodeSet} {q : Builder}
    (hr : .group k codes q ∈ b.requests) :
    codes = q.buffer.referenced ∧ q.buffer.hasConditions = true ∧ q.buffer.Exact := by
  have hgroup := h.requests _ hr
  cases hgroup with
  | group _ hasked hq => exact ⟨rfl, hasked, hq⟩

theorem Exact.of_holds (hinner : b.Holds inner) (h : b.Exact) : inner.Exact := by
  induction hinner with
  | self => exact h
  | group hr _ ih => exact ih (h.of_group hr).2.2

theorem Exact.mem_referenced_iff (h : b.Exact) (code : String) :
    code ∈ b.referenced.toList ↔ b.Asks code ∨
      ∃ k codes q, .group k codes q ∈ b.requests ∧ code ∈ q.buffer.referenced.toList := by
  rw [h.mem_referenced, Asks]
  constructor
  · rintro (⟨r, hr, hcode⟩ | ⟨r, hr, rfl⟩)
    · cases r with
      | test k _ t =>
        obtain rfl := List.mem_singleton.mp hcode
        exact .inl (.inl ⟨k, t, hr⟩)
      | group k codes q =>
        obtain ⟨rfl, -⟩ := h.of_group hr
        exact .inr ⟨k, _, q, hr, hcode⟩
    · exact .inl (.inr ⟨r, hr, rfl⟩)
  · rintro ((⟨k, t, hr⟩ | ⟨r, hr, rfl⟩) | ⟨k, codes, q, hr, hcode⟩)
    · exact .inl ⟨_, hr, List.mem_singleton_self code⟩
    · exact .inr ⟨r, hr, rfl⟩
    · obtain ⟨rfl, -⟩ := h.of_group hr
      exact .inl ⟨_, hr, hcode⟩

theorem Exact.mem_referenced_of_holds (hinner : b.Holds inner) (h : b.Exact) (hcode : inner.Asks code) :
    code ∈ b.referenced.toList := by
  induction hinner with
  | self => exact (h.mem_referenced_iff code).mpr (.inl hcode)
  | group hr _ ih =>
    exact (h.mem_referenced_iff code).mpr (.inr ⟨_, _, _, hr, ih (h.of_group hr).2.2 hcode⟩)

/-- What is on record was asked for, somewhere among the groups. The recursion is on the size of the
buffer: a group's buffer is a part of the list of requests that the group is in. -/
theorem Exact.exists_holds {b : Buffer} (h : b.Exact) (hcode : code ∈ b.referenced.toList) :
    ∃ inner, b.Holds inner ∧ inner.Asks code := by
  obtain hown | ⟨k, codes, q, hr, hcode⟩ := (h.mem_referenced_iff code).mp hcode
  · exact ⟨b, .self b, hown⟩
  · have hsize : sizeOf q.buffer < sizeOf b := by
      have hr := List.sizeOf_lt_of_mem hr
      cases b
      cases q
      simp_all
      omega
    obtain ⟨inner, hinner, hasks⟩ := Exact.exists_holds (h.of_group hr).2.2 hcode
    exact ⟨inner, .group hr hinner, hasks⟩
termination_by sizeOf b

end Buffer

/-- Whatever is done to build a query, and however deep its groups are, each of the buffers in it knows
whether it has requests and which codes they are about. A group has the record of the buffer that was
built for it, in which something is asked; so the record has just the codes that some buffer in it has a
test or an ordering of its own for. -/
theorem Session.records_of_run {s t : Session} {steps : List Step} (hs : s.builder.Reachable)
    (h : (s.run steps).2 = .ok t) {b : Buffer} (hb : t.builder.buffer.Holds b) :
    (b.hasConditions = true ↔ b.requests ≠ [] ∨ b.sorts ≠ []) ∧
    (∀ code, code ∈ b.referenced.toList ↔
      (∃ k t, .test k code t ∈ b.requests) ∨ (∃ r ∈ b.sorts, r.code = code) ∨
        ∃ k codes q, .group k codes q ∈ b.requests ∧ code ∈ q.buffer.referenced.toList) ∧
    (∀ k codes q, .group k codes q ∈ b.requests →
      codes = q.buffer.referenced ∧ q.buffer.hasConditions = true) ∧
    ∀ code, code ∈ b.referenced.toList ↔ ∃ inner, b.Holds inner ∧ inner.Asks code := by
  have hexact := Buffer.Exact.of_holds hb (Session.reachable_of_run hs h _ Builder.kept_exact)
  refine ⟨hexact.hasConditions_iff, fun code => ?_, fun k codes q hr => ?_, fun code => ?_⟩
  · rw [hexact.mem_referenced_iff, Buffer.Asks, or_assoc]
  · exact ⟨(hexact.of_group hr).1, (hexact.of_group hr).2.1⟩
  · constructor
    · exact hexact.exists_holds
    · rintro ⟨inner, hinner, hasks⟩
      exact hexact.mem_referenced_of_holds hinner hasks

namespace Sample

def recording : List Step :=
  [.filter .and "color" (.isNull false),
    .group .or [.filter .and "size" (.oneOf [] true),
      .fold .and (.table .mysql "archive") none [.sortByAttribute "sku" .desc]],
    .filterColumn .and "id" (.compare ">" (.int 10))]

end Sample

/-- The group's record has the code of an ordering that is one level deeper. -/
theorem Session.records_of_run_sample :
    (Builder.ofEntity .sqlite Sample.entity).Reachable ∧
      ∃ t, (run ⟨.ofEntity .sqlite Sample.entity, Sample.catalogs⟩ Sample.recording).2 = .ok t ∧
        ∃ b, t.builder.buffer.Holds b ∧ b.referenced.toList = ["size", "sku"] ∧ b.sorts = [] ∧
          (b.hasConditions = true ↔ b.requests ≠ [] ∨ b.sorts ≠ []) ∧
          (∀ k codes q, .group k codes q ∈ b.requests →
            codes = q.buffer.referenced ∧ q.buffer.hasConditions = true) ∧
          ∃ inner, b.Holds inner ∧ inner.Asks "sku" := by
  have hs : (Builder.ofEntity .sqlite Sample.entity).Reachable := Builder.reachable_blank _ _ _
  obtain ⟨t, ht⟩ : ∃ t, (run ⟨.ofEntity .sqlite Sample.entity, Sample.catalogs⟩ Sample.recording).2 =
    .ok t := ⟨_, rfl⟩
  have hb : ∃ b, t.builder.buffer.Holds b ∧ b.referenced.toList = ["size", "sku"] ∧ b.sorts = [] := by
    cases ht
    exact ⟨_, .group (.tail _ (.head _)) (.self _), by decide +kernel, rfl⟩
  obtain ⟨b, hb, hcodes, hsorts⟩ := hb
  obtain ⟨hasked, -, hgroups, hrecord⟩ := records_of_run hs ht hb
  exact ⟨hs, t, ht, b, hb, hcodes, hsorts, hasked, hgroups, (hrecord "sku").mp (by simp [hcodes])⟩

end EntityQuery
