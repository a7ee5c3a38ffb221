import EntityQuery.Proofs.CommittedJoins
import EntityQuery.Proofs.JoinOrder
import EntityQuery.Proofs.Scope
import Mathlib.Data.List.Count
import Mathlib.Data.List.DropRight

namespace EntityQuery

/-- A call to a stage: a request for the column of an attribute, with a type of join or with the one
that the rules have, or the hand-over of its joins. -/
inductive JoinCall where
  | add (a : Attribute) (type : JoinType)
  | column (a : Attribute)
  | flush

structure JoinRequest where
  id : Int64
  code : String
  table : String
  type : JoinType

namespace JoinRequest

def for? (type : JoinType) : Attribute → Option JoinRequest
  | .static .. => none
  | .dynamic id code table _ => some { id, code, table, type }

/-- The type of join that requests make together for an attribute. -/
def typeFor (requests : List JoinRequest) (code : String) : JoinType :=
  if requests.any fun r => r.code = code && r.type = .inner then .inner else .left

theorem typeFor_eq_inner {requests : List JoinRequest} {code : String} :
    typeFor requests code = .inner ↔ ∃ r ∈ requests, r.code = code ∧ r.type = .inner := by
  simp [typeFor]

theorem typeFor_concat (requests : List JoinRequest) (r : JoinRequest) (code : String) :
    typeFor (requests ++ [r]) code =
      if r.code = code then (typeFor requests code).merge r.type else typeFor requests code := by
  unfold typeFor
  rw [List.any_append]
  by_cases hc : r.code = code
  · cases requests.any fun r => r.code = code && r.type = .inner <;> cases ht : r.type <;>
      simp [hc, ht, JoinType.merge]
  · simp [hc]

theorem typeFor_concat_of_new {requests : List JoinRequest} {r : JoinRequest}
    (h : r.code ∉ requests.map JoinRequest.code) : typeFor (requests ++ [r]) r.code = r.type := by
  have hnone : typeFor requests r.code = .left := by
    unfold typeFor
    rw [if_neg]
    intro hany
    obtain ⟨q, hq, hcode⟩ := List.any_eq_true.mp hany
    simp only [Bool.and_eq_true, decide_eq_true_eq] at hcode
    exact h (List.mem_map.mpr ⟨q, hq, hcode.1⟩)
  rw [typeFor_concat, if_pos rfl, hnone]
  cases r.type <;> rfl

end JoinRequest

/-- The join of an attribute after requests: the one that the first of them called for, of the type that
all of them make together. -/
def JoinRules.joinAfter? (rules : JoinRules) (requests : List JoinRequest) (code : String) :
    Option Join :=
  (requests.find? (·.code = code)).map fun r =>
    rules.join r.id code r.table (JoinRequest.typeFor requests code)

def JoinRules.entryAfter (rules : JoinRules) (requests : List JoinRequest) (code : String) :
    AttributeJoin where
  label := rules.naming.label code
  column := .qualified (rules.naming.label code) rules.naming.valueColumn
  type := JoinRequest.typeFor requests code

namespace JoinRules

variable (rules : JoinRules) (requests : List JoinRequest) (r : JoinRequest) {code : String}

theorem joinAfter?_concat_of_ne (h : r.code ≠ code) :
    rules.joinAfter? (requests ++ [r]) code = rules.joinAfter? requests code := by
  simp [joinAfter?, JoinRequest.typeFor_concat, List.find?_append, h]

theorem joinAfter?_concat_of_mem (h : r.code ∈ requests.map JoinRequest.code) :
    rules.joinAfter? (requests ++ [r]) r.code = (rules.joinAfter? requests r.code).map fun j =>
      { j with type := JoinRequest.typeFor (requests ++ [r]) r.code } := by
  obtain ⟨first, hfirst⟩ : ∃ first, requests.find? (·.code = r.code) = some first := by
    obtain ⟨q, hq, hcode⟩ := List.mem_map.mp h
    exact Option.isSome_iff_exists.mp (List.find?_isSome.mpr ⟨q, hq, by simpa using hcode⟩)
  simp [joinAfter?, List.find?_append, hfirst, JoinRules.join]

theorem joinAfter?_concat_of_new (h : r.code ∉ requests.map JoinRequest.code) :
    rules.joinAfter? (requests ++ [r]) r.code = some (rules.join r.id r.code r.table r.type) := by
  have hnone : requests.find? (·.code = r.code) = none := by
    rw [List.find?_eq_none]
    intro q hq hcode
    exact h (List.mem_map.mpr ⟨q, hq, by simpa using hcode⟩)
  simp [joinAfter?, JoinRequest.typeFor_concat_of_new h, List.find?_append, hnone]

theorem reference_joinAfter? {j : Join} (h : rules.joinAfter? requests code = some j) :
    j.reference = rules.naming.label code := by
  obtain ⟨r, -, rfl⟩ := Option.map_eq_some_iff.mp h
  rfl

end JoinRules

namespace JoinCall

def isFlush : JoinCall → Bool
  | flush => true
  | _ => false

/-- What a call asks for, if a static attribute does not settle it. -/
def request? (rules : JoinRules) : JoinCall → Option JoinRequest
  | add a type => JoinRequest.for? type a
  | column a => JoinRequest.for? (rules.types.type a.code) a
  | flush => none

def requests (rules : JoinRules) (calls : List JoinCall) : List JoinRequest :=
  calls.filterMap (request? rules)

def codes (rules : JoinRules) (calls : List JoinCall) : List String :=
  (requests rules calls).map JoinRequest.code

/-- The codes that were asked for since the last hand-over, and not before it, each at its first
place. -/
def due (rules : JoinRules) (calls : List JoinCall) : List String :=
  ((codes rules (calls.rtakeWhile (!·.isFlush))).removeAll
    (codes rules (calls.rdropWhile (!·.isFlush)))).eraseDups

variable {rules : JoinRules} (calls : List JoinCall) {c : JoinCall}

theorem codes_append (calls' : List JoinCall) :
    codes rules (calls ++ calls') = codes rules calls ++ codes rules calls' := by
  rw [codes, requests, List.filterMap_append, List.map_append]
  rfl

theorem requests_concat {r : JoinRequest} (h : c.request? rules = some r) :
    requests rules (calls ++ [c]) = requests rules calls ++ [r] := by
  rw [requests, List.filterMap_append, List.filterMap_cons_some h]
  rfl

theorem requests_concat_none (h : c.request? rules = none) :
    requests rules (calls ++ [c]) = requests rules calls := by
  rw [requests, List.filterMap_append, List.filterMap_cons_none h]
  exact List.append_nil _

theorem codes_concat {r : JoinRequest} (h : c.request? rules = some r) :
    codes rules (calls ++ [c]) = codes rules calls ++ [r.code] := by
  rw [codes, requests_concat _ h, List.map_append]
  rfl

theorem codes_concat_none (h : c.request? rules = none) :
    codes rules (calls ++ [c]) = codes rules calls := by
  rw [codes, requests_concat_none _ h]
  rfl

theorem eraseDups_codes : (codes rules calls).eraseDups =
    (codes rules (calls.rdropWhile (!·.isFlush))).eraseDups ++ due rules calls := by
  have hsplit : codes rules (calls.rdropWhile (!·.isFlush)) ++
      codes rules (calls.rtakeWhile (!·.isFlush)) = codes rules calls := by
    rw [← codes_append, List.rdropWhile_append_rtakeWhile]
  rw [← hsplit, List.eraseDups_append]
  rfl

theorem mem_codes_of_mem_due {code : String} (h : code ∈ due rules calls) :
    code ∈ codes rules calls := by
  rw [← List.mem_eraseDups, eraseDups_codes]
  exact List.mem_append_right _ h

theorem nodup_due : (due rules calls).Nodup := nodup_eraseDups _

theorem due_flush : due rules (calls ++ [.flush]) = [] := by
  rw [due, List.rtakeWhile_concat_neg _ _ _ (by simp [isFlush])]
  rfl

theorem due_concat_none (h : c.request? rules = none) (hc : c.isFlush = false) :
    due rules (calls ++ [c]) = due rules calls := by
  rw [due, List.rtakeWhile_concat_pos _ _ _ (by simp [hc]), List.rdropWhile_concat_pos _ _ _ (by simp [hc]),
    codes_concat_none _ h]
  rfl

theorem due_concat {r : JoinRequest} (h : c.request? rules = some r) :
    due rules (calls ++ [c]) =
      if r.code ∈ codes rules calls then due rules calls else due rules calls ++ [r.code] := by
  have hc : c.isFlush = false := by cases c <;> first | rfl | cases h
  have hall : (codes rules (calls ++ [c])).eraseDups = _ := eraseDups_codes (calls ++ [c])
  rw [codes_concat _ h, eraseDups_concat, eraseDups_codes,
    List.rdropWhile_concat_pos _ _ _ (by simp [hc])] at hall
  split at hall
  · next hm =>
    rw [if_pos hm]
    exact (List.append_cancel_left hall).symm
  · next hm =>
    rw [if_neg hm]
    rw [List.append_assoc] at hall
    exact (List.append_cancel_left hall).symm

end JoinCall

namespace JoinStage

variable {rules : JoinRules} {s : JoinStage} {calls : List JoinCall}

def perform (rules : JoinRules) (s : JoinStage) : JoinCall → JoinStage
  | .add a type => (s.add rules a type).2
  | .column a => (s.column rules a).2
  | .flush => s.flush

def performAll (rules : JoinRules) (calls : List JoinCall) : JoinStage :=
  calls.foldl (perform rules) {}

def handedOver (rules : JoinRules) (s : JoinStage) : List JoinCall → List Join
  | [] => []
  | .flush :: rest => s.joins ++ handedOver rules s.flush rest
  | c :: rest => handedOver rules (s.perform rules c) rest

theorem performAll_concat (rules : JoinRules) (calls : List JoinCall) (c : JoinCall) :
    performAll rules (calls ++ [c]) = (performAll rules calls).perform rules c :=
  List.foldl_concat ..

theorem handedOver_append (rules : JoinRules) (s : JoinStage) (calls calls' : List JoinCall) :
    handedOver rules s (calls ++ calls') =
      handedOver rules s calls ++ handedOver rules (calls.foldl (perform rules) s) calls' := by
  induction calls generalizing s with
  | nil => rfl
  | cons c rest ih => cases c <;> simp [handedOver, ih, perform]

theorem map_retype {codes : List String} (hcodes : codes.Nodup) {joins : List Join}
    {f g : String → Option Join} (h : joins.map some = codes.map f) {code : String} {type : JoinType}
    (href : ∀ other j, f other = some j → j.reference = rules.naming.label other)
    (hcode : code ∈ codes → g code = (f code).map fun j => { j with type })
    (hother : ∀ other, other ≠ code → g other = f other) :
    (retype (rules.naming.label code) type joins).map some = codes.map g := by
  induction codes generalizing joins with
  | nil =>
    obtain rfl : joins = [] := by simpa using h
    rfl
  | cons first rest ih =>
    cases joins with
    | nil => cases h
    | cons j joins =>
      obtain ⟨hj, hjoins⟩ := List.cons.inj h
      obtain ⟨hfirst, hrest⟩ := List.nodup_cons.mp hcodes
      have hlabel : j.reference = rules.naming.label first := href first j hj.symm
      rw [retype, hlabel]
      by_cases hc : first = code
      · subst hc
        have hsame : rest.map g = rest.map f :=
          List.map_congr_left fun other hm => hother other fun h => hfirst (h ▸ hm)
        rw [if_pos rfl, List.map_cons, List.map_cons, hcode List.mem_cons_self, ← hj, hsame, ← hjoins]
        rfl
      · rw [if_neg fun h => hc (rules.naming.label_injective h), List.map_cons, List.map_cons,
          ih hrest hjoins fun hm => hcode (List.mem_cons_of_mem _ hm), hother first hc, hj]

/-- What the requests among calls have come to in a stage. -/
structure Recounts (rules : JoinRules) (calls : List JoinCall) (s : JoinStage) : Prop where
  joins : s.joins.map some =
    (JoinCall.due rules calls).map (rules.joinAfter? (JoinCall.requests rules calls))
  index : ∀ code entity, s.index.join? code entity =
    if entity = rules.entity.code ∧ code ∈ JoinCall.codes rules calls then
      some (rules.entryAfter (JoinCall.requests rules calls) code)
    else none

namespace Recounts

theorem empty (rules : JoinRules) : Recounts rules [] {} where
  joins := rfl
  index code entity := by
    rw [if_neg fun h => List.not_mem_nil h.2]
    rfl

theorem flush (h : Recounts rules calls s) : Recounts rules (calls ++ [.flush]) s.flush where
  joins := by
    rw [JoinCall.due_flush]
    rfl
  index code entity := by
    rw [JoinCall.requests_concat_none calls rfl, JoinCall.codes_concat_none calls rfl]
    exact h.index code entity

theorem of_static (h : Recounts rules calls s) {c : JoinCall} (hc : c.request? rules = none)
    (hflush : c.isFlush = false) : Recounts rules (calls ++ [c]) s where
  joins := by
    rw [JoinCall.requests_concat_none calls hc, JoinCall.due_concat_none calls hc hflush]
    exact h.joins
  index code entity := by
    rw [JoinCall.requests_concat_none calls hc, JoinCall.codes_concat_none calls hc]
    exact h.index code entity

variable {c : JoinCall} {r : JoinRequest}

theorem index_put (h : Recounts rules calls s) (hc : c.request? rules = some r)
    (code entity : String) :
    JoinIndex.join? (s.index.put ((r.code, rules.entity.code),
        rules.entryAfter (JoinCall.requests rules (calls ++ [c])) r.code)) code entity =
      if entity = rules.entity.code ∧ code ∈ JoinCall.codes rules (calls ++ [c]) then
        some (rules.entryAfter (JoinCall.requests rules (calls ++ [c])) code)
      else none := by
  rw [JoinIndex.join?_put, h.index, JoinCall.codes_concat calls hc]
  by_cases hkey : r.code = code ∧ rules.entity.code = entity
  · obtain ⟨rfl, rfl⟩ := hkey
    simp
  · have hne : ¬ (r.code, rules.entity.code) = (code, entity) := by simpa using hkey
    rw [if_neg hne]
    by_cases hentity : entity = rules.entity.code
    · have hcode : r.code ≠ code := fun h => hkey ⟨h, hentity.symm⟩
      simp [JoinRules.entryAfter, hentity, hcode.symm, JoinCall.requests_concat calls hc,
        JoinRequest.typeFor_concat, hcode]
    · simp [hentity]

theorem of_same_type (h : Recounts rules calls s) (hc : c.request? rules = some r)
    (hm : r.code ∈ JoinCall.codes rules calls)
    (htype : JoinRequest.typeFor (JoinCall.requests rules (calls ++ [c])) r.code =
      JoinRequest.typeFor (JoinCall.requests rules calls) r.code) :
    Recounts rules (calls ++ [c]) s := by
  have htypes : JoinRequest.typeFor (JoinCall.requests rules (calls ++ [c])) =
      JoinRequest.typeFor (JoinCall.requests rules calls) := by
    funext code
    by_cases hcode : r.code = code
    · exact hcode ▸ htype
    · rw [JoinCall.requests_concat calls hc, JoinRequest.typeFor_concat, if_neg hcode]
  have hjoins : rules.joinAfter? (JoinCall.requests rules (calls ++ [c])) =
      rules.joinAfter? (JoinCall.requests rules calls) := by
    funext code
    by_cases hcode : r.code = code
    · subst hcode
      rw [JoinCall.requests_concat calls hc] at htype ⊢
      rw [rules.joinAfter?_concat_of_mem _ _ hm, htype, JoinRules.joinAfter?, Option.map_map]
      rfl
    · rw [JoinCall.requests_concat calls hc, rules.joinAfter?_concat_of_ne _ _ hcode]
  refine ⟨?_, fun code entity => ?_⟩
  · rw [JoinCall.due_concat calls hc, if_pos hm, hjoins]
    exact h.joins
  · have hentry : rules.entryAfter (JoinCall.requests rules (calls ++ [c])) code =
        rules.entryAfter (JoinCall.requests rules calls) code := by
      rw [JoinRules.entryAfter, htypes]
      rfl
    have hcodes : code ∈ JoinCall.codes rules (calls ++ [c]) ↔ code ∈ JoinCall.codes rules calls := by
      rw [JoinCall.codes_concat calls hc, List.mem_append, List.mem_singleton]
      exact ⟨fun h => h.elim id (· ▸ hm), .inl⟩
    rw [hentry, h.index]
    simp only [hcodes]

theorem of_known (h : Recounts rules calls s) (hc : c.request? rules = some r)
    (hm : r.code ∈ JoinCall.codes rules calls) (storage : StorageType) :
    Recounts rules (calls ++ [c]) (s.add rules (.dynamic r.id r.code r.table storage) r.type).2 := by
  have hknown := h.index r.code rules.entity.code
  rw [if_pos ⟨rfl, hm⟩] at hknown
  have htype := JoinRequest.typeFor_concat (JoinCall.requests rules calls) r r.code
  rw [← JoinCall.requests_concat calls hc, if_pos rfl] at htype
  by_cases hmerge : (JoinRequest.typeFor (JoinCall.requests rules calls) r.code).merge r.type =
      JoinRequest.typeFor (JoinCall.requests rules calls) r.code
  · have hstage : (s.add rules (.dynamic r.id r.code r.table storage) r.type).2 = s := by
      simp [add, hknown, JoinRules.entryAfter, hmerge]
    rw [hstage]
    exact h.of_same_type hc hm (htype.trans hmerge)
  · have hstage : (s.add rules (.dynamic r.id r.code r.table storage) r.type).2 =
        { index := s.index.put ((r.code, rules.entity.code),
            rules.entryAfter (JoinCall.requests rules (calls ++ [c])) r.code)
          joins := retype (rules.naming.label r.code)
            (JoinRequest.typeFor (JoinCall.requests rules (calls ++ [c])) r.code) s.joins } := by
      simp [add, hknown, JoinRules.entryAfter, hmerge, htype]
    rw [hstage]
    refine ⟨?_, h.index_put hc⟩
    rw [JoinCall.due_concat calls hc, if_pos hm]
    refine map_retype (JoinCall.nodup_due calls) h.joins
      (fun other j => rules.reference_joinAfter? _) (fun _ => ?_) fun other hne => ?_
    · rw [JoinCall.requests_concat calls hc]
      exact rules.joinAfter?_concat_of_mem _ _ hm
    · rw [JoinCall.requests_concat calls hc]
      exact rules.joinAfter?_concat_of_ne _ _ hne.symm

theorem of_new (h : Recounts rules calls s) (hc : c.request? rules = some r)
    (hm : r.code ∉ JoinCall.codes rules calls) (storage : StorageType) :
    Recounts rules (calls ++ [c]) (s.add rules (.dynamic r.id r.code r.table storage) r.type).2 := by
  have hknown := h.index r.code rules.entity.code
  rw [if_neg fun h => hm h.2] at hknown
  have hstage : (s.add rules (.dynamic r.id r.code r.table storage) r.type).2 =
      { index := s.index.put ((r.code, rules.entity.code),
          rules.entryAfter (JoinCall.requests rules (calls ++ [c])) r.code)
        joins := s.joins ++ [rules.join r.id r.code r.table r.type] } := by
    have htype : JoinRequest.typeFor (JoinCall.requests rules (calls ++ [c])) r.code = r.type := by
      rw [JoinCall.requests_concat calls hc]
      exact JoinRequest.typeFor_concat_of_new hm
    simp [add, hknown, JoinRules.entryAfter, htype]
  rw [hstage]
  refine ⟨?_, h.index_put hc⟩
  have hother : ∀ other ∈ JoinCall.due rules calls,
      rules.joinAfter? (JoinCall.requests rules calls ++ [r]) other =
        rules.joinAfter? (JoinCall.requests rules calls) other := by
    intro other hother
    refine rules.joinAfter?_concat_of_ne _ _ fun heq => hm ?_
    exact heq ▸ JoinCall.mem_codes_of_mem_due calls hother
  rw [JoinCall.due_concat calls hc, if_neg hm, JoinCall.requests_concat calls hc, List.map_append,
    List.map_append, h.joins, List.map_congr_left hother, List.map_singleton, List.map_singleton,
    rules.joinAfter?_concat_of_new _ _ hm]

theorem add (h : Recounts rules calls s) (a : Attribute) {type : JoinType}
    (hc : c.request? rules = JoinRequest.for? type a) (hflush : c.isFlush = false) :
    Recounts rules (calls ++ [c]) (s.add rules a type).2 := by
  cases a with
  | static code column storage => exact h.of_static hc hflush
  | dynamic id code table storage =>
    by_cases hm : code ∈ JoinCall.codes rules calls
    · exact h.of_known (r := { id, code, table, type }) hc hm storage
    · exact h.of_new (r := { id, code, table, type }) hc hm storage

theorem perform (h : Recounts rules calls s) (c : JoinCall) :
    Recounts rules (calls ++ [c]) (s.perform rules c) := by
  cases c with
  | add a type => exact h.add a rfl rfl
  | column a => exact h.add a rfl rfl
  | flush => exact h.flush

end Recounts

theorem recounts_performAll (rules : JoinRules) (calls : List JoinCall) :
    Recounts rules calls (performAll rules calls) := by
  induction calls using List.reverseRecOn with
  | nil => exact .empty rules
  | append_singleton calls c ih => exact performAll_concat rules calls c ▸ ih.perform c

theorem Recounts.labels (h : Recounts rules calls s) : s.joins.map Join.label =
    (JoinCall.due rules calls).map fun code => some (rules.naming.label code) := by
  have hlabels {codes : List String} {joins : List Join}
      (h : joins.map some =
        codes.map (rules.joinAfter? (JoinCall.requests rules calls))) :
      joins.map Join.label = codes.map fun code => some (rules.naming.label code) := by
    induction codes generalizing joins with
    | nil =>
      obtain rfl : joins = [] := by simpa using h
      rfl
    | cons code rest ih =>
      cases joins with
      | nil => cases h
      | cons j joins =>
        obtain ⟨hj, hjoins⟩ := List.cons.inj h
        obtain ⟨r, -, rfl⟩ := Option.map_eq_some_iff.mp hj.symm
        rw [List.map_cons, List.map_cons, ih hjoins]
        rfl
  exact hlabels h.joins

theorem labels_handedOver (rules : JoinRules) (calls : List JoinCall) :
    (handedOver rules {} calls).map Join.label =
      (JoinCall.codes rules (calls.rdropWhile (!·.isFlush))).eraseDups.map
        fun code => some (rules.naming.label code) := by
  induction calls using List.reverseRecOn with
  | nil => rfl
  | append_singleton calls c ih =>
    rw [handedOver_append, List.map_append, ih]
    cases hc : c.isFlush with
    | false =>
      have hnone : handedOver rules (calls.foldl (JoinStage.perform rules) {}) [c] = [] := by
        cases c <;> first | rfl | cases hc
      rw [hnone, List.rdropWhile_concat_pos _ _ _ (by simp [hc])]
      exact List.append_nil _
    | true =>
      obtain rfl : c = .flush := by cases c <;> first | rfl | cases hc
      have hall : handedOver rules (calls.foldl (JoinStage.perform rules) {}) [.flush] =
          (performAll rules calls).joins := List.append_nil _
      rw [hall, (recounts_performAll rules calls).labels,
        List.rdropWhile_concat_neg _ _ _ (by simp [JoinCall.isFlush]),
        JoinCall.codes_concat_none _ rfl, JoinCall.eraseDups_codes calls, List.map_append]

theorem count_labels (rules : JoinRules) {codes : List String} {joins : List Join}
    (h : joins.map Join.label = codes.eraseDups.map fun code => some (rules.naming.label code))
    (code : String) :
    (joins.map Join.label).count (some (rules.naming.label code)) =
      if code ∈ codes then 1 else 0 := by
  have hinjective : Function.Injective fun code => some (rules.naming.label code) :=
    fun _ _ heq => rules.naming.label_injective (Option.some.inj heq)
  rw [h, List.count_map_of_injective _ _ hinjective, (nodup_eraseDups codes).count]
  simp only [List.mem_eraseDups]

/-- A stage over any calls, the first of which comes to an empty one. A dynamic attribute gets the same
column whenever it is asked for, and a static one its column of the table, with nothing changed. The
joins that are there to hand over are those for the codes first asked for since the last hand-over, in
that order, and they are inner ones for the codes that an inner join was asked for; so are the entries
of the index, which are those of all codes asked for. No code is joined twice in the course of calls,
and each code asked for is joined once when all joins have been handed over. -/
theorem joins_of_calls (rules : JoinRules) (calls : List JoinCall) :
    (∀ id code table storage,
      (∀ type, ((performAll rules calls).add rules (.dynamic id code table storage) type).1 =
        .qualified (rules.naming.label code) rules.naming.valueColumn) ∧
      ((performAll rules calls).column rules (.dynamic id code table storage)).1 =
        .qualified (rules.naming.label code) rules.naming.valueColumn) ∧
    (∀ code column storage,
      (∀ type, (performAll rules calls).add rules (.static code column storage) type =
        (.qualified rules.entity.table column, performAll rules calls)) ∧
      (performAll rules calls).column rules (.static code column storage) =
        (.qualified rules.entity.table column, performAll rules calls)) ∧
    handedOver rules {} (calls ++ [.flush]) =
      handedOver rules {} calls ++ (performAll rules calls).joins ∧
    (performAll rules calls).joins.map some =
      (JoinCall.due rules calls).map (rules.joinAfter? (JoinCall.requests rules calls)) ∧
    (∀ code, ∀ j ∈ (performAll rules calls).joins, j.label = some (rules.naming.label code) →
      (j.type = .inner ↔
        ∃ r ∈ JoinCall.requests rules calls, r.code = code ∧ r.type = .inner)) ∧
    (∀ code,
      ((handedOver rules {} calls).map Join.label).count (some (rules.naming.label code)) ≤ 1 ∧
      ((handedOver rules {} (calls ++ [.flush])).map Join.label).count
        (some (rules.naming.label code)) = if code ∈ JoinCall.codes rules calls then 1 else 0) ∧
    ∀ code,
      (((performAll rules calls).index.join? code rules.entity.code).isSome ↔
        code ∈ JoinCall.codes rules calls) ∧
      ∀ known, (performAll rules calls).index.join? code rules.entity.code = some known →
        (known.type = .inner ↔
          ∃ r ∈ JoinCall.requests rules calls, r.code = code ∧ r.type = .inner) := by
  have h := recounts_performAll rules calls
  have hcolumn : ∀ id code table storage,
      rules.columnOf (performAll rules calls).index (.dynamic id code table storage) =
        .qualified (rules.naming.label code) rules.naming.valueColumn := by
    intro id code table storage
    rw [JoinRules.columnOf, h.index]
    split
    · next heq =>
      split at heq
      · cases heq
        rfl
      · cases heq
    · rfl
  refine ⟨fun id code table storage => ?_, fun code column storage => ⟨fun _ => rfl, rfl⟩, ?_,
    h.joins, fun code j hj hlabel => ?_, fun code => ⟨?_, ?_⟩, fun code => ⟨?_, fun known hknown => ?_⟩⟩
  · exact ⟨fun type => (add_column ..).trans (hcolumn ..), (add_column ..).trans (hcolumn ..)⟩
  · rw [handedOver_append]
    exact congrArg _ (List.append_nil _)
  · have hmem : some j ∈ (performAll rules calls).joins.map some := List.mem_map_of_mem hj
    rw [h.joins] at hmem
    obtain ⟨other, -, hother⟩ := List.mem_map.mp hmem
    obtain ⟨r, -, rfl⟩ := Option.map_eq_some_iff.mp hother
    obtain rfl : other = code := rules.naming.label_injective (Option.some.inj hlabel)
    exact JoinRequest.typeFor_eq_inner
  · rw [count_labels rules (labels_handedOver rules calls)]
    split <;> decide
  · rw [count_labels rules (labels_handedOver rules _),
      List.rdropWhile_concat_neg _ _ _ (by simp [JoinCall.isFlush]), JoinCall.codes_concat_none _ rfl]
  · rw [h.index]
    split
    · next hm => simp [hm.2]
    · next hm =>
      have hcode : code ∉ JoinCall.codes rules calls := fun hc => hm ⟨rfl, hc⟩
      simp [hcode]
  · rw [h.index] at hknown
    split at hknown
    · cases hknown
      exact JoinRequest.typeFor_eq_inner
    · cases hknown

end JoinStage

end EntityQuery
