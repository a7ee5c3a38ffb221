import EntityQuery.Query.AttributeJoins
import Mathlib.Data.List.Basic
import Mathlib.Data.List.Induction

namespace EntityQuery

inductive JoinTypeCall where
  | request (code : String) (type : JoinType)
  | pin (code : String) (type : JoinType)
  deriving DecidableEq

namespace JoinTypeCall

def code : JoinTypeCall → String
  | request code _ => code
  | pin code _ => code

def isPin : JoinTypeCall → Bool
  | request .. => false
  | pin .. => true

def pinned? (code : String) : JoinTypeCall → Option JoinType
  | request .. => none
  | pin other type => if other = code then some type else none

def pins (calls : List JoinTypeCall) (code : String) : List JoinType :=
  calls.filterMap (pinned? code)

variable {calls calls' : List JoinTypeCall} {code : String} {p : JoinTypeCall → Bool}

theorem pins_append :
    pins (calls ++ calls') code = pins calls code ++ pins calls' code :=
  List.filterMap_append

theorem mem_pins {type : JoinType} : type ∈ pins calls code ↔ .pin code type ∈ calls := by
  unfold pins
  rw [List.mem_filterMap]
  constructor
  · rintro ⟨c, hc, hpin⟩
    cases c with
    | request => cases hpin
    | pin other pinned =>
      obtain ⟨rfl, hsome⟩ := Option.ite_none_right_eq_some.mp hpin
      exact Option.some.inj hsome ▸ hc
  · intro hc
    exact ⟨_, hc, if_pos rfl⟩

theorem pinned?_of_not_isPin {c : JoinTypeCall} (h : c.isPin = false) : c.pinned? code = none := by
  cases c with
  | request => rfl
  | pin => cases h

theorem pinned?_of_code_ne {c : JoinTypeCall} (h : c.code ≠ code) : c.pinned? code = none := by
  cases c with
  | request => rfl
  | pin => exact if_neg h

theorem pins_filter (h : ∀ c, p c = false → c.pinned? code = none) :
    pins (calls.filter p) code = pins calls code := by
  unfold pins
  rw [List.filterMap_filter]
  apply List.filterMap_congr
  intro c _
  cases hp : p c with
  | true => rfl
  | false => exact (h c hp).symm

theorem pins_eq_of_filter (h : ∀ c, p c = false → c.pinned? code = none)
    (hcalls : calls'.filter p = calls.filter p) : pins calls' code = pins calls code := by
  rw [← pins_filter h, hcalls, pins_filter h]

end JoinTypeCall

theorem JoinType.eq_of_inner_iff {type type' : JoinType} (h : type = .inner ↔ type' = .inner) :
    type = type' := by
  cases type <;> cases type' <;> simp at h ⊢

namespace JoinTypes

/-- Whether someone requested an inner join for a code. -/
def AsksInner (t : JoinTypes) (code : String) : Prop :=
  ∃ k, t.requested.find? code = some (k, .inner)

section

variable (t : JoinTypes) (code other : String) (type : JoinType)

@[simp] theorem not_asksInner_empty : ¬ AsksInner {} code := by
  rintro ⟨k, h⟩
  cases h

theorem asksInner_request :
    (t.request other type).AsksInner code ↔ t.AsksInner code ∨ (other = code ∧ type = .inner) := by
  unfold AsksInner request
  simp only [Keyed.find?_put]
  by_cases hk : other = code
  · subst other
    cases t.requested.find? code with
    | none => simp
    | some known =>
      obtain ⟨k, kind⟩ := known
      cases kind <;> cases type <;> simp [JoinType.merge]
  · simp [hk]

theorem asksInner_of_type (hp : t.pinned.find? code = none) :
    t.type code = .inner ↔ t.AsksInner code := by
  unfold JoinTypes.type AsksInner
  rw [hp]
  cases t.requested.find? code with
  | none => simp
  | some known => simp [Prod.ext_iff]

variable {t code type}

theorem type_of_pinned {k : String} (hp : t.pinned.find? code = some (k, type)) :
    t.type code = type := by
  unfold JoinTypes.type
  rw [hp]

end

def perform (t : JoinTypes) : JoinTypeCall → JoinTypes
  | .request code type => t.request code type
  | .pin code type => t.pin code type

def performAll (calls : List JoinTypeCall) : JoinTypes := calls.foldl perform {}

variable (t : JoinTypes) (code : String) (calls : List JoinTypeCall)

theorem asksInner_perform (c : JoinTypeCall) :
    (t.perform c).AsksInner code ↔ t.AsksInner code ∨ c = .request code .inner := by
  cases c with
  | request other type =>
    rw [perform, asksInner_request, JoinTypeCall.request.injEq]
  | pin other type =>
    have hsame : (t.perform (.pin other type)).AsksInner code ↔ t.AsksInner code := Iff.rfl
    simp [hsame]

theorem find?_pinned_perform (c : JoinTypeCall) : (t.perform c).pinned.find? code =
    ((c.pinned? code).map (code, ·)).or (t.pinned.find? code) := by
  cases c with
  | request other type => rfl
  | pin other type =>
    have hput : (t.perform (.pin other type)).pinned.find? code =
        if other = code then some (other, type) else t.pinned.find? code := Keyed.find?_put ..
    rw [hput, JoinTypeCall.pinned?]
    by_cases hk : other = code
    · rw [if_pos hk, if_pos hk, hk]
      rfl
    · rw [if_neg hk, if_neg hk]
      rfl

theorem asksInner_foldl : (calls.foldl perform t).AsksInner code ↔
    t.AsksInner code ∨ .request code .inner ∈ calls := by
  induction calls using List.reverseRecOn with
  | nil => simp
  | append_singleton calls c ih =>
    rw [List.foldl_concat, asksInner_perform, ih, List.mem_append, List.mem_singleton, or_assoc,
      eq_comm (a := c)]

theorem find?_pinned_foldl : (calls.foldl perform t).pinned.find? code =
    ((JoinTypeCall.pins calls code).getLast?.map (code, ·)).or (t.pinned.find? code) := by
  induction calls using List.reverseRecOn with
  | nil => rfl
  | append_singleton calls c ih =>
    rw [List.foldl_concat, find?_pinned_perform, ih, JoinTypeCall.pins_append]
    cases hc : c.pinned? code with
    | none => simp [JoinTypeCall.pins, hc]
    | some type => simp [JoinTypeCall.pins, hc]

variable {t code}

theorem type_foldl (h : t.pinned.find? code = none) : (calls.foldl perform t).type code =
    (JoinTypeCall.pins calls code).getLast?.getD
      (if .request code .inner ∈ calls then .inner else t.type code) := by
  have hpinned := find?_pinned_foldl t code calls
  rw [h, Option.or_none] at hpinned
  cases hlast : (JoinTypeCall.pins calls code).getLast? with
  | some type =>
    rw [hlast] at hpinned
    exact type_of_pinned hpinned
  | none =>
    rw [hlast] at hpinned
    have hinner : (calls.foldl perform t).type code = .inner ↔
        t.type code = .inner ∨ .request code .inner ∈ calls := by
      rw [asksInner_of_type _ _ hpinned, asksInner_foldl, asksInner_of_type _ _ h]
    rw [Option.getD_none]
    split
    · next hm => exact hinner.mpr (.inr hm)
    · next hm =>
      apply JoinType.eq_of_inner_iff
      rw [hinner, or_iff_left hm]

variable {calls' : List JoinTypeCall} {calls}

/-- The pins for a code and whether an inner join was requested for it are all that counts. -/
theorem type_performAll_congr
    (hpins : JoinTypeCall.pins calls' code = JoinTypeCall.pins calls code)
    (hrequests : .request code .inner ∈ calls' ↔ .request code .inner ∈ calls) :
    (performAll calls').type code = (performAll calls).type code := by
  unfold performAll
  rw [type_foldl calls' rfl, type_foldl calls rfl, hpins]
  simp only [hrequests]

/-- The type of join for an attribute after any calls: the one that was pinned last, if one was;
otherwise an inner join if one was ever requested, and else a left join. It is the same after any other
calls that make the same requests in any order, any number of times each, and the same pins in the same
order, wherever the requests stand among them; and after calls that differ in what they do for other
attributes. -/
theorem type_of_calls (calls : List JoinTypeCall) (code : String) :
    (performAll calls).type code =
      (JoinTypeCall.pins calls code).getLast?.getD
        (if .request code .inner ∈ calls then .inner else .left) ∧
    (∀ calls' : List JoinTypeCall, (∀ c, c.isPin = false → (c ∈ calls' ↔ c ∈ calls)) →
      calls'.filter (·.isPin) = calls.filter (·.isPin) →
        (performAll calls').type code = (performAll calls).type code) ∧
    ∀ calls' : List JoinTypeCall, calls'.filter (·.code = code) = calls.filter (·.code = code) →
      (performAll calls').type code = (performAll calls).type code := by
  refine ⟨type_foldl calls rfl, fun calls' hrequests hpins => ?_, fun calls' hcode => ?_⟩
  · exact type_performAll_congr
      (JoinTypeCall.pins_eq_of_filter (fun _ => JoinTypeCall.pinned?_of_not_isPin) hpins)
      (hrequests _ rfl)
  · have hpins := JoinTypeCall.pins_eq_of_filter
      (fun _ h => JoinTypeCall.pinned?_of_code_ne (of_decide_eq_false h)) hcode
    apply type_performAll_congr hpins
    have hmem : ∀ calls : List JoinTypeCall,
        .request code .inner ∈ calls.filter (·.code = code) ↔ .request code .inner ∈ calls :=
      fun calls => by simp [JoinTypeCall.code]
    rw [← hmem calls', hcode, hmem]

example : (performAll [.request "color" .inner, .pin "color" .left, .request "size" .left,
    .request "color" .inner, .request "size" .inner]).type "color" = .left := by decide

end JoinTypes

end EntityQuery
