import EntityQuery.Proofs.Tokens
import EntityQuery.Sql.Render

namespace EntityQuery

namespace Fragment

def tokensAll (d : Dialect) (fs : List Fragment) : List Token := fs.flatMap (tokens d)

def Sound (fs : List Fragment) : Prop := ∀ f ∈ fs, f.fault? = none

variable {d : Dialect} {fs gs : List Fragment}

theorem tokensAll_append (fs gs : List Fragment) :
    tokensAll d (fs ++ gs) = tokensAll d fs ++ tokensAll d gs := List.flatMap_append

theorem tokensAll_text {s : String} (h : isPlain s = true) (fs : List Fragment) :
    tokensAll d (.text s :: fs) = letters s ++ tokensAll d fs := by
  rw [tokensAll, List.flatMap_cons, tokens, Dialect.word_of_isPlain h]
  rfl

theorem tokensAll_name (s : String) (fs : List Fragment) :
    tokensAll d (.name s :: fs) = .aName :: .name s.toList :: tokensAll d fs := rfl

theorem sound_nil : Sound [] := List.forall_mem_nil _

theorem sound_append : Sound (fs ++ gs) ↔ Sound fs ∧ Sound gs := List.forall_mem_append

theorem sound_cons {f : Fragment} : Sound (f :: fs) ↔ f.fault? = none ∧ Sound fs :=
  List.forall_mem_cons

theorem sound_text {s : String} : Sound (.text s :: fs) ↔ Sound fs :=
  sound_cons.trans (and_iff_right rfl)

theorem eq_scalar_of_sound {v : Value} (h : (value v).fault? = none) : ∃ s, v = .scalar s := by
  cases v with
  | scalar s => exact ⟨s, rfl⟩
  | list vs => cases h

end Fragment

open Fragment

def PrefixFree (ws : List (List Token)) : Prop := ∀ v ∈ ws, ∀ w ∈ ws, v <+: w → v = w

instance (ws : List (List Token)) : Decidable (PrefixFree ws) :=
  inferInstanceAs (Decidable (∀ v ∈ ws, ∀ w ∈ ws, v <+: w → v = w))

theorem prefix_of_append_eq {v w r s : List Token} (h : v ++ r = w ++ s) : v <+: w ∨ w <+: v :=
  List.prefix_or_prefix_of_prefix (List.prefix_append v r) (h ▸ List.prefix_append w s)

theorem PrefixFree.read {ws : List (List Token)} (h : PrefixFree ws) {v w r s : List Token}
    (hv : v ∈ ws) (hw : w ∈ ws) (e : v ++ r = w ++ s) : v = w ∧ r = s := by
  have hvw : v = w := by
    obtain hp | hp := prefix_of_append_eq e
    · exact h v hv w hw hp
    · exact (h w hw v hv hp).symm
  subst hvw
  exact ⟨rfl, List.append_cancel_left e⟩

/-- Tokens that end, or go on with one of the texts given. -/
def Begins (ws : List String) (r : List Token) : Prop := r = [] ∨ ∃ w ∈ ws, letters w <+: r

/-- Texts that tell whether one of the first or one of the second comes next. -/
def Clash (vs ws : List String) : Prop :=
  ∀ v ∈ vs, letters v ≠ [] ∧ ∀ w ∈ ws, ¬ letters v <+: letters w ∧ ¬ letters w <+: letters v

instance (vs ws : List String) : Decidable (Clash vs ws) :=
  inferInstanceAs (Decidable (∀ v ∈ vs, _ ∧ ∀ w ∈ ws, _))

def HeadNot (kind : Token → Bool) (r : List Token) : Prop := ∀ t ∈ r.head?, kind t = false

namespace Begins

variable {vs ws : List String} {r : List Token}

theorem nil (ws : List String) : Begins ws [] := .inl rfl

theorem text {w : String} (h : w ∈ ws) (r : List Token) : Begins ws (letters w ++ r) :=
  .inr ⟨w, h, List.prefix_append _ _⟩

theorem mono (h : Begins ws r) (hsub : ws ⊆ vs) : Begins vs r := by
  obtain rfl | ⟨w, hw, hp⟩ := h
  · exact nil vs
  · exact .inr ⟨w, hsub hw, hp⟩

theorem not_of_clash (hc : Clash vs ws) {v : String} (hv : v ∈ vs) (hp : letters v <+: r) :
    ¬ Begins ws r := by
  obtain ⟨hne, hclash⟩ := hc v hv
  rintro (rfl | ⟨w, hw, hpw⟩)
  · exact hne (List.prefix_nil.mp hp)
  · obtain h | h := List.prefix_or_prefix_of_prefix hp hpw
    · exact (hclash w hw).1 h
    · exact (hclash w hw).2 h

theorem headNot {kind : Token → Bool} (h : Begins ws r)
    (hws : (ws.all fun w => (letters w).head?.any fun t => !kind t) = true) : HeadNot kind r := by
  intro t ht
  obtain rfl | ⟨w, hw, rest, rfl⟩ := h
  · cases ht
  · have hw := List.all_eq_true.mp hws w hw
    cases hl : letters w with
    | nil => simp [hl] at hw
    | cons l ls =>
      rw [hl] at hw ht
      obtain rfl : l = t := by simpa using ht
      simpa using hw

end Begins

/-- A part `a` of a query is read from the front of tokens that go on as `follow` says: whatever has
its tokens agrees with it in what is written, and the rest of the tokens is the same. -/
def ReadsAt {α β : Type} (d : Dialect) (follow : List Token → Prop) (p : α → List Fragment)
    (written : α → β) (a : α) : Prop :=
  ∀ b r s, Sound (p a) → Sound (p b) → follow r → follow s →
    tokensAll d (p a) ++ r = tokensAll d (p b) ++ s → written a = written b ∧ r = s

section Parts

variable {α β γ : Type} {d : Dialect} {p : α → List Fragment} {written : α → β}

theorem ReadsAt.of (f : γ → α) {follow : List Token → Prop} {c : γ}
    (h : ReadsAt d follow p written (f c)) :
    ReadsAt d follow (fun c => p (f c)) (fun c => written (f c)) c :=
  fun c' => h (f c')

variable {follow follow' : List Token → Prop} {x : α}

theorem ReadsAt.mono (h : ReadsAt d follow p written x) (hfollow : ∀ r, follow' r → follow r) :
    ReadsAt d follow' p written x :=
  fun y r s hx hy hr hs e => h y r s hx hy (hfollow r hr) (hfollow s hs) e

theorem ReadsAt.imp {written' : α → γ} (h : ReadsAt d follow p written x)
    (hw : ∀ y, written x = written y → written' x = written' y) : ReadsAt d follow p written' x :=
  fun y r s hx hy hr hs e => (h y r s hx hy hr hs e).imp_left (hw y)

theorem ReadsAt.congr {q : α → List Fragment} (h : ReadsAt d follow p written x)
    (hq : ∀ y, q y = p y) : ReadsAt d follow q written x := by
  rwa [funext hq]

/-- Two parts are read one behind the other, where what follows the first one is how the second one
begins. -/
theorem ReadsAt.append {q : α → List Fragment} {written' : α → γ} (hp : ReadsAt d follow p written x)
    (hq : ReadsAt d follow' q written' x)
    (hbegins : ∀ y r, follow' r → follow (tokensAll d (q y) ++ r)) :
    ReadsAt d follow' (fun y => p y ++ q y) (fun y => (written y, written' y)) x := by
  intro y r s hx hy hr hs e
  rw [tokensAll_append, tokensAll_append, List.append_assoc, List.append_assoc] at e
  obtain ⟨hx, hx'⟩ := sound_append.mp hx
  obtain ⟨hy, hy'⟩ := sound_append.mp hy
  obtain ⟨hfirst, e⟩ := hp y _ _ hx hy (hbegins x r hr) (hbegins y s hs) e
  obtain ⟨hsecond, hrs⟩ := hq y r s hx' hy' hr hs e
  exact ⟨Prod.ext hfirst hsecond, hrs⟩

theorem ReadsAt.text {w : String} (hw : isPlain w = true)
    (h : ReadsAt d follow p written x) : ReadsAt d follow (fun x => .text w :: p x) written x := by
  intro y r s hx hy hr hs e
  rw [tokensAll_text hw, tokensAll_text hw, List.append_assoc, List.append_assoc] at e
  exact h y r s (sound_text.mp hx) (sound_text.mp hy) hr hs (List.append_cancel_left e)

theorem ReadsAt.closed {w : String} (hw : isPlain w = true)
    (h : ReadsAt d (Begins [w]) p written x) :
    ReadsAt d follow (fun x => p x ++ [.text w]) written x := by
  have hclose (r : List Token) : Begins [w] (tokensAll d [.text w] ++ r) := by
    rw [tokensAll_text hw, List.append_assoc]
    exact Begins.text (List.mem_singleton_self w) _
  intro y r s hx hy _ _ e
  rw [tokensAll_append, tokensAll_append, List.append_assoc, List.append_assoc] at e
  obtain ⟨hxy, e⟩ := h y _ _ (sound_append.mp hx).1 (sound_append.mp hy).1 (hclose r) (hclose s) e
  exact ⟨hxy, List.append_cancel_left e⟩

theorem ReadsAt.name (x : String) :
    ReadsAt d follow (fun x => [.name x]) id x := by
  intro y r s _ _ _ _ e
  rw [tokensAll_name, tokensAll_name] at e
  simpa [tokensAll, String.toList_inj] using e

end Parts

section Lists

variable {α β : Type} {d : Dialect} {p : α → List Fragment} {written : α → β}

def Leads (d : Dialect) (vs : List String) (p : α → List Fragment) : Prop :=
  ∀ x, ∃ v ∈ vs, letters v <+: tokensAll d (p x)

theorem Leads.text {vs : List String} {w : α → String} {q : α → List Fragment}
    (hw : ∀ x, w x ∈ vs ∧ isPlain (w x) = true) : Leads d vs fun x => .text (w x) :: q x := by
  intro x
  refine ⟨w x, (hw x).1, ?_⟩
  rw [tokensAll_text (hw x).2]
  exact List.prefix_append _ _

theorem Leads.begins {vs ws : List String} (h : Leads d vs p) (xs : List α) {r : List Token}
    (hr : Begins ws r) : Begins (vs ++ ws) (tokensAll d (xs.flatMap p) ++ r) := by
  cases xs with
  | nil => exact hr.mono (List.subset_append_right vs ws)
  | cons x rest =>
    obtain ⟨v, hv, hp⟩ := h x
    refine .inr ⟨v, List.mem_append_left ws hv, ?_⟩
    rw [List.flatMap_cons, tokensAll_append, List.append_assoc]
    exact hp.trans (List.prefix_append _ _)

theorem Leads.stops {vs ws : List String} (h : Leads d vs p) (hc : Clash vs ws) (x : α)
    (r : List Token) : ¬ Begins ws (tokensAll d (p x) ++ r) := by
  obtain ⟨v, hv, hp⟩ := h x
  exact Begins.not_of_clash hc hv (hp.trans (List.prefix_append _ _))

theorem ReadsAt.option {follow : List Token → Prop}
    (hstop : ∀ x r, ¬ follow (tokensAll d (p x) ++ r)) {o : Option α}
    (h : ∀ x ∈ o, ReadsAt d follow p written x) :
    ReadsAt d follow (fun o => o.toList.flatMap p) (Option.map written) o := by
  have hsome (x : α) : (some x).toList.flatMap p = p x := by
    rw [Option.toList_some, List.flatMap_singleton]
  intro o' r s ho ho' hr hs e
  cases o with
  | none =>
    cases o' with
    | none => exact ⟨rfl, e⟩
    | some y =>
      simp only [hsome] at e
      change r = _ at e
      exact (hstop y s (e ▸ hr)).elim
  | some x =>
    simp only [hsome] at ho e
    cases o' with
    | none =>
      change _ = s at e
      exact (hstop x r (e ▸ hs)).elim
    | some y =>
      simp only [hsome] at ho' e
      exact (h x rfl y r s ho ho' hr hs e).imp_left (congrArg some)

theorem ReadsAt.flatMap {vs ws : List String} (hleads : Leads d vs p) (hc : Clash vs ws)
    {xs : List α} (h : ∀ x ∈ xs, ReadsAt d (Begins (vs ++ ws)) p written x) :
    ReadsAt d (Begins ws) (List.flatMap p) (List.map written) xs := by
  intro ys r s
  induction xs generalizing ys with
  | nil =>
    intro _ _ hr _ e
    cases ys with
    | nil => exact ⟨rfl, e⟩
    | cons y ys =>
      change r = _ at e
      rw [List.flatMap_cons, tokensAll_append, List.append_assoc] at e
      exact (hleads.stops hc y _ (e ▸ hr)).elim
  | cons x xs ih =>
    intro hx hy hr hs e
    rw [List.flatMap_cons] at hx
    rw [List.flatMap_cons, tokensAll_append, List.append_assoc] at e
    cases ys with
    | nil =>
      change _ = s at e
      exact (hleads.stops hc x _ (e ▸ hs)).elim
    | cons y ys =>
      rw [List.flatMap_cons] at hy
      rw [List.flatMap_cons, tokensAll_append, List.append_assoc] at e
      obtain ⟨hxy, e⟩ := h x List.mem_cons_self y _ _ (sound_append.mp hx).1 (sound_append.mp hy).1
        (hleads.begins xs hr) (hleads.begins ys hs) e
      obtain ⟨hrest, hrs⟩ := ih (fun z hz => h z (List.mem_cons_of_mem x hz)) ys
        (sound_append.mp hx).2 (sound_append.mp hy).2 hr hs e
      exact ⟨List.cons_eq_cons.mpr ⟨hxy, hrest⟩, hrs⟩

theorem intercalate_map_cons (sep : String) (p : α → List Fragment) (x : α) (xs : List α) :
    [.text sep].intercalate ((x :: xs).map p) = p x ++ xs.flatMap fun y => .text sep :: p y := by
  rw [List.map_cons, intercalate_cons, List.flatMap_map]
  rfl

theorem forall_mem_separated {P : Fragment → Prop} {sep : String} (hsep : P (.text sep))
    (p : α → List Fragment) (xs : List α) (h : ∀ x ∈ xs, ∀ f ∈ p x, P f) :
    ∀ f ∈ [.text sep].intercalate (xs.map p), P f := by
  cases xs with
  | nil => exact List.forall_mem_nil _
  | cons x rest =>
    obtain ⟨hx, hrest⟩ := List.forall_mem_cons.mp h
    rw [intercalate_map_cons, List.forall_mem_append]
    refine ⟨hx, fun f hf => ?_⟩
    obtain ⟨y, hy, hf⟩ := List.mem_flatMap.mp hf
    exact List.forall_mem_cons.mpr ⟨hsep, hrest y hy⟩ f hf

theorem ReadsAt.separated {sep : String} {ws : List String} (hsep : isPlain sep = true)
    (hc : Clash [sep] ws) {xs : α × List α}
    (h : ∀ y ∈ xs.1 :: xs.2, ReadsAt d (Begins (sep :: ws)) p written y) :
    ReadsAt d (Begins ws) (fun xs => [.text sep].intercalate ((xs.1 :: xs.2).map p))
      (fun xs => (xs.1 :: xs.2).map written) xs := by
  have hleads : Leads d [sep] fun y => .text sep :: p y :=
    Leads.text (w := fun _ => sep) fun _ => ⟨List.mem_singleton_self sep, hsep⟩
  have hrest : ReadsAt d (Begins ws) _ _ xs :=
    (ReadsAt.flatMap hleads hc fun y hy => (h y (List.mem_cons_of_mem xs.1 hy)).text hsep).of Prod.snd
  have hparts := ((h xs.1 List.mem_cons_self).of Prod.fst).append hrest fun xs r hr =>
    hleads.begins xs.2 hr
  refine (hparts.congr fun xs => intercalate_map_cons sep p xs.1 xs.2).imp fun ys hys => ?_
  exact List.cons_eq_cons.mpr (Prod.mk.inj hys)

def sectionFragments (opening sep : String) (p : α → List Fragment) : List α → List Fragment
  | [] => []
  | x :: xs => .text opening :: [.text sep].intercalate ((x :: xs).map p)

theorem ReadsAt.section {opening sep : String} {ws : List String} (hopening : isPlain opening = true)
    (hsep : isPlain sep = true) (hc : Clash [opening] ws) (hc' : Clash [sep] ws) {xs : List α}
    (h : ∀ x ∈ xs, ReadsAt d (Begins (sep :: ws)) p written x) :
    ReadsAt d (Begins ws) (sectionFragments opening sep p) (List.map written) xs := by
  have hleads : Leads d [opening] fun xs : α × List α => sectionFragments opening sep p (xs.1 :: xs.2) :=
    Leads.text (w := fun _ => opening) fun _ => ⟨List.mem_singleton_self opening, hopening⟩
  intro ys r s hxs hys hr hs e
  cases xs with
  | nil =>
    cases ys with
    | nil => exact ⟨rfl, e⟩
    | cons y ys =>
      change r = _ at e
      exact (hleads.stops hc (y, ys) s (e ▸ hr)).elim
  | cons x xs =>
    cases ys with
    | nil =>
      change _ = s at e
      exact (hleads.stops hc (x, xs) r (e ▸ hs)).elim
    | cons y ys =>
      have hread : ReadsAt d (Begins ws) _ _ (x, xs) := ReadsAt.separated hsep hc' h
      exact hread.text hopening (y, ys) r s hxs hys hr hs e

theorem section_begins {opening : String} (hopening : isPlain opening = true) (sep : String)
    {ws : List String} (xs : List α) {r : List Token} (hr : Begins ws r) :
    Begins (opening :: ws) (tokensAll d (sectionFragments opening sep p xs) ++ r) := by
  cases xs with
  | nil => exact hr.mono (List.subset_cons_self opening ws)
  | cons x xs =>
    rw [sectionFragments, tokensAll_text hopening, List.append_assoc]
    exact Begins.text List.mem_cons_self _

end Lists

/-- Texts for a choice, none of which is the beginning of the text for another one. -/
def Tells {κ : Type} (w : κ → String) : Prop := ∀ k k', letters (w k) <+: letters (w k') → k = k'

namespace Tells

variable {κ α β : Type} {w : κ → String} {d : Dialect} {follow : List Token → Prop}

theorem reads (h : Tells w) {k k' : κ} {r s : List Token}
    (e : letters (w k) ++ r = letters (w k') ++ s) : k = k' ∧ r = s := by
  have hk : k = k' := by
    obtain hp | hp := prefix_of_append_eq e
    · exact h k k' hp
    · exact (h k' k hp).symm
  subst hk
  exact ⟨rfl, List.append_cancel_left e⟩

theorem append (h : Tells w) (u : String) : Tells fun k => w k ++ u := by
  intro k k' hp
  obtain ⟨v, hv⟩ := hp
  rw [letters_append, letters_append, List.append_assoc] at hv
  exact (h.reads hv).1

theorem choose (h : Tells w) (hw : ∀ k, isPlain (w k) = true) (k : α → κ) {p : α → List Fragment}
    {written : α → β} {x : α} (hp : ReadsAt d follow p written x) :
    ReadsAt d follow (fun y => .text (w (k y)) :: p y) (fun y => (k y, written y)) x := by
  intro y r s hx hy hr hs e
  rw [tokensAll_text (hw _), tokensAll_text (hw _), List.append_assoc, List.append_assoc] at e
  obtain ⟨hk, e⟩ := h.reads e
  obtain ⟨hxy, hrs⟩ := hp y r s (sound_text.mp hx) (sound_text.mp hy) hr hs e
  exact ⟨Prod.ext hk hxy, hrs⟩

theorem alone (h : Tells w) (hw : ∀ k, isPlain (w k) = true) (k : α → κ) (x : α) :
    ReadsAt d follow (fun y => [.text (w (k y))]) k x := by
  have hnothing : ReadsAt d follow (fun _ : α => []) (fun _ => ()) x :=
    fun _ _ _ _ _ _ _ e => ⟨rfl, e⟩
  exact (h.choose hw k hnothing).imp fun _ => congrArg Prod.fst

end Tells

end EntityQuery
