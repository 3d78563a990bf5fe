import Polytype.Inference.Basic
import Polytype.Proofs.Env.Free

/-!
# The history of a check

From a variable one gets to others by its binding and by its recorded fields (`Subst.Leads`). A
quantified variable is isolated if it belongs to the new schemes alone: neither
a variable drawn before them nor one that they leave free leads to it. A substitution
respects the schemes if it binds none of their isolated variables, and none can be reached from the
environment in which they were found. In a check without records this is asked of all variables that
the schemes quantify.

While a check goes on, an isolated variable is guarded by a set of variables that has everything
the check can still touch, that nothing leads out of, and that does not have the variable.
-/

namespace Polytype

open Ty

namespace Subst

inductive Step (s : Subst) : Nat → Nat → Prop
  | binding {id t other} : s.types.get? id = some t → t.mentions other = true → Step s id other
  | field {id fields field other} : s.records.get? id = some fields → field ∈ fields →
      field.2.mentions other = true → Step s id other

inductive Leads (s : Subst) : Nat → Nat → Prop
  | refl {id} : Leads s id id
  | step {id mid other} : s.Step id mid → Leads s mid other → Leads s id other

/-- The variable leads to no variable in `Q`. -/
def Avoids (s : Subst) (Q : Nat → Prop) (id : Nat) : Prop := ∀ q, Q q → ¬s.Leads id q

theorem Leads.trans {s : Subst} {id mid other : Nat} (h : s.Leads id mid)
    (h' : s.Leads mid other) : s.Leads id other := by
  induction h with
  | refl => exact h'
  | step hstep _ ih => exact .step hstep (ih h')

/-- Steps stay within the set. -/
def Closed (s : Subst) (C : Nat → Prop) : Prop := ∀ id other, C id → s.Step id other → C other

theorem Closed.leads {s : Subst} {C : Nat → Prop} (h : s.Closed C) {id other : Nat} (hid : C id)
    (leads : s.Leads id other) : C other := by
  induction leads with
  | refl => exact hid
  | step hstep _ ih => exact ih (h _ _ hid hstep)

theorem closed_avoids (s : Subst) (Q : Nat → Prop) : s.Closed (s.Avoids Q) :=
  fun _ _ hid hstep q hq leads => hid q hq (.step hstep leads)

theorem closed_leads (s : Subst) (start : Nat → Prop) :
    s.Closed fun id => ∃ x, start x ∧ s.Leads x id :=
  fun _ _ ⟨x, hx, leads⟩ hstep => ⟨x, hx, leads.trans (.step hstep .refl)⟩

theorem Closed.types {s : Subst} {C : Nat → Prop} (h : s.Closed C) {id : Nat} {t : Ty} (hid : C id)
    (ht : s.types.get? id = some t) : Within C t :=
  within_iff.2 fun v hv => h id v.id hid (.binding ht (mentions_iff.2 ⟨v, hv, rfl⟩))

theorem Closed.records {s : Subst} {C : Nat → Prop} (h : s.Closed C) {id : Nat}
    {fields : List (String × Ty)} (hid : C id) (hf : s.records.get? id = some fields) :
    Within C (.record fields) :=
  .record trivial fun _ hfield => within_iff.2 fun v hv =>
    h id v.id hid (.field hf hfield (mentions_iff.2 ⟨v, hv, rfl⟩))

theorem Closed.keeps {s : Subst} {C : Nat → Prop} (h : s.Closed C) : s.Keeps C (Within C) :=
  ⟨fun hid ht => h.types hid ht, fun hid _ hf => h.records hid hf⟩

theorem Resolved.of_leads {s : Subst} (hs : s.Resolved) {C : Nat → Prop} (closed : s.Closed C)
    (unrecorded : ∀ id, C id → s.records.get? id = none) {x q : Nat} (hx : C x)
    (leads : s.Leads x q) : x = q ∨ ∃ t, s.types.get? x = some t ∧ t.mentions q = true := by
  cases leads with
  | refl => exact .inl rfl
  | @step _ mid _ first rest =>
    have hmid : C mid := closed _ _ hx first
    cases first with
    | field hf _ _ => simp [unrecorded _ hx] at hf
    | binding ht hmem =>
      obtain ⟨v, hv, hid⟩ := mentions_iff.1 hmem
      have unbound : s.types.get? mid = none :=
        isBound_eq_false.1 (hid ▸ within_iff.1 (hs _ _ ht) v hv)
      cases rest with
      | refl => exact .inr ⟨_, ht, hmem⟩
      | step second _ =>
        cases second with
        | binding ht' _ => simp [unbound] at ht'
        | field hf _ _ => simp [unrecorded _ hmid] at hf

/-- The variables one gets to from the starting ones by fields recorded for unbound variables. -/
inductive Reached (s : Subst) (start : Nat → Prop) : Nat → Prop
  | start {id} : start id → Reached s start id
  | field {id fields field other} : Reached s start id → s.isBound id = false →
      s.records.get? id = some fields → field ∈ fields →
      (s.apply field.2).mentions other = true → Reached s start other

theorem Keeps.reached {s : Subst} {C : Nat → Prop} (keeps : s.Keeps C (Within C))
    {start : Nat → Prop} (hstart : ∀ id, start id → C id) {id : Nat} (h : s.Reached start id) :
    C id := by
  have hC : Hereditary C anyLevel (Within C) := hereditary_within C
  induction h with
  | start h => exact hstart _ h
  | field _ unbound hfields hf hid ih =>
    have recorded := keeps.records ih unbound hfields
    have applied := keeps.apply hC (levelsAbove_zero s) (hC.field recorded _ hf)
    obtain ⟨v, hv, rfl⟩ := mentions_iff.1 hid
    exact within_iff.1 applied v hv

end Subst

/-- The variables that can be reached from the free ones of an environment. -/
def Env.Reaches (env : Env) (s : Subst) : Nat → Prop :=
  s.Reached fun id => ∃ v ∈ env.freeVars s, v.id = id

theorem Env.Reaches.mem {env : Env} {s : Subst} (hs : s.Resolved) {C : Nat → Prop}
    (keeps : s.Keeps C (Within C)) (hfree : ∀ id, env.Free id → C id) {id : Nat}
    (h : env.Reaches s id) : C id := by
  refine keeps.reached (fun id hid => ?_) h
  obtain ⟨v, hv, rfl⟩ := hid
  obtain ⟨x, hx, hmem⟩ := exists_free_of_mem_freeVars hs hv
  have hC : Hereditary C anyLevel (Within C) := hereditary_within C
  have start : Within C (ofId x) := .var (hfree x hx)
  have applied := keeps.apply hC (Subst.levelsAbove_zero s) start
  have : (s.apply (ofId x)).mentions v.id = true :=
    hs.mentions_apply.2 ⟨⟨x, 0⟩, by simp [vars], hmem⟩
  obtain ⟨u, hu, huid⟩ := mentions_iff.1 this
  rw [← huid]
  exact within_iff.1 applied u hu

/-- Neither a variable drawn before the schemes nor one that they leave free leads to the
variable. -/
def Isolated (s : Subst) (drawn : Nat) (schemes : List Scheme) (id : Nat) : Prop :=
  (∀ x < drawn, ¬s.Leads x id) ∧ ∀ σ ∈ schemes, ∀ x, σ.Free x → ¬s.Leads x id

namespace Milestone

/-- The substitution at a point in the history. -/
def subst : Milestone → Subst
  | solved s => s
  | generalized _ _ _ s => s

/-- The substitution leaves isolated variables unbound and out of reach; without records, all
quantified variables. -/
def RespectedBy (plain : Prop) (s' : Subst) : Milestone → Prop
  | solved _ => True
  | generalized env drawn schemes s =>
    ∀ σ ∈ schemes, ∀ q ∈ σ.vars, plain ∨ Isolated s drawn schemes q.id →
      s'.isBound q.id = false ∧ ¬env.Reaches s' q.id

/-- A set that has all that is live or not drawn yet, that nothing leads out of, and that has what
is free in the environment but not the variable `q`. -/
structure Guard (live : Nat → Prop) (next : Nat) (s : Subst) (env : Env) (q : Nat)
    (C : Nat → Prop) : Prop where
  live : ∀ id, live id → C id
  fresh : ∀ id, next ≤ id → C id
  keeps : s.Keeps C (Within C)
  free : ∀ id, env.Free id → C id
  apart : ¬C q

def Guarded (plain : Prop) (live retired : Nat → Prop) (next : Nat) (s : Subst) : Milestone → Prop
  | solved _ => True
  | generalized env drawn schemes s₀ =>
    ∀ σ ∈ schemes, ∀ q ∈ σ.vars, plain ∨ Isolated s₀ drawn schemes q.id →
      drawn ≤ q.id ∧ retired q.id ∧ ∃ C, Guard live next s env q.id C

/-- The schemes were found after `next` variables had been drawn, and what is free in the
environment is live or was not drawn yet. -/
def Above (live : Nat → Prop) (next : Nat) : Milestone → Prop
  | solved _ => True
  | generalized env drawn _ _ => next ≤ drawn ∧ ∀ id, env.Free id → live id ∨ next ≤ id

variable {plain : Prop} {live live' retired retired' : Nat → Prop} {next next' : Nat}
  {s s' : Subst} {m : Milestone}

theorem Guarded.respected (h : m.Guarded plain live retired next s) (hs : s.Resolved)
    (unbound : ∀ id, retired id → s.isBound id = false) : m.RespectedBy plain s := by
  cases m with
  | solved s' => trivial
  | generalized env drawn schemes s₀ =>
    intro σ hσ q hq condition
    obtain ⟨-, hretired, C, guard⟩ := h σ hσ q hq condition
    exact ⟨unbound _ hretired, fun reaches =>
      guard.apart (Env.Reaches.mem hs guard.keeps guard.free reaches)⟩

theorem Guarded.mono (h : m.Guarded plain live retired next s)
    (hretired : ∀ id, retired id → retired' id) (hnext : next ≤ next')
    (hlive : ∀ id, live' id → live id ∨ next ≤ id)
    (hkeeps : ∀ C, (∀ id, live id → C id) → (∀ id, next ≤ id → C id) →
      s.Keeps C (Within C) → s'.Keeps C (Within C)) :
    m.Guarded plain live' retired' next' s' := by
  cases m with
  | solved s => trivial
  | generalized env drawn schemes s₀ =>
    intro σ hσ q hq condition
    obtain ⟨hnew, hq, C, guard⟩ := h σ hσ q hq condition
    exact ⟨hnew, hretired _ hq, C, {
      live := fun id hid => (hlive id hid).elim (guard.live id) (guard.fresh id)
      fresh := fun id hid => guard.fresh id (Nat.le_trans hnext hid)
      keeps := hkeeps C guard.live guard.fresh guard.keeps
      free := guard.free
      apart := guard.apart }⟩

theorem Above.mono (h : m.Above live' next') (hnext : next ≤ next')
    (hlive : ∀ id, live' id → live id ∨ next ≤ id) : m.Above live next := by
  cases m with
  | solved s => trivial
  | generalized env drawn schemes s =>
    refine ⟨Nat.le_trans hnext h.1, fun id hid => ?_⟩
    rcases h.2 id hid with hid | hid
    · exact hlive id hid
    · exact .inr (Nat.le_trans hnext hid)

end Milestone

end Polytype
