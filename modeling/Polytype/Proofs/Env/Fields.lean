import Polytype.Proofs.Env.Expansion

namespace Polytype

open Ty

def Env.HasField (env : Env) (t : Ty) (name : String) : Prop :=
  ∃ steps fields, env.recordFieldsWithin steps t = some fields ∧ name ∈ Assoc.keys fields

namespace Env

variable {env : Env} {name : String}

theorem hasField_record {fields : List (String × Ty)} :
    env.HasField (.record fields) name ↔ name ∈ Assoc.keys fields := by
  constructor
  · rintro ⟨steps, found, h, hname⟩
    cases steps with
    | zero => simp [recordFieldsWithin] at h
    | succ steps =>
      obtain rfl : fields = found := by simpa [recordFieldsWithin] using h
      exact hname
  · intro h
    exact ⟨1, fields, rfl, h⟩

theorem recordFieldsWithin_expand {t u : Ty} (h : env.expand t = some u) (steps : Nat) :
    env.recordFieldsWithin (steps + 1) t = env.recordFieldsWithin steps u := by
  cases t with
  | record fields => simp [expand, definitionOf?, headName?] at h
  | _ => simp [recordFieldsWithin, h]

theorem HasField.of_expand {t u : Ty} (h : env.expand t = some u) (hu : env.HasField u name) :
    env.HasField t name := by
  obtain ⟨steps, fields, hfields, hname⟩ := hu
  exact ⟨steps + 1, fields, (recordFieldsWithin_expand h steps).trans hfields, hname⟩

theorem HasField.expand {t u : Ty} (ht : env.HasField t name) (h : env.expand t = some u) :
    env.HasField u name := by
  obtain ⟨steps, fields, hfields, hname⟩ := ht
  cases steps with
  | zero => simp [recordFieldsWithin] at hfields
  | succ steps =>
    exact ⟨steps, fields, (recordFieldsWithin_expand h steps).symm.trans hfields, hname⟩

theorem not_hasField {t : Ty} (hrec : ∀ fields, t ≠ .record fields) (h : t.headName? = none) :
    ¬env.HasField t name := by
  rintro ⟨steps, fields, hfields, -⟩
  have : env.expand t = none := by simp [expand, definitionOf?, h]
  simp [recordFieldsWithin_eq_none this hrec] at hfields

theorem HasField.of_erase (closed : env.Closed) {t : Ty} (ht : Within env.Outside t)
    (h : env.HasField t.erase name) : env.HasField t name := by
  obtain ⟨steps, fields, hfields, hname⟩ := h
  induction steps generalizing t with
  | zero => simp [recordFieldsWithin] at hfields
  | succ steps ih =>
    cases hexpand : env.expand t.erase with
    | some u =>
      obtain ⟨u', hu', rfl⟩ := exists_expand_of_erase closed ht hexpand
      rw [recordFieldsWithin_expand hexpand] at hfields
      exact .of_expand hu' (ih (within_expand closed.vars ht hu') hfields)
    | none =>
      cases t with
      | record given =>
        rw [erase_record] at hfields
        obtain rfl := Option.some.inj hfields
        rw [hasField_record]
        simpa [Assoc.keys] using hname
      | _ =>
        rw [recordFieldsWithin_eq_none hexpand (by simp)] at hfields
        cases hfields

/-! ## Fields and fitting -/

/-- Types that differ in the arguments of applications alone, down to types related by `R`. -/
inductive Linked (R : Ty → Ty → Prop) : Ty → Ty → Prop
  | base {t u} : R t u → Linked R t u
  | app {head args args'} : List.Forall₂ (Linked R) args args' →
      Linked R (.app head args) (.app head args')

def Covers (env : Env) (t u : Ty) : Prop := ∀ name, env.HasField t name → env.HasField u name

theorem linked_subst {σ σ' : Nat → Ty} {t : Ty} (heads : NamedHeads t)
    (h : ∀ v ∈ t.vars, Linked env.Covers (σ v.id) (σ' v.id)) :
    Linked env.Covers (t.subst σ) (t.subst σ') := by
  induction t using induct with
  | var v => exact h v (by simp [vars])
  | const other => exact .base fun _ h => h
  | app head args _ ihArgs =>
    obtain ⟨hnode, -, hargs⟩ := everywhere_app.1 heads
    cases head with
    | const other =>
      simp only [subst_app, subst_const]
      refine .app ?_
      rw [List.forall₂_map_left_iff, List.forall₂_map_right_iff, List.forall₂_same]
      intro t ht
      refine ihArgs t ht (hargs t ht) fun v hv => h v ?_
      simp only [vars, varsList_eq, List.mem_append, List.mem_flatMap]
      exact .inr ⟨t, ht, hv⟩
    | _ => exact hnode.elim
  | func params result =>
    rw [subst_func]
    exact .base fun _ h => (not_hasField (by simp) rfl h).elim
  | record fields =>
    refine .base fun name h => ?_
    rw [subst_record, hasField_record] at h ⊢
    simpa [Assoc.keys] using h
  | tuple elements =>
    rw [subst_tuple]
    exact .base fun _ h => (not_hasField (by simp) rfl h).elim

theorem covers_of_linked (closed : env.Closed) {t u : Ty} (ht : Within env.Outside t)
    (hu : Within env.Outside u) (h : Linked env.Covers t u) : env.Covers t u := by
  rintro name ⟨steps, fields, hfields, hname⟩
  induction steps generalizing t u with
  | zero => simp [recordFieldsWithin] at hfields
  | succ steps ih =>
    cases h with
    | base h => exact h name ⟨steps + 1, fields, hfields, hname⟩
    | @app head args args' hargs =>
      cases hexpand : env.expand (.app head args) with
      | none => simp [recordFieldsWithin_eq_none hexpand] at hfields
      | some t' =>
        rw [recordFieldsWithin_expand hexpand] at hfields
        have hname : (Ty.app head args).headName? = (Ty.app head args').headName? := rfl
        obtain ⟨params, target, σ, σ', htarget, rfl, hexpand', hσ⟩ :=
          expand_related closed hname hargs ht hu hexpand
        exact .of_expand hexpand' (ih (within_expand closed.vars ht hexpand)
          (within_expand closed.vars hu hexpand') (linked_subst (closed.heads htarget) hσ) hfields)

end Env

end Polytype
