import Polytype.Proofs.Env.Reading
import Polytype.Proofs.Subst.Instance

namespace Polytype

open Ty

namespace Env

/-- What some name stands for, in terms of its parameters. -/
def Target (env : Env) (params : List TypeVar) (target : Ty) : Prop :=
  ∃ entry ∈ env.types, entry.2.params = params ∧ entry.2.body.target? = some target

/-- Definitions mention their own parameters only, and their applications are headed by
constants. -/
structure Closed (env : Env) : Prop where
  vars : ∀ {params target}, env.Target params target → ∀ v ∈ target.vars, ∃ p ∈ params, p.id = v.id
  heads : ∀ {params target}, env.Target params target → NamedHeads target

/-- The variable is no parameter of a definition. -/
def Outside (env : Env) (id : Nat) : Prop := ∀ entry ∈ env.types, ∀ p ∈ entry.2.params, p.id ≠ id

variable {env : Env}

/-! ## Heads and arguments -/

theorem headName?_subst_of_some {t : Ty} {name : String} (h : t.headName? = some name)
    (θ : Nat → Ty) :
    (t.subst θ).headName? = some name ∧ (t.subst θ).args = t.args.map (subst θ) := by
  induction t using induct with
  | var v => simp [headName?] at h
  | const other => exact ⟨h, rfl⟩
  | app head args ih _ =>
    simp only [headName?] at h
    exact ⟨by simp [headName?, (ih h).1], by simp [Ty.args]⟩
  | func | record | tuple => simp [headName?] at h

theorem within_args {t : Ty} (h : Within env.Outside t) : ∀ u ∈ t.args, Within env.Outside u :=
  fun _ hu => within_iff.2 fun v hv => within_iff.1 h v (mem_vars_of_args hu hv)

/-! ## Expanding -/

@[simp] theorem expand_func (params : List Ty) (result : Ty) :
    env.expand (.func params result) = none := rfl

@[simp] theorem expand_record (fields : List (String × Ty)) : env.expand (.record fields) = none :=
  rfl

@[simp] theorem expand_tuple (elements : List Ty) : env.expand (.tuple elements) = none := rfl

theorem expand_cases {t u : Ty} (h : env.expand t = some u) :
    ∃ name d target, t.headName? = some name ∧ env.definition? name = some d ∧
      d.params.length = t.args.length ∧ env.Target d.params target ∧
      d.body.target? = some target ∧ u = (Subst.ofPairs (d.params.zip t.args)).apply target := by
  obtain ⟨d, target, hd, htarget, rfl⟩ := expand_eq_some h
  obtain ⟨hd, hlength⟩ := Option.filter_eq_some_iff.1 hd
  obtain ⟨name, hname, hd⟩ := Option.bind_eq_some_iff.1 hd
  exact ⟨name, d, target, hname, hd, (of_decide_eq_true hlength).symm,
    ⟨(name, d), Assoc.mem_of_get? hd, rfl, htarget⟩, htarget, rfl⟩

theorem definitionOf?_eq_some {t : Ty} {name : String} {d : Definition}
    (hname : t.headName? = some name) (hd : env.definition? name = some d)
    (hlength : d.params.length = t.args.length) : env.definitionOf? t = some d := by
  simp [definitionOf?, hname, hd, hlength]

theorem expand_app_eq_none {head : Ty} {args args' : List Ty} (hlength : args.length = args'.length)
    (h : env.expand (.app head args) = none) : env.expand (.app head args') = none := by
  cases h' : env.expand (.app head args') with
  | none => rfl
  | some u =>
    obtain ⟨name, d, target, hname, hd, hlength', -, hbody, -⟩ := expand_cases h'
    have found : env.definitionOf? (.app head args) = some d :=
      definitionOf?_eq_some hname hd (hlength'.trans hlength.symm)
    simp [expand, found, hbody] at h

theorem apart_of_within {params : List TypeVar} {target : Ty} (htarget : env.Target params target)
    {types : List Ty} (h : ∀ t ∈ types, Within env.Outside t) :
    ∀ p ∈ params, ∀ t ∈ types, t.mentions p.id = false := by
  obtain ⟨entry, hentry, rfl, -⟩ := htarget
  intro p hp t ht
  refine Bool.eq_false_iff.2 fun occurs => ?_
  obtain ⟨v, hv, hid⟩ := mentions_iff.1 occurs
  exact within_iff.1 (h t ht) v hv entry hentry p hp hid.symm

theorem expand_filled (closed : env.Closed) {t u : Ty} (ht : Within env.Outside t)
    (h : env.expand t = some u) : ∃ params target, env.Target params target ∧
      u = target.subst (Subst.filling params t.args) ∧
      ∀ v ∈ target.vars, Subst.filling params t.args v.id ∈ t.args := by
  obtain ⟨name, d, target, -, -, hlength, htarget, -, rfl⟩ := expand_cases h
  have apart := apart_of_within htarget (within_args ht)
  refine ⟨d.params, target, htarget,
    Subst.apply_filling apart hlength (closed.vars htarget), fun v hv => ?_⟩
  obtain ⟨p, hp, hid⟩ := closed.vars htarget v hv
  exact hid ▸ Subst.filling_mem apart hlength hp

theorem within_expand
    (own : ∀ {params target}, env.Target params target → ∀ v ∈ target.vars, ∃ p ∈ params, p.id = v.id)
    {C : Nat → Prop} {t u : Ty} (ht : Within C t) (h : env.expand t = some u) : Within C u := by
  obtain ⟨_, d, target, -, -, hlength, htarget, -, rfl⟩ := expand_cases h
  exact Subst.within_instance hlength (own htarget) ht

theorem expand_related (closed : env.Closed) {R : Ty → Ty → Prop} {t t' u : Ty}
    (hname : t.headName? = t'.headName?) (hargs : List.Forall₂ R t.args t'.args)
    (ht : Within env.Outside t) (ht' : Within env.Outside t') (h : env.expand t = some u) :
    ∃ params target σ σ', env.Target params target ∧ u = target.subst σ ∧
      env.expand t' = some (target.subst σ') ∧ ∀ v ∈ target.vars, R (σ v.id) (σ' v.id) := by
  obtain ⟨name, d, target, hhead, hd, hlength, htarget, hbody, rfl⟩ := expand_cases h
  have vars := closed.vars htarget
  have apart := apart_of_within htarget (within_args ht)
  have apart' := apart_of_within htarget (within_args ht')
  have hlength' := hlength.trans hargs.length_eq
  refine ⟨d.params, target, Subst.filling d.params t.args, Subst.filling d.params t'.args, htarget,
    Subst.apply_filling apart hlength vars, ?_, fun v hv => ?_⟩
  · have found := definitionOf?_eq_some (hname.symm.trans hhead) hd hlength'
    rw [expand, found, Option.bind_some, hbody, Option.map_some, Definition.instantiate,
      Subst.apply_filling apart' hlength' vars]
  · obtain ⟨p, hp, hid⟩ := vars v hv
    exact hid ▸ Subst.filling_related apart apart' hargs hlength hp

section Subst

variable {θ : Nat → Ty} (hθ : ∀ id, env.Outside id → Within env.Outside (θ id)) {t : Ty}
  (ht : Within env.Outside t)

include hθ ht in
theorem within_subst : Within env.Outside (t.subst θ) := by
  refine within_iff.2 fun w hw => ?_
  obtain ⟨v, hv, hw⟩ := mem_vars_subst.1 hw
  exact within_iff.1 (hθ v.id (within_iff.1 ht v hv)) w hw

include hθ ht in
theorem expand_subst (closed : env.Closed) {u : Ty} (h : env.expand t = some u) :
    env.expand (t.subst θ) = some (u.subst θ) := by
  obtain ⟨name, -, -, hname, -⟩ := expand_cases h
  obtain ⟨hname', hargs⟩ := headName?_subst_of_some hname θ
  have related : List.Forall₂ (fun a a' => a' = a.subst θ) t.args (t.subst θ).args := by
    rw [hargs, List.forall₂_map_right_iff, List.forall₂_same]
    exact fun _ _ => rfl
  obtain ⟨params, target, σ, σ', -, rfl, hexpand, hσ⟩ :=
    expand_related closed (hname.trans hname'.symm) related ht (within_subst hθ ht) h
  rw [hexpand, subst_subst]
  exact congrArg some (subst_congr hσ)

end Subst

theorem exists_expand_of_erase (closed : env.Closed) {t u : Ty} (ht : Within env.Outside t)
    (h : env.expand t.erase = some u) : ∃ u', env.expand t = some u' ∧ u = u'.erase := by
  have related : List.Forall₂ (fun a a' => a = a'.erase) t.erase.args t.args := by
    cases t with
    | app head args => simp [Ty.args, List.forall₂_map_left_iff, List.forall₂_same]
    | const name => exact .nil
    | var | func | record | tuple => simp [Ty.args]
  have hvars : Within env.Outside t.erase := by
    refine within_iff.2 fun w hw => ?_
    obtain ⟨v, hv, hid⟩ := mentions_iff.1 (mentions_erase.1 (mentions_iff.2 ⟨w, hw, rfl⟩))
    exact hid ▸ within_iff.1 ht v hv
  obtain ⟨params, target, σ, σ', -, rfl, hexpand, hσ⟩ :=
    expand_related closed (headName?_erase t) related hvars ht h
  refine ⟨_, hexpand, ?_⟩
  rw [erase_subst]
  exact subst_congr hσ

/-! ## One definition -/

abbrev single (d : Definition) : Env := { types := [(d.name, d)] }

variable {d : Definition}

theorem target_single {params : List TypeVar} {target : Ty} :
    (single d).Target params target ↔ d.params = params ∧ d.body.target? = some target := by
  simp [Target]

theorem outside_single {id : Nat} : (single d).Outside id ↔ ∀ p ∈ d.params, p.id ≠ id := by
  simp [Outside]

theorem closed_single {target : Ty} (h : d.body.target? = some target)
    (hvars : ∀ v ∈ target.vars, ∃ p ∈ d.params, p.id = v.id) (hheads : NamedHeads target) :
    (single d).Closed := by
  have only {params : List TypeVar} {found : Ty} (hfound : (single d).Target params found) :
      d.params = params ∧ target = found := by
    obtain ⟨hparams, hbody⟩ := target_single.1 hfound
    exact ⟨hparams, Option.some.inj (h.symm.trans hbody)⟩
  constructor <;> intro params found hfound <;> obtain ⟨rfl, rfl⟩ := only hfound
  · exact hvars
  · exact hheads

end Env

end Polytype
