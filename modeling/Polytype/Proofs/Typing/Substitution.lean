import Polytype.Proofs.Inference.Values
import Polytype.Proofs.Typing.Rules

namespace Polytype

open Ty

/-- Replaces the variables that are not quantified. -/
def Scheme.subst (θ : Nat → Ty) (σ : Scheme) : Scheme :=
  ⟨σ.vars, σ.ty.subst fun id => if σ.binds id then ofId id else θ id⟩

@[simp] theorem Scheme.subst_mono (θ : Nat → Ty) (t : Ty) :
    (Scheme.mono t).subst θ = .mono (t.subst θ) := rfl

theorem Scheme.subst_eq {θ : Nat → Ty} {σ : Scheme} (h : ∀ v ∈ σ.vars, θ v.id = ofId v.id) :
    σ.subst θ = ⟨σ.vars, σ.ty.subst θ⟩ := by
  unfold Scheme.subst
  congr 1
  refine subst_congr fun v _ => ?_
  split
  · rename_i hbinds
    obtain ⟨u, hu, hid⟩ := binds_iff.1 hbinds
    rw [← hid, h u hu]
  · rfl

namespace Env

/-- Replaces the free variables of an environment. -/
def subst (θ : Nat → Ty) (env : Env) : Env :=
  { env with values := env.values.mapValues (Binding.mapScheme (Scheme.subst θ)) }

variable (θ : Nat → Ty) (env : Env)

@[simp] theorem definition?_subst (name : String) :
    (env.subst θ).definition? name = env.definition? name := rfl

@[simp] theorem types_subst : (env.subst θ).types = env.types := rfl

theorem lookup_subst (name : String) :
    (env.subst θ).lookup name = (env.lookup name).map (Binding.mapScheme (Scheme.subst θ)) :=
  Assoc.get?_mapValues _ _ _

@[simp] theorem constructor?_subst (name : String) :
    (env.subst θ).constructor? name = env.constructor? name := by
  unfold constructor?
  rw [lookup_subst]
  cases env.lookup name with
  | none => rfl
  | some binding => cases binding <;> rfl

@[simp] theorem extendValue_subst (name : String) (σ : Scheme) :
    (env.extendValue name σ).subst θ = (env.subst θ).extendValue name (σ.subst θ) := by
  simp only [extendValue, extend, subst, Assoc.mapValues_insert]
  rfl

theorem extendAll_subst (bindings : List (String × Binding)) :
    (env.extendAll bindings).subst θ =
      (env.subst θ).extendAll (Assoc.mapValues (Binding.mapScheme (Scheme.subst θ)) bindings) := by
  simp only [extendAll, subst, Assoc.mapValues_insertAll]

@[simp] theorem extendMono_subst (types : List (String × Ty)) :
    (env.extendMono types).subst θ = (env.subst θ).extendMono (Assoc.mapValues (Ty.subst θ) types) := by
  unfold extendMono
  rw [extendAll_subst]
  simp [Assoc.mapValues, Function.comp_def, Binding.mapScheme]

end Env

theorem Scheme.exists_free_of_subst {θ : Nat → Ty} {σ : Scheme} {id : Nat}
    (h : (σ.subst θ).Free id) : ∃ x, σ.Free x ∧ (θ x).mentions id = true := by
  obtain ⟨hmem, unbound⟩ := h
  change σ.binds id = false at unbound
  simp only [subst, mentions_subst] at hmem
  obtain ⟨v, hv, hid⟩ := hmem
  cases hbinds : σ.binds v.id with
  | false =>
    simp only [hbinds, Bool.false_eq_true, if_false] at hid
    exact ⟨v.id, ⟨mentions_iff.2 ⟨v, hv, rfl⟩, hbinds⟩, hid⟩
  | true =>
    simp only [hbinds, if_true] at hid
    rw [mentions_var.1 hid, unbound] at hbinds
    simp at hbinds

@[simp] theorem Expr.isValue_subst (θ : Nat → Ty) (env : Env) (e : Expr) :
    e.isValue (env.subst θ) = e.isValue env :=
  isValue_congr (fun name => congrArg _ (env.constructor?_subst θ name)) e

/-! ## Covered cases -/

namespace Env

theorem expand_congr {env env' : Env} (h : env.types = env'.types) (t : Ty) :
    env.expand t = env'.expand t := by
  unfold expand definitionOf? definition?
  rw [h]

theorem unfold_congr {env env' : Env} (h : env.types = env'.types) (t : Ty) :
    env.unfold t = env'.unfold t := by
  unfold Env.unfold
  generalize aliasDepth = steps
  induction steps generalizing t with
  | zero => rfl
  | succ steps ih => simp only [unfoldWithin, expand_congr h, ih]

theorem recordFields_congr {env env' : Env} (h : env.types = env'.types) (t : Ty) :
    env.recordFields t = env'.recordFields t := by
  unfold recordFields
  generalize aliasDepth = steps
  induction steps generalizing t with
  | zero => rfl
  | succ steps ih =>
    have same : env.recordFieldsWithin steps = env'.recordFieldsWithin steps := funext ih
    cases t <;> simp only [recordFieldsWithin, expand_congr h, same]

theorem alternatives_congr {env env' : Env} (h : env.types = env'.types) (t : Ty) :
    env.alternatives t = env'.alternatives t := by
  unfold alternatives
  generalize aliasDepth = steps
  induction steps generalizing t with
  | zero => rfl
  | succ steps ih =>
    have same : env.definitionOf? t = env'.definitionOf? t := by
      unfold definitionOf? definition?
      rw [h]
    simp only [alternativesWithin, same, ih]

end Env

namespace Coverage

theorem Covers.congr {env env' : Env} (h : env.types = env'.types) {rows : List Row}
    {columns : List Ty} (covers : Covers env rows columns) : Covers env' rows columns := by
  have parts (t : Ty) : partTypes env t = partTypes env' t := by
    funext head
    cases head <;> simp only [partTypes, Env.alternatives_congr h, Env.recordFields_congr h]
  have heads (t : Ty) (rows : List Row) : signature? env t rows = signature? env' t rows := by
    simp only [signature?, Env.alternatives_congr h]
  induction covers with
  | done nonempty => exact .done nonempty
  | pass _ ih => exact .pass ih
  | split hheads _ ih =>
    simp only [Env.unfold_congr h, heads, parts] at hheads ih
    exact .split hheads ih

end Coverage

end Polytype
