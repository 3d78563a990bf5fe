import Polytype.Env.Basic
import Polytype.Proofs.Subst.Image

namespace Polytype

open Ty

theorem Scheme.binds_iff {σ : Scheme} {id : Nat} : σ.binds id = true ↔ ∃ v ∈ σ.vars, v.id = id := by
  simp [binds]

def Scheme.Free (σ : Scheme) (id : Nat) : Prop :=
  σ.ty.mentions id = true ∧ σ.binds id = false

def Binding.Free : Binding → Nat → Prop
  | value σ, id => σ.Free id
  | foreign σ _, id => σ.Free id
  | constructor _, _ => False

def Env.Free (env : Env) (id : Nat) : Prop :=
  ∃ entry ∈ env.values, entry.2.Free id

namespace Subst

variable {s : Subst} (hs : s.Resolved) {σ : Scheme}

def unquantified (s : Subst) (σ : Scheme) : Subst :=
  { s with types := s.types.filterKeys fun id => !σ.binds id }

theorem get?_types_unquantified (s : Subst) (σ : Scheme) (id : Nat) :
    (s.unquantified σ).types.get? id = if σ.binds id then none else s.types.get? id := by
  simp only [unquantified, Assoc.get?_filterKeys]
  cases σ.binds id <;> simp

theorem image_unquantified (s : Subst) (σ : Scheme) (id : Nat) :
    (s.unquantified σ).image id = if σ.binds id then ofId id else s.image id := by
  unfold image
  rw [get?_types_unquantified]
  split <;> rfl

include hs in
theorem resolved_unquantified : (s.unquantified σ).Resolved := by
  intro id t ht
  rw [get?_types_unquantified] at ht
  split at ht
  · simp at ht
  · refine within_iff.2 fun v hv => ?_
    rw [isBound_eq_false, get?_types_unquantified]
    split
    · rfl
    · exact isBound_eq_false.1 (within_iff.1 (hs _ _ ht) v hv)

theorem applyScheme_eq (s : Subst) (σ : Scheme) :
    s.applyScheme σ = ⟨σ.vars, (s.unquantified σ).apply σ.ty⟩ := rfl

include hs in
theorem free_applyScheme {id : Nat} :
    (s.applyScheme σ).Free id ↔
      σ.binds id = false ∧ ∃ x, σ.Free x ∧ (s.image x).mentions id = true := by
  have binds : (s.applyScheme σ).binds id = σ.binds id := rfl
  unfold Scheme.Free
  rw [binds, applyScheme_eq, (resolved_unquantified hs).mentions_apply, and_comm]
  refine and_congr_right fun unbound => ?_
  constructor
  · rintro ⟨v, hv, hid⟩
    rw [image_unquantified] at hid
    split at hid
    · rename_i bound
      rw [mentions_var.1 hid] at bound
      simp [unbound] at bound
    · rename_i free
      exact ⟨v.id, ⟨mentions_iff.2 ⟨v, hv, rfl⟩, by simpa using free⟩, hid⟩
  · rintro ⟨x, ⟨hx, free⟩, hid⟩
    obtain ⟨v, hv, rfl⟩ := mentions_iff.1 hx
    refine ⟨v, hv, ?_⟩
    rw [image_unquantified, free]
    exact hid

end Subst

theorem Scheme.mem_freeVars {σ : Scheme} {id : Nat} :
    (∃ v ∈ σ.freeVars, v.id = id) ↔ σ.Free id := by
  unfold Scheme.freeVars Scheme.Free
  constructor
  · rintro ⟨v, hv, rfl⟩
    obtain ⟨hv, free⟩ := List.mem_filter.1 hv
    exact ⟨mentions_iff.2 ⟨v, mem_vars_of_mem_freeVars hv, rfl⟩, by simpa using free⟩
  · rintro ⟨hid, free⟩
    obtain ⟨v, hv, rfl⟩ := mentions_iff.1 hid
    obtain ⟨u, hu, huid⟩ := exists_mem_freeVars hv
    exact ⟨u, List.mem_filter.2 ⟨hu, by simp [huid, free]⟩, huid⟩

namespace Env

variable {env : Env} {s : Subst} (hs : s.Resolved) {id : Nat}

theorem mem_freeVars_iff :
    (∃ v ∈ env.freeVars s, v.id = id) ↔
      ∃ entry ∈ env.values, (entry.2.mapScheme s.applyScheme).Free id := by
  unfold freeVars
  constructor
  · rintro ⟨v, hv, rfl⟩
    obtain ⟨⟨name, binding⟩, hentry, hv⟩ := List.mem_flatMap.1 (TypeVar.mem_of_mem_setOf hv)
    refine ⟨(name, binding), hentry, ?_⟩
    cases binding with
    | value σ => exact Scheme.mem_freeVars.1 ⟨v, hv, rfl⟩
    | foreign σ given => exact Scheme.mem_freeVars.1 ⟨v, hv, rfl⟩
    | constructor c => simp at hv
  · rintro ⟨⟨name, binding⟩, hentry, hfree⟩
    cases binding with
    | value σ =>
      obtain ⟨v, hv, rfl⟩ := Scheme.mem_freeVars.2 hfree
      exact TypeVar.exists_mem_setOf (List.mem_flatMap.2 ⟨_, hentry, hv⟩)
    | foreign σ given =>
      obtain ⟨v, hv, rfl⟩ := Scheme.mem_freeVars.2 hfree
      exact TypeVar.exists_mem_setOf (List.mem_flatMap.2 ⟨_, hentry, hv⟩)
    | constructor c => exact hfree.elim

include hs in
theorem exists_free_of_mem_freeVars {v : TypeVar} (hv : v ∈ env.freeVars s) :
    ∃ x, env.Free x ∧ (s.image x).mentions v.id = true := by
  obtain ⟨⟨name, binding⟩, hentry, hfree⟩ := mem_freeVars_iff.1 ⟨v, hv, rfl⟩
  cases binding with
  | value σ =>
    obtain ⟨-, x, hx, hid⟩ := (Subst.free_applyScheme hs).1 hfree
    exact ⟨x, ⟨_, hentry, hx⟩, hid⟩
  | foreign σ given =>
    obtain ⟨-, x, hx, hid⟩ := (Subst.free_applyScheme hs).1 hfree
    exact ⟨x, ⟨_, hentry, hx⟩, hid⟩
  | constructor c => exact hfree.elim

include hs in
theorem exists_mem_freeVars {x : Nat} (hx : env.Free x) (hid : (s.image x).mentions id = true)
    (uncaught : ∀ entry ∈ env.values, entry.2.Free x → entry.2.scheme.binds id = false) :
    ∃ v ∈ env.freeVars s, v.id = id := by
  obtain ⟨⟨name, binding⟩, hentry, hfree⟩ := hx
  refine mem_freeVars_iff.2 ⟨_, hentry, ?_⟩
  have free := uncaught _ hentry hfree
  cases binding with
  | value σ => exact (Subst.free_applyScheme hs).2 ⟨free, x, hfree, hid⟩
  | foreign σ given => exact (Subst.free_applyScheme hs).2 ⟨free, x, hfree, hid⟩
  | constructor c => exact hfree.elim

end Env

end Polytype
