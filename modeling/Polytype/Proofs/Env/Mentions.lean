import Polytype.Proofs.Env.Parameters
import Polytype.Proofs.Subst.Mentions

namespace Polytype

open Ty

variable {C : Nat → Prop}

/-- All variables of the scheme belong to `C`, the quantified ones included. -/
def Scheme.MentionsOnly (C : Nat → Prop) (σ : Scheme) : Prop :=
  (∀ v ∈ σ.vars, C v.id) ∧ Ty.Within C σ.ty

/-- All variables of the definition belong to `C`, its parameters included. -/
def Definition.MentionsOnly (C : Nat → Prop) (d : Definition) : Prop :=
  (∀ v ∈ d.params, C v.id) ∧ ∀ t ∈ d.body.types, Ty.Within C t

/-- All variables that the environment mentions belong to `C`. -/
structure Env.MentionsOnly (C : Nat → Prop) (env : Env) : Prop where
  values : ∀ entry ∈ env.values, entry.2.scheme.MentionsOnly C
  types : ∀ entry ∈ env.types, entry.2.MentionsOnly C

/-- No scheme quantifies a variable twice. -/
def Env.Distinct (env : Env) : Prop :=
  ∀ entry ∈ env.values, (entry.2.scheme.vars.map (·.id)).Nodup

theorem Scheme.MentionsOnly.mono {D : Nat → Prop} (h : ∀ id, C id → D id) {σ : Scheme}
    (hσ : σ.MentionsOnly C) : σ.MentionsOnly D :=
  ⟨fun v hv => h _ (hσ.1 v hv), hσ.2.mono h⟩

theorem Env.MentionsOnly.mono {D : Nat → Prop} (h : ∀ id, C id → D id) {env : Env}
    (henv : env.MentionsOnly C) : env.MentionsOnly D where
  values entry he := (henv.values entry he).mono h
  types entry he :=
    ⟨fun v hv => h _ ((henv.types entry he).1 v hv),
      fun t ht => ((henv.types entry he).2 t ht).mono h⟩

theorem Constructor.mentionsOnly {c : Constructor} (h : c.scheme.MentionsOnly C) :
    (∀ v ∈ c.params, C v.id) ∧ (∀ t ∈ c.args, Ty.Within C t) ∧ Ty.Within C c.result := by
  obtain ⟨hparams, hty⟩ := h
  refine ⟨hparams, ?_⟩
  unfold Constructor.scheme at hty
  split at hty
  · rename_i hempty
    exact ⟨by simp [List.isEmpty_iff.1 hempty], hty⟩
  · exact (everywhere_func.1 hty).2

theorem Subst.mentionsOnly_ofPairs {pairs : List (TypeVar × Ty)}
    (h : ∀ pair ∈ pairs, C pair.1.id ∧ Ty.Within C pair.2) : (ofPairs pairs).MentionsOnly C := by
  refine ⟨fun entry he => ?_, by simp [ofPairs], by simp [ofPairs]⟩
  rcases Assoc.mem_of_mem_insertAll he with he | he
  · obtain ⟨pair, hpair, rfl⟩ := List.mem_map.1 he
    exact h pair (List.mem_filter.1 hpair).1
  · simp at he

theorem Subst.within_apply_ofPairs {params : List TypeVar} {types : List Ty}
    (hparams : ∀ v ∈ params, C v.id) (htypes : ∀ t ∈ types, Ty.Within C t) {t : Ty}
    (ht : Ty.Within C t) : Ty.Within C ((ofPairs (params.zip types)).apply t) := by
  refine MentionsOnly.apply (mentionsOnly_ofPairs fun pair hpair => ?_) ht
  obtain ⟨hparam, htype⟩ := List.of_mem_zip hpair
  exact ⟨hparams _ hparam, htypes _ htype⟩

namespace Env

variable {env : Env} (henv : env.MentionsOnly C)

include henv

theorem MentionsOnly.lookup {name : String} {binding : Binding}
    (h : env.lookup name = some binding) : binding.scheme.MentionsOnly C :=
  henv.values _ (Assoc.mem_of_get? h)

theorem MentionsOnly.constructor? {name : String} {c : Constructor}
    (h : env.constructor? name = some c) : c.scheme.MentionsOnly C := by
  unfold Env.constructor? at h
  split at h
  · rename_i d hd
    cases h
    exact henv.lookup hd
  · simp at h

theorem MentionsOnly.expand {t t' : Ty} (ht : Ty.Within C t) (h : env.expand t = some t') :
    Ty.Within C t' := by
  obtain ⟨d, hd, h⟩ := Option.bind_eq_some_iff.1 h
  obtain ⟨target, htarget, rfl⟩ := Option.map_eq_some_iff.1 h
  obtain ⟨hd, -⟩ := Option.filter_eq_some_iff.1 hd
  obtain ⟨name, -, hd⟩ := Option.bind_eq_some_iff.1 hd
  obtain ⟨hparams, hbody⟩ := henv.types _ (Assoc.mem_of_get? hd)
  refine Subst.within_apply_ofPairs hparams (fun u hu => within_iff.2 fun v hv => ?_)
    (hbody target (Body.mem_types_of_target? htarget))
  exact within_iff.1 ht v (mem_vars_of_args hu hv)

theorem MentionsOnly.recordFields {t : Ty} (ht : Ty.Within C t) {fields : List (String × Ty)}
    (h : env.recordFields t = some fields) : ∀ field ∈ fields, Ty.Within C field.2 :=
  (everywhere_record.1 (recordFields_induction henv.expand ht h)).2

end Env

end Polytype
