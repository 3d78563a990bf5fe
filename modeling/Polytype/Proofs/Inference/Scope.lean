import Polytype.Proofs.Inference.World
import Polytype.Proofs.Subst.Instance

namespace Polytype.World

open Ty

structure SchemeGood (w : World) (σ : Scheme) : Prop where
  free : ∀ v ∈ σ.ty.vars, σ.binds v.id = false → w.Knows w.subst v
  bound : ∀ v ∈ σ.vars, v.id < w.next
  recordless : w.plain → Recordless σ.ty

structure ConstructorGood (w : World) (c : Constructor) : Prop where
  closed : ∀ t ∈ c.result :: c.args, ∀ v ∈ t.vars, ∃ p ∈ c.params, p.id = v.id
  bound : ∀ p ∈ c.params, p.id < w.next
  recordless : w.plain → ∀ t ∈ c.result :: c.args, Recordless t

/-- A definition that stands for a type with no variables but the parameters, which are not
live. -/
structure DefinitionGood (w : World) (d : Definition) (target : Ty) : Prop where
  closed : ∀ v ∈ target.vars, ∃ p ∈ d.params, p.id = v.id
  bound : ∀ p ∈ d.params, p.id < w.next
  dead : ∀ p ∈ d.params, ¬w.live p.id
  born : target.Born w.birth
  records : ¬w.plain

def BindingGood (w : World) : Binding → Prop
  | .value σ => w.SchemeGood σ ∧ (w.plain → ∀ v ∈ σ.vars, w.retired v.id)
  | .foreign σ _ => w.SchemeGood σ ∧ (w.plain → ∀ v ∈ σ.vars, w.retired v.id)
  | .constructor c => w.ConstructorGood c

structure EnvGood (w : World) (env : Env) : Prop where
  values : ∀ entry ∈ env.values, w.BindingGood entry.2
  types : ∀ entry ∈ env.types, ∀ target, entry.2.body.target? = some target →
    w.DefinitionGood entry.2 target
  params : w.plain → ∀ entry ∈ env.types, ∀ q ∈ entry.2.params, w.retired q.id

section Later

variable {w w' : World} (h : Later w w')

include h in
theorem Later.schemeGood {σ : Scheme} (hσ : w.SchemeGood σ) : w'.SchemeGood σ where
  free v hv hfree := h.knows (hσ.free v hv hfree)
  bound v hv := Nat.lt_of_lt_of_le (hσ.bound v hv) h.next
  recordless plain := hσ.recordless (h.plain ▸ plain)

include h in
theorem Later.constructorGood {c : Constructor} (hc : w.ConstructorGood c) :
    w'.ConstructorGood c where
  closed := hc.closed
  bound p hp := Nat.lt_of_lt_of_le (hc.bound p hp) h.next
  recordless plain := hc.recordless (h.plain ▸ plain)

include h in
theorem Later.definitionGood {d : Definition} {target : Ty} (hd : w.DefinitionGood d target) :
    w'.DefinitionGood d target where
  closed := hd.closed
  bound p hp := Nat.lt_of_lt_of_le (hd.bound p hp) h.next
  dead p hp hlive := by
    rcases h.live_new _ hlive with hlive | hnew
    · exact hd.dead p hp hlive
    · exact absurd (hd.bound p hp) (Nat.not_lt.2 hnew)
  born := allVars_iff.2 fun v hv => by
    obtain ⟨p, hp, hid⟩ := hd.closed v hv
    rw [h.birth _ (hid ▸ hd.bound p hp)]
    exact allVars_iff.1 hd.born v hv
  records plain := hd.records (h.plain ▸ plain)

include h in
theorem Later.bindingGood {b : Binding} (hb : w.BindingGood b) : w'.BindingGood b := by
  cases b with
  | value σ => exact ⟨h.schemeGood hb.1, fun plain v hv => h.retired _ (hb.2 (h.plain ▸ plain) v hv)⟩
  | foreign σ name =>
    exact ⟨h.schemeGood hb.1, fun plain v hv => h.retired _ (hb.2 (h.plain ▸ plain) v hv)⟩
  | constructor c => exact h.constructorGood hb

include h in
theorem Later.envGood {env : Env} (henv : w.EnvGood env) : w'.EnvGood env where
  values entry hentry := h.bindingGood (henv.values entry hentry)
  types entry hentry target htarget := h.definitionGood (henv.types entry hentry target htarget)
  params plain entry hentry q hq := h.retired _ (henv.params (h.plain ▸ plain) entry hentry q hq)

end Later

variable {w : World} {env : Env}

theorem ConstructorGood.binds {c : Constructor} (h : w.ConstructorGood c) {v : TypeVar}
    (hv : v ∈ c.scheme.ty.vars) : c.scheme.binds v.id = true := by
  have occurs : ∃ t ∈ c.result :: c.args, v ∈ t.vars := by
    by_cases hargs : c.args.isEmpty = true
    · exact ⟨c.result, List.mem_cons_self, by simpa [Constructor.scheme, hargs] using hv⟩
    · simp only [Constructor.scheme, hargs, if_false, vars, varsList_eq, List.mem_append,
        List.mem_flatMap, Bool.false_eq_true] at hv
      rcases hv with ⟨t, ht, hv⟩ | hv
      · exact ⟨t, List.mem_cons_of_mem _ ht, hv⟩
      · exact ⟨c.result, List.mem_cons_self, hv⟩
  obtain ⟨t, ht, hv⟩ := occurs
  exact Scheme.binds_iff.2 (h.closed t ht v hv)

theorem BindingGood.scheme {b : Binding} (h : w.BindingGood b) : w.SchemeGood b.scheme := by
  cases b with
  | value σ => exact h.1
  | foreign σ name => exact h.1
  | constructor c =>
    refine ⟨fun v hv hfree => ?_, h.bound, fun plain => ?_⟩
    · simp [Binding.scheme, ConstructorGood.binds h hv] at hfree
    · have parts := h.recordless plain
      simp only [Binding.scheme, Constructor.scheme]
      split
      · exact parts _ List.mem_cons_self
      · exact .func trivial (fun t ht => parts t (List.mem_cons_of_mem _ ht))
          (parts _ List.mem_cons_self)

theorem schemeGood_mono {t : Ty} (ht : w.Good t) : w.SchemeGood (.mono t) where
  free v hv _ := allVars_iff.1 ht.1 v hv
  bound := by simp [Scheme.mono]
  recordless plain := ht.2 plain

theorem EnvGood.lookup (h : w.EnvGood env) {name : String} {b : Binding}
    (hb : env.lookup name = some b) : w.BindingGood b :=
  h.values _ (Assoc.mem_of_get? hb)

theorem EnvGood.constructor? (h : w.EnvGood env) {name : String} {c : Constructor}
    (hc : env.constructor? name = some c) : w.ConstructorGood c := by
  unfold Env.constructor? at hc
  split at hc
  · rename_i hlookup
    cases hc
    exact h.lookup hlookup
  · simp at hc

theorem EnvGood.extendAll (h : w.EnvGood env) {bindings : List (String × Binding)}
    (hnew : ∀ entry ∈ bindings, w.BindingGood entry.2) : w.EnvGood (env.extendAll bindings) where
  values entry hentry := by
    rcases Assoc.mem_of_mem_insertAll hentry with hentry | hentry
    · exact hnew entry hentry
    · exact h.values entry hentry
  types := h.types
  params := h.params

theorem EnvGood.extend (h : w.EnvGood env) {name : String} {b : Binding} (hb : w.BindingGood b) :
    w.EnvGood (env.extend name b) where
  values entry hentry := by
    rcases Assoc.mem_of_mem_insert hentry with rfl | hentry
    · exact hb
    · exact h.values entry hentry
  types := h.types
  params := h.params

theorem EnvGood.extendValue (h : w.EnvGood env) {name : String} {σ : Scheme}
    (hσ : w.BindingGood (.value σ)) : w.EnvGood (env.extendValue name σ) :=
  h.extend hσ

theorem bindingGood_mono {t : Ty} (ht : w.Good t) : w.BindingGood (.value (.mono t)) :=
  ⟨schemeGood_mono ht, by simp [Scheme.mono]⟩

theorem EnvGood.extendMono (h : w.EnvGood env) {types : List (String × Ty)}
    (ht : ∀ entry ∈ types, w.Good entry.2) : w.EnvGood (env.extendMono types) := by
  refine h.extendAll fun entry hentry => ?_
  obtain ⟨given, hgiven, rfl⟩ := List.mem_map.1 hentry
  exact bindingGood_mono (ht given hgiven)

theorem EnvGood.live (h : w.EnvGood env) {id : Nat} (hid : env.Free id) : w.live id := by
  obtain ⟨⟨name, b⟩, hentry, hid⟩ := hid
  have good := h.values _ hentry
  have scheme {σ : Scheme} (hσ : w.SchemeGood σ) (hid : σ.Free id) : w.live id := by
    obtain ⟨v, hv, rfl⟩ := mentions_iff.1 hid.1
    exact (hσ.free v hv hid.2).1
  cases b with
  | value σ => exact scheme good.1 hid
  | foreign σ name => exact scheme good.1 hid
  | constructor c => exact hid.elim

/-! ## Unfolding definitions -/

theorem EnvGood.defines (h : w.EnvGood env) : w.Defines env.expand := by
  have unfolds {t t' : Ty} (ht : env.expand t = some t') :
      ∃ d target, w.DefinitionGood d target ∧
        d.params.length = t.args.length ∧
        t' = (Subst.ofPairs (d.params.zip t.args)).apply target := by
    obtain ⟨d, target, hd, htarget, rfl⟩ := Env.expand_eq_some ht
    obtain ⟨hd, hlength⟩ := Option.filter_eq_some_iff.1 hd
    obtain ⟨name, -, hname⟩ := Option.bind_eq_some_iff.1 hd
    exact ⟨d, target, h.types _ (Assoc.mem_of_get? hname) target htarget,
      by simpa using (of_decide_eq_true hlength).symm, rfl⟩
  refine ⟨fun t t' ht v hv => ?_, fun t t' hlive ht v hv => ?_, fun s t t' ht h' => ?_,
    fun plain t => ?_⟩
  · obtain ⟨d, target, good, hlength, rfl⟩ := unfolds ht
    obtain ⟨u, hu, hmem⟩ := Subst.mentions_of_instance hlength good.closed
      (mentions_iff.2 ⟨v, hv, rfl⟩)
    obtain ⟨x, hx, hid⟩ := mentions_iff.1 hmem
    exact mentions_iff.2 ⟨x, mem_vars_of_args hu hx, hid⟩
  -- For types that are live the variables are even the same, with their levels.
  · obtain ⟨d, target, good, hlength, rfl⟩ := unfolds ht
    have apart : ∀ p ∈ d.params, ∀ u ∈ t.args, u.mentions p.id = false := by
      intro p hp u hu
      refine Bool.eq_false_iff.2 fun hmem => ?_
      obtain ⟨x, hx, hid⟩ := mentions_iff.1 hmem
      exact good.dead p hp (hid ▸ within_iff.1 hlive x (mem_vars_of_args hu hx))
    rcases Subst.mem_vars_instance apart hlength hv with ⟨u, hu, hv⟩ | ⟨hv, hnew⟩
    · exact mem_vars_of_args hu hv
    · obtain ⟨p, hp, hid⟩ := good.closed v hv
      exact absurd hid (hnew p hp)
  · have born : env.Born w.birth := fun entry hentry target htarget =>
      (h.types entry hentry target htarget).born
    exact born.expand s t t' ht h'
  · cases ht : env.expand t with
    | none => rfl
    | some t' =>
      obtain ⟨d, target, good, -⟩ := unfolds ht
      exact absurd plain good.records

end Polytype.World
