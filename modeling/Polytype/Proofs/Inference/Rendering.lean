import Polytype.Proofs.Inference.Stage
import Polytype.Proofs.Typing.Core

namespace Polytype

open Ty Infer

def Binding.arity? : Binding → Option Nat
  | constructor c => some c.arity
  | _ => none

theorem Env.map_arity_constructor? (env : Env) (name : String) :
    (env.constructor? name).map Constructor.arity = (env.lookup name).bind Binding.arity? := by
  unfold constructor?
  cases env.lookup name with
  | none => rfl
  | some b => cases b <;> rfl

def Env.Exposes (env : Env) (id : Nat) : Prop := ∃ entry ∈ env.values, entry.2.scheme.Free id

namespace Stage

structure Renders (g : Stage) (b b' : Binding) : Prop where
  arity : b.arity? = b'.arity?
  good : g.SchemeGood b'.scheme
  instances : ∀ τ, b.scheme.Instance τ → ∃ η : Nat → Ty,
    (∀ v ∈ b'.scheme.ty.vars, b'.scheme.binds v.id = false → η v.id = g.solution v.id) ∧
      τ.erase = (b'.scheme.ty.subst η).erase
  free : ∀ x, b'.scheme.Free x → ∀ id, (g.solution x).mentions id = true → b.scheme.Free id

structure Models (g : Stage) (Γ env : Env) : Prop where
  expand : ∀ t, env.expand t = none
  values : List.Forall₂ (fun entry entry' => entry.1 = entry'.1 ∧ g.Renders entry.2 entry'.2)
    Γ.values env.values

variable {g g' : Stage} {Γ env : Env}

theorem Later.renders (h : Later g g') {b b' : Binding} (hb : g.Renders b b') :
    g'.Renders b b' where
  arity := hb.arity
  good := h.schemeGood hb.good
  instances τ hτ := by
    obtain ⟨η, hη, heq⟩ := hb.instances τ hτ
    refine ⟨η, fun v hv free => ?_, heq⟩
    rw [hη v hv free, h.agree _ (within_iff.1 hb.good.below v hv)]
  free x hx id hid := by
    obtain ⟨v, hv, rfl⟩ := mentions_iff.1 hx.1
    rw [h.agree _ (within_iff.1 hb.good.below v hv)] at hid
    exact hb.free _ hx id hid

theorem Later.models (h : Later g g') (hm : g.Models Γ env) : g'.Models Γ env :=
  ⟨hm.expand, hm.values.imp fun _ _ hentry => ⟨hentry.1, h.renders hentry.2⟩⟩

theorem Models.lookup (h : g.Models Γ env) {name : String} {b : Binding}
    (hb : Γ.lookup name = some b) : ∃ b', env.lookup name = some b' ∧ g.Renders b b' := by
  have related := Assoc.forall₂_get? h.values name
  unfold Env.lookup at hb ⊢
  rw [hb] at related
  cases hb' : env.values.get? name with
  | none =>
    rw [hb'] at related
    cases related
  | some b' =>
    rw [hb'] at related
    cases related with
    | some renders => exact ⟨b', rfl, renders⟩

theorem Models.isValue (h : g.Models Γ env) (e : Expr) : e.isValue Γ = e.isValue env := by
  refine Expr.isValue_congr (fun name => ?_) e
  rw [Env.map_arity_constructor?, Env.map_arity_constructor?]
  have related := Assoc.forall₂_get? h.values name
  unfold Env.lookup
  generalize Γ.values.get? name = found at related ⊢
  generalize env.values.get? name = found' at related ⊢
  cases related with
  | none => rfl
  | some renders => exact renders.arity

theorem Models.extendValue (h : g.Models Γ env) (name : String) {σ σ' : Scheme}
    (hσ : g.Renders (.value σ) (.value σ')) :
    g.Models (Γ.extendValue name σ) (env.extendValue name σ') where
  expand t := (Env.expand_congr rfl t).trans (h.expand t)
  values := Assoc.forall₂_insert h.values name hσ

theorem renders_mono {t τ : Ty} (ht : g.Good t) (heq : g.read t = τ.erase) :
    g.Renders (.value (.mono τ)) (.value (.mono t)) where
  arity := rfl
  good := ⟨ht.firstOrder, by simp [Binding.scheme, Scheme.mono], ht.below,
    fun ω hω v hv _ => allVars_iff.1 (ht.admits ω hω) v hv⟩
  instances ρ hρ := by
    obtain ⟨η, hη, rfl⟩ := hρ
    refine ⟨g.solution, fun _ _ _ => rfl, ?_⟩
    have same : τ.subst η = τ.erase := subst_congr fun v _ => hη v.id rfl
    change (τ.subst η).erase = (g.read t).erase
    rw [same, heq]
  free x hx id hid := by
    obtain ⟨v, hv, rfl⟩ := mentions_iff.1 hx.1
    refine ⟨?_, rfl⟩
    change τ.mentions id = true
    rw [← mentions_erase, ← heq, mentions_subst]
    exact ⟨v, hv, hid⟩

theorem Models.extendMono (h : g.Models Γ env) {names : List String} {types ts : List Ty}
    (hts : ∀ t ∈ ts, g.Good t) (heq : ts.map g.read = types.map erase) :
    g.Models (Γ.extendMono (names.zip types)) (env.extendMono (names.zip ts)) where
  expand t := (Env.expand_congr rfl t).trans (h.expand t)
  values := by
    refine Assoc.forall₂_insertAll ?_ h.values
    induction names generalizing types ts with
    | nil => exact .nil
    | cons name names ih =>
      cases ts with
      | nil =>
        obtain rfl : types = [] := by simpa using heq.symm
        exact .nil
      | cons t ts =>
        cases types with
        | nil => simp at heq
        | cons τ types =>
          obtain ⟨first, others⟩ := List.forall_mem_cons.1 hts
          obtain ⟨same, sames⟩ := List.cons.inj heq
          exact .cons ⟨rfl, renders_mono first same⟩ (ih others sames)

theorem Models.exposes (h : g.Models Γ env) {x : Nat} (hx : env.Exposes x) {id : Nat}
    (hid : (g.solution x).mentions id = true) : Γ.Exposes id := by
  obtain ⟨entry', hentry', hfree⟩ := hx
  have values := h.values
  unfold Env.Exposes
  generalize Γ.values = entries at values ⊢
  generalize env.values = entries' at values hentry'
  induction values with
  | nil => simp at hentry'
  | cons hentry _ ih =>
    rcases List.mem_cons.1 hentry' with rfl | hentry'
    · exact ⟨_, List.mem_cons_self, hentry.2.free x hfree id hid⟩
    · obtain ⟨entry, hmem, free⟩ := ih hentry'
      exact ⟨entry, List.mem_cons_of_mem _ hmem, free⟩

/-! ## Generalization -/

section Generalization

variable {level : Nat} {t τ : Ty} {ω : Watch} {generalizable : Bool}

/-- A watch since the start of a `let` whose value may be generalized. -/
structure Guards (g : Stage) (Γ : Env) (level : Nat) (generalizable : Bool) (ω : Watch) :
    Prop where
  allowed : ω.allowed = Γ.Exposes
  floor : ω.floor = level
  watched : generalizable = true → g.watched ω
  others : ∀ ω', g.watched ω' → ω'.floor < level ∨ generalizable = true ∧ ω' = ω

theorem Later.guards (h : Later g g') (guards : g.Guards Γ level generalizable ω) :
    g'.Guards Γ level generalizable ω where
  allowed := guards.allowed
  floor := guards.floor
  watched := h.watched ▸ guards.watched
  others := h.watched ▸ guards.others

theorem Models.confines_inUse (h : g.Models Γ env) (allowed : ω.allowed = Γ.Exposes) {v : TypeVar}
    (hv : v ∈ env.freeVars g.subst) : ω.Confines g.solution v.id := by
  intro id hid
  obtain ⟨x, ⟨entry, hentry, hx⟩, hmem⟩ := Env.exists_free_of_mem_freeVars g.resolved hv
  have free : entry.2.scheme.Free x := by
    cases hb : entry.2 <;> rw [hb] at hx
    · exact hx
    · exact hx.elim
    · exact hx
  obtain ⟨u, hu, huid⟩ := mentions_iff.1 hmem
  rw [allowed]
  refine h.exposes ⟨entry, hentry, free⟩ ?_
  rw [← g.solves x, mentions_subst]
  exact ⟨u, hu, huid ▸ hid⟩

theorem Models.confines_unquantified (h : g.Models Γ env) (guards : g.Guards Γ level true ω)
    (ht : g.Good t) {v : TypeVar} (hv : v ∈ (g.subst.apply t).vars)
    (hfree : (World.schemeUnder env level true g.subst t).binds v.id = false) :
    ω.Confines g.solution v.id := by
  by_contra confined
  have above : ∀ u ∈ (g.subst.apply t).vars, u.id = v.id → level < u.level := by
    intro u hu hid
    have admitted := allVars_iff.1 ((good_apply ht).admits ω (guards.watched rfl)) u hu
    rw [← guards.floor]
    exact (admitted.resolve_left (hid ▸ confined)).2
  have unused : ¬∃ u ∈ env.freeVars g.subst, u.id = v.id := by
    rintro ⟨u, hu, hid⟩
    exact confined (hid ▸ h.confines_inUse guards.allowed hu)
  have bound := World.binds_schemeUnder (mentions_iff.2 ⟨v, hv, rfl⟩) above unused
  rw [hfree] at bound
  simp at bound

theorem Models.unquantified (h : g.Models Γ env)
    (guards : g.Guards Γ level generalizable ω) (ht : g.Good t) {σ : Scheme}
    (hσ : Generalizes Γ generalizable τ σ) {v : TypeVar} (hv : v ∈ (g.subst.apply t).vars)
    (hfree : (World.schemeUnder env level generalizable g.subst t).binds v.id = false) {id : Nat}
    (hid : (g.solution v.id).mentions id = true) : σ.binds id = false := by
  refine Bool.eq_false_iff.2 fun hbinds => ?_
  obtain ⟨q, hq, rfl⟩ := Scheme.binds_iff.1 hbinds
  cases generalizable with
  | false => simp [hσ.value rfl] at hq
  | true =>
    have allowed := h.confines_unquantified guards ht hv hfree q.id hid
    rw [guards.allowed] at allowed
    obtain ⟨entry, hentry, free⟩ := allowed
    exact hσ.free q hq entry hentry free

theorem schemeGood_schemeUnder (ht : g.Good t) :
    g.SchemeGood (World.schemeUnder env level generalizable g.subst t) := by
  have applied := good_apply ht
  refine ⟨?_, fun v hv => within_iff.1 applied.below v (World.mem_schemeUnder hv).2.1, ?_, ?_⟩
  all_goals rw [World.schemeUnder_ty]
  · exact applied.firstOrder
  · exact applied.below
  · exact fun ω hω v hv _ => allVars_iff.1 (applied.admits ω hω) v hv

theorem renders_schemeUnder (h : g.Models Γ env)
    (guards : g.Guards Γ level generalizable ω) (ht : g.Good t)
    (heq : g.read t = τ.erase) {σ : Scheme} (hσ : Generalizes Γ generalizable τ σ) :
    g.Renders (.value σ) (.value (World.schemeUnder env level generalizable g.subst t)) := by
  have unquantified {v : TypeVar} := h.unquantified (v := v) guards ht hσ
  have same : g.read (g.subst.apply t) = τ.erase := (g.read_apply t).trans heq
  generalize hσ' : World.schemeUnder env level generalizable g.subst t = σ' at unquantified ⊢
  have hty : σ'.ty = g.subst.apply t := hσ' ▸ World.schemeUnder_ty _ _ _ _ _
  refine ⟨rfl, hσ' ▸ schemeGood_schemeUnder ht, fun ρ hρ => ?_, fun x hx id hid => ?_⟩
  · obtain ⟨η, hη, rfl⟩ := hρ
    -- The instance is carried over to the variables quantified here.
    refine ⟨fun id => if σ'.binds id then (g.solution id).subst η else g.solution id,
      fun v _ free => if_neg (Bool.eq_false_iff.1 free), ?_⟩
    have carried : σ'.ty.subst (fun id => if σ'.binds id then (g.solution id).subst η
        else g.solution id) = (g.read (g.subst.apply t)).subst η := by
      rw [hty, read, subst_subst]
      refine subst_congr fun v hv => ?_
      cases hbinds : σ'.binds v.id with
      | true => rfl
      | false =>
        have fixed : (g.solution v.id).subst η = (g.solution v.id).erase :=
          subst_congr fun w hw => hη _ (unquantified hv hbinds (mentions_iff.2 ⟨w, hw, rfl⟩))
        rw [fixed, g.erased]
        rfl
    change (σ.ty.subst η).erase = (σ'.ty.subst _).erase
    rw [carried, same, hσ.ty, subst_erase]
  · obtain ⟨v, hv, rfl⟩ := mentions_iff.1 hx.1
    have hv : v ∈ (g.subst.apply t).vars := hty ▸ hv
    refine ⟨?_, unquantified hv hx.2 hid⟩
    change σ.ty.mentions id = true
    rw [hσ.ty, ← mentions_erase, ← same, mentions_subst]
    exact ⟨v, hv, hid⟩

end Generalization

end Stage

end Polytype
