import Polytype.Proofs.Env.Expansion
import Polytype.Proofs.Inference.Complete
import Polytype.Proofs.Typing.Soundness

/-!
# Principal types

If an expression of the core has a type in an environment under a substitution and a replacement of
the remaining variables, then inference succeeds, and both the type and the replacement are
instances of what it finds.

The substitution must not bind variables that are free in constructors, since applying it to an
environment leaves constructors as they are. Applications must be headed by constants, since heads
are compared and not unified.
-/

namespace Polytype

open Ty

/-- A plain context in which applications are headed by constants, and what is free in constructors
is not bound. -/
structure CoreContext (env : Env) (s : Subst) (next : Nat) : Prop
    extends PlainContext env s next where
  heads : ∀ entry ∈ env.values, NamedHeads entry.2.scheme.ty
  substHeads : ∀ id t, s.types.get? id = some t → NamedHeads t
  constructors : ∀ entry ∈ env.values, ∀ c, entry.2 = .constructor c →
    ∀ id, c.scheme.Free id → s.isBound id = false

/-! ## Schemes under a substitution and a replacement -/

/-- The second scheme is the first one under a substitution that catches no variable. -/
structure Subst.Applies (s : Subst) (σ σ' : Scheme) : Prop where
  binds : ∀ id, σ'.binds id = σ.binds id
  ty : σ'.ty.erase = σ.ty.subst fun id => if σ.binds id then ofId id else s.image id
  apart : ∀ x, σ.Free x → ∀ id, (s.image x).mentions id = true → σ.binds id = false

namespace Subst.Applies

variable {s : Subst} {σ σ' : Scheme} (h : s.Applies σ σ') {θ : Nat → Ty}

include h

theorem free {x id : Nat} (hx : σ.Free x) (hid : (s.image x).mentions id = true) : σ'.Free id := by
  refine ⟨?_, (h.binds id).trans (h.apart x hx id hid)⟩
  obtain ⟨v, hv, rfl⟩ := mentions_iff.1 hx.1
  rw [← mentions_erase, h.ty, mentions_subst]
  refine ⟨v, hv, ?_⟩
  rwa [hx.2, if_neg Bool.false_ne_true]

theorem free_under {x id : Nat} (hx : σ.Free x) (hid : (s.thenReplace θ x).mentions id = true) :
    (σ'.under θ).Free id := by
  rw [thenReplace, mentions_erase, mentions_subst] at hid
  obtain ⟨v, hv, hid⟩ := hid
  exact Scheme.free_under (h.free hx (mentions_iff.2 ⟨v, hv, rfl⟩)) hid

theorem exists_of_instance {τ : Ty} (hτ : (σ'.under θ).Instance τ) : ∃ η : Nat → Ty,
    (∀ v ∈ σ.ty.vars, σ.binds v.id = false → η v.id = s.thenReplace θ v.id) ∧
      τ = σ.ty.subst η := by
  obtain ⟨η, hη, rfl⟩ := Scheme.exists_of_instance_under hτ
  refine ⟨fun id => if σ.binds id then η id else s.thenReplace θ id,
    fun v _ free => if_neg (Bool.eq_false_iff.1 free), ?_⟩
  rw [← subst_erase, h.ty, subst_subst]
  refine subst_congr fun v hv => ?_
  cases hbinds : σ.binds v.id with
  | true => rfl
  | false =>
    -- What a free variable stands for has no quantified variables.
    change (s.image v.id).subst η = s.thenReplace θ v.id
    rw [thenReplace, erase_subst]
    refine subst_congr fun w hw => ?_
    have free := h.free ⟨mentions_iff.2 ⟨v, hv, rfl⟩, hbinds⟩ (mentions_iff.2 ⟨w, hw, rfl⟩)
    obtain ⟨u, hu, huid⟩ := mentions_iff.1 free.1
    rw [← huid]
    exact hη u hu (huid ▸ free.2)

end Subst.Applies

/-! ## The first stage -/

namespace CoreContext

variable {env : Env} {s : Subst} {next : Nat} {p : Progress}

theorem applies (context : CoreContext env s next) {entry : String × Binding}
    (hentry : entry ∈ env.values) :
    s.Applies entry.2.scheme (entry.2.mapScheme s.applyScheme).scheme := by
  have scheme (σ : Scheme) (hfree : ∀ id, σ.Free id → env.Free id)
      (hvars : σ.vars = entry.2.scheme.vars) : s.Applies σ (s.applyScheme σ) := by
    refine ⟨fun _ => rfl, ?_, fun x hx id hid => Bool.eq_false_iff.2 fun hbinds => ?_⟩
    · rw [Subst.applyScheme_eq, (Subst.resolved_unquantified context.resolved).erase_apply]
      exact subst_congr fun v _ => Subst.image_unquantified s σ v.id
    · obtain ⟨q, hq, rfl⟩ := Scheme.binds_iff.1 hbinds
      rw [context.apart entry hentry q (hvars ▸ hq) x (hfree x hx)] at hid
      simp at hid
  obtain ⟨name, b⟩ := entry
  cases b with
  | value σ => exact scheme σ (fun id hid => ⟨_, hentry, hid⟩) rfl
  | foreign σ given => exact scheme σ (fun id hid => ⟨_, hentry, hid⟩) rfl
  | constructor c =>
    have unbound {id : Nat} (hid : c.scheme.Free id) : s.image id = ofId id :=
      Subst.image_unbound (context.constructors _ hentry c rfl id hid)
    refine ⟨fun _ => rfl, subst_congr fun v hv => ?_, fun x hx id hid => ?_⟩
    · cases hbinds : (Binding.constructor c).scheme.binds v.id with
      | true => rfl
      | false => exact (unbound ⟨mentions_iff.2 ⟨v, hv, rfl⟩, hbinds⟩).symm
    · rw [unbound hx] at hid
      obtain rfl : x = id := mentions_var.1 hid
      exact hx.2

def stage (context : CoreContext env p.subst p.next) (θ : Nat → Ty) : Stage where
  progress := p
  solution := p.subst.thenReplace θ
  watched _ := False
  resolved := context.resolved
  firstOrder := ⟨fun ht => ⟨context.substRecordless _ _ ht, context.substHeads _ _ ht⟩,
    context.unrecorded⟩
  solves := context.resolved.solves_thenReplace
  erased _ := erase_erase _
  below := ⟨fun ht => ⟨(context.substBelow _ _ ht).1, within_iff.2 (context.substBelow _ _ ht).2⟩,
    context.levelsBelow _ _⟩
  start_le _ hω := hω.elim
  holds _ hω := hω.elim

theorem models (context : CoreContext env p.subst p.next) (θ : Nat → Ty) :
    (context.stage θ).Models ((env.applySubst p.subst).under θ) env where
  expand t := by
    refine Option.eq_none_iff_forall_ne_some.2 fun u hu => ?_
    obtain ⟨-, d, target, -, -, -, ⟨entry, hentry, -, htarget⟩, -⟩ := Env.expand_cases hu
    simp [context.definitions entry hentry] at htarget
  values := by
    change List.Forall₂ _ (Assoc.mapValues _ (Assoc.mapValues _ env.values)) env.values
    unfold Assoc.mapValues
    rw [List.map_map, List.forall₂_map_left_iff, List.forall₂_same]
    intro entry hentry
    refine ⟨rfl, ?_⟩
    have applies := context.applies hentry
    have below := context.below entry hentry
    refine ⟨?_, ⟨⟨context.recordless entry hentry, context.heads entry hentry⟩, ?_, ?_, ?_⟩,
      fun τ hτ => ?_, fun x hx id hid => ?_⟩
    · obtain ⟨name, b⟩ := entry
      cases b with
      | constructor c => simp [Binding.mapScheme, Binding.under, Binding.arity?, Constructor.under,
          Constructor.arity]
      | _ => rfl
    · exact fun v hv => below v (List.mem_append_left _ hv)
    · exact within_iff.2 fun v hv => below v (List.mem_append_right _ hv)
    · exact fun _ hω => hω.elim
    · rw [Function.comp_apply, Binding.scheme_under] at hτ
      obtain ⟨η, hη, rfl⟩ := applies.exists_of_instance hτ
      exact ⟨η, hη, rfl⟩
    · rw [Function.comp_apply, Binding.scheme_under]
      exact applies.free_under hx hid

end CoreContext

/-- Inference finds a type that every type of the expression is an instance of. -/
theorem exists_principal {env : Env} {level : Nat} {e : Expr} {p : Progress} {θ : Nat → Ty} {τ : Ty}
    (context : CoreContext env p.subst p.next)
    (typed : CoreTyped ((env.applySubst p.subst).under θ) e τ) :
    ∃ t p' δ, Infer.expr env level e p = .ok t p' ∧ (p'.subst.apply t).subst δ = τ.erase ∧
      ∀ v : TypeVar, v.id < p.next →
        (p'.subst.apply (.var v)).subst δ = ((p.subst.apply (.var v)).subst θ).erase := by
  have above : (context.stage θ).Above level := fun _ hω => hω.elim
  obtain ⟨t, g, hrun, later, -, hread⟩ :=
    Stage.exprComplete e (context.stage θ) _ env level τ above (context.models θ) typed
  refine ⟨t, g.progress, g.solution, hrun, (g.read_apply t).trans hread, fun v hv => ?_⟩
  -- The solution has only been extended, so it agrees with the old one on what was drawn before.
  calc (g.subst.apply (.var v)).subst g.solution = g.solution v.id := g.read_apply (.var v)
    _ = p.subst.thenReplace θ v.id := later.agree v.id hv
    _ = ((p.subst.apply (.var v)).subst θ).erase := context.resolved.subst_thenReplace (.var v)

def optionSome : Constructor :=
  ⟨"Some", "Option", [⟨0, 0⟩], [.var ⟨0, 0⟩], .named "Option" [.var ⟨0, 0⟩]⟩

def listScope : Env :=
  { values := [("Some", .constructor optionSome), ("x", .value (.mono (.var ⟨1, 0⟩)))] }

def listSubst : Subst := { types := [(1, .list (.var ⟨2, 0⟩))] }

def toBool (id : Nat) : Ty := if id = 2 then .bool else ofId id

def pairsWithX : Expr :=
  -- let pair = (y) => (y, Some(x)) in (pair(1), pair("s"))
  .letIn ⟨"pair", {}⟩ none
    (.lambda [⟨⟨"y", {}⟩, none⟩]
      (.tuple [.var ⟨"y", {}⟩, .apply (.var ⟨"Some", {}⟩) [.var ⟨"x", {}⟩] {}] {}) {})
    false
    (.tuple [.apply (.var ⟨"pair", {}⟩) [.literal (.int 1) {}] {},
      .apply (.var ⟨"pair", {}⟩) [.literal (.string "s") {}] {}] {}) {}

def withX (t : Ty) : Ty := .tuple [t, .named "Option" [.list .bool]]

theorem eq_of_get?_single {key id : Nat} {t u : Ty}
    (h : Assoc.get? [(key, u)] id = some t) : key = id ∧ u = t := by
  rw [Assoc.get?_cons] at h
  split at h
  · exact ⟨‹_›, Option.some.inj h⟩
  · simp at h

theorem coreContext_listScope : CoreContext listScope listSubst 3 where
  definitions := by simp [listScope]
  recordless := by
    simp [listScope, Binding.scheme, optionSome, Constructor.scheme, named, Scheme.mono,
      RecordlessNode]
  substRecordless id t ht := by
    obtain ⟨rfl, rfl⟩ := eq_of_get?_single ht
    simp [Ty.list, RecordlessNode]
  unrecorded := by simp [listSubst]
  below := by decide
  substBelow id t ht := by
    obtain ⟨rfl, rfl⟩ := eq_of_get?_single ht
    decide
  levelsBelow := by simp [listSubst]
  resolved id t ht := by
    obtain ⟨rfl, rfl⟩ := eq_of_get?_single ht
    exact within_iff.2 (by decide)
  unbound := by decide
  apart := by
    have free {x : Nat} (hx : listScope.Free x) : x = 1 := by
      obtain ⟨entry, hentry, hx⟩ := hx
      simp only [listScope, List.mem_cons, List.not_mem_nil, or_false] at hentry
      rcases hentry with rfl | rfl
      · exact hx.elim
      · exact (mentions_var.1 hx.1).symm
    intro entry hentry q hq x hx
    obtain rfl := free hx
    revert q entry
    decide
  heads := by
    simp [listScope, Binding.scheme, optionSome, Constructor.scheme, named, Scheme.mono,
      NamedHeadNode]
  substHeads id t ht := by
    obtain ⟨rfl, rfl⟩ := eq_of_get?_single ht
    simp [Ty.list, NamedHeadNode]
  constructors := by
    have closed : ∀ v ∈ optionSome.scheme.ty.vars, optionSome.scheme.binds v.id = true := by decide
    intro entry hentry c hc id hid
    simp only [listScope, List.mem_cons, List.not_mem_nil, or_false] at hentry
    rcases hentry with rfl | rfl
    · cases hc
      obtain ⟨mentioned, free⟩ := hid
      obtain ⟨v, hv, rfl⟩ := mentions_iff.1 mentioned
      simp [closed v hv] at free
    · cases hc

theorem CoreTyped.var_single {env : Env} {name : Ident} {b : Binding}
    (hlookup : env.lookup name.name = some b) (key : Nat) (t : Ty) (h : b.scheme.binds key = true)
    {τ : Ty} (hτ : τ = b.scheme.ty.subst fun id => if id = key then t else ofId id) :
    CoreTyped env (.var name) τ := by
  refine .var hlookup ⟨_, fun id hid => if_neg ?_, hτ⟩
  rintro rfl
  simp [h] at hid

theorem coreTyped_pairsWithX :
    CoreTyped ((listScope.applySubst listSubst).under toBool) pairsWithX
      (.tuple [withX .int, withX .string]) := by
  refine .letIn (τ := .func [ofId 5] (withX (ofId 5)))
    (σ := ⟨[⟨5, 0⟩], .func [ofId 5] (withX (ofId 5))⟩) ?_ ⟨rfl, ?_, ?_⟩ ?_
  · refine .lambda (by simp) rfl (.tuple (.cons ?_ (.cons ?_ .nil)))
    · exact .var rfl ⟨ofId, fun _ _ => rfl, rfl⟩
    · exact .apply (.var_single rfl 1 (.list .bool) rfl rfl)
        (.cons (.var rfl ⟨ofId, fun _ _ => rfl, rfl⟩) .nil)
  · unfold Scheme.Free
    decide
  · decide
  · refine .tuple (.cons ?_ (.cons ?_ .nil))
    · exact .apply (.var_single rfl 5 .int rfl rfl) (.cons .literal .nil)
    · exact .apply (.var_single rfl 5 .string rfl rfl) (.cons .literal .nil)

theorem exists_principal_pairsWithX :
    CoreContext listScope listSubst 3 ∧
      CoreTyped ((listScope.applySubst listSubst).under toBool) pairsWithX
        (.tuple [withX .int, withX .string]) ∧
      ∃ t p' δ, Infer.expr listScope 0 pairsWithX { subst := listSubst, next := 3 } = .ok t p' ∧
        (p'.subst.apply t).subst δ = .tuple [withX .int, withX .string] ∧
        ∀ v : TypeVar, v.id < 3 → (p'.subst.apply (.var v)).subst δ =
          ((listSubst.apply (.var v)).subst toBool).erase :=
  ⟨coreContext_listScope, coreTyped_pairsWithX,
    exists_principal (p := { subst := listSubst, next := 3 }) coreContext_listScope
      coreTyped_pairsWithX⟩

/-! ## What the conditions are for -/

/-- A function on lists, and an `x` of an application whose head is a variable. -/
def headScope : Env :=
  { values := [("f", .value (.mono (.func [.list .int] .int))),
      ("x", .value (.mono (.app (.var ⟨1, 0⟩) [.int])))] }

/-- `f(x)` -/
def callOfX : Expr := .apply (.var ⟨"f", {}⟩) [.var ⟨"x", {}⟩] {}

def constantScope : Env := { values := [("C", .constructor openConstant)] }

def constantSubst : Subst := { types := [(0, .int)] }

theorem plainContext_headScope : PlainContext headScope {} 10 where
  definitions := by simp [headScope]
  recordless := by simp [headScope, Binding.scheme, Scheme.mono, Ty.list, RecordlessNode]
  substRecordless := by simp
  unrecorded := by simp
  below := by decide
  substBelow := by simp
  levelsBelow := by simp
  resolved := by simp [Subst.Resolved]
  unbound := by decide
  apart := by simp [headScope, Binding.scheme, Scheme.mono]

theorem plainContext_constantScope : PlainContext constantScope constantSubst 10 where
  definitions := by simp [constantScope]
  recordless := by
    simp [constantScope, Binding.scheme, openConstant, Constructor.scheme, RecordlessNode]
  substRecordless id t ht := by
    obtain ⟨rfl, rfl⟩ := eq_of_get?_single ht
    simp [Ty.int, RecordlessNode]
  unrecorded := by simp [constantSubst]
  below := by decide
  substBelow id t ht := by
    obtain ⟨rfl, rfl⟩ := eq_of_get?_single ht
    decide
  levelsBelow := by simp [constantSubst]
  resolved id t ht := by
    obtain ⟨rfl, rfl⟩ := eq_of_get?_single ht
    exact within_iff.2 (by decide)
  unbound := by decide
  apart := by simp [constantScope, Binding.scheme, openConstant, Constructor.scheme]

/-- Without the condition on heads inference may fail on an expression that has a type, and without
the condition on constructors what it finds may not be general enough. -/
theorem principal_fails_of_variable_head_or_bound_constructor :
    (PlainContext headScope {} 10 ∧ (∀ v ∈ headScope.freeVars {}, v.level ≤ 0) ∧
      CoreTyped ((headScope.applySubst {}).under fun _ => .const "List") callOfX .int ∧
      ∀ t p', Infer.expr headScope 0 callOfX { next := 10 } ≠ .ok t p') ∧
    PlainContext constantScope constantSubst 10 ∧
      (∀ v ∈ constantScope.freeVars constantSubst, v.level ≤ 1) ∧
      CoreTyped ((constantScope.applySubst constantSubst).under ofId) (.var ⟨"C", {}⟩) (ofId 0) ∧
      ∀ t p' δ, Infer.expr constantScope 1 (.var ⟨"C", {}⟩) { subst := constantSubst, next := 10 } =
        .ok t p' → (p'.subst.apply t).subst δ ≠ ofId 0 := by
  refine ⟨⟨plainContext_headScope, by decide, ?_, ?_⟩, plainContext_constantScope, by decide, ?_, ?_⟩
  · exact .apply (.var rfl ⟨ofId, fun _ _ => rfl, rfl⟩)
      (.cons (.var rfl ⟨ofId, fun _ _ => rfl, rfl⟩) .nil)
  · have refused : (match Infer.expr headScope 0 callOfX { next := 10 } with
      | .ok _ _ => false
      | .error _ _ => true) = true := by cbv
    intro t p' h
    simp [h] at refused
  · exact .var rfl ⟨ofId, fun _ _ => rfl, rfl⟩
  · have found : (match Infer.expr constantScope 1 (.var ⟨"C", {}⟩)
        { subst := constantSubst, next := 10 } with
      | .ok t p' => some (p'.subst.apply t)
      | .error _ _ => none) = some .int := by cbv
    intro t p' δ h
    simp only [h, Option.some.injEq] at found
    rw [found]
    simp [Ty.int]

end Polytype
