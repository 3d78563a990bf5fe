import Polytype.Proofs.Inference.Equality
import Polytype.Proofs.Inference.ValueRestriction

/-!
# Soundness of inference without records

If inference of an expression without records succeeds in a declared context and the run is fair,
then by the typing rules the expression has the inferred type in the environment, both under the
substitution found. A run is fair if what was compared for equality has not become a function since,
and no value that was generalized applies a name bound with it.

All conditions are needed: for each there is an expression that inference accepts and that has no
type by the rules.
-/

namespace Polytype

open Ty

/-- The scheme without levels. -/
def Scheme.erase (σ : Scheme) : Scheme := ⟨σ.vars, σ.ty.erase⟩

/-- The environment without levels. -/
def Env.erase (env : Env) : Env :=
  { env with values := env.values.mapValues (Binding.mapScheme Scheme.erase) }

theorem Scheme.erase_applyScheme {s : Subst} (hs : s.Resolved) (σ : Scheme) :
    (s.applyScheme σ).erase = σ.subst s.image := by
  rw [Subst.applyScheme_eq, erase, subst]
  congr 1
  rw [(Subst.resolved_unquantified hs).erase_apply]
  exact subst_congr fun v _ => Subst.image_unquantified s σ v.id

theorem Env.erase_applySubst {s : Subst} (hs : s.Resolved) (env : Env) :
    (env.applySubst s).erase = env.subst s.image := by
  have binding (b : Binding) : (b.mapScheme s.applyScheme).mapScheme Scheme.erase =
      b.mapScheme (Scheme.subst s.image) := by
    cases b with
    | value σ => exact congrArg Binding.value (Scheme.erase_applyScheme hs σ)
    | foreign σ name => exact congrArg (Binding.foreign · name) (Scheme.erase_applyScheme hs σ)
    | constructor c => rfl
  simp only [applySubst, erase, subst, Assoc.mapValues, List.map_map, Function.comp_def, binding]

/-- An environment, a substitution and a number of variables drawn so far, without records. -/
structure PlainContext (env : Env) (s : Subst) (next : Nat) : Prop where
  /-- No type stands for another one. -/
  definitions : ∀ entry ∈ env.types, entry.2.body.target? = none
  recordless : ∀ entry ∈ env.values, Recordless entry.2.scheme.ty
  substRecordless : ∀ id t, s.types.get? id = some t → Recordless t
  unrecorded : ∀ id, s.records.get? id = none
  /-- All variables have been drawn. -/
  below : ∀ entry ∈ env.values, ∀ v ∈ entry.2.scheme.vars ++ entry.2.scheme.ty.vars, v.id < next
  substBelow : ∀ id t, s.types.get? id = some t → id < next ∧ ∀ v ∈ t.vars, v.id < next
  levelsBelow : ∀ id l, s.levels.get? id = some l → id < next
  resolved : s.Resolved
  /-- What is quantified is neither bound nor in the image of what is free. -/
  unbound : ∀ entry ∈ env.values, ∀ q ∈ entry.2.scheme.vars, s.isBound q.id = false
  apart : ∀ entry ∈ env.values, ∀ q ∈ entry.2.scheme.vars, ∀ x, env.Free x →
    (s.image x).mentions q.id = false

/-- A plain context as declarations make it: the types of constructors have no variables but the
parameters, and no type at hand mentions a parameter of a definition. -/
structure DeclaredContext (env : Env) (s : Subst) (next : Nat) : Prop
    extends PlainContext env s next where
  constructors : ∀ entry ∈ env.values, ∀ c, entry.2 = .constructor c →
    ∀ v ∈ c.scheme.ty.vars, c.scheme.binds v.id = true
  parameters : ∀ entry ∈ env.types, ∀ q ∈ entry.2.params, q.id < next ∧ s.isBound q.id = false ∧
    ∀ x, env.Free x → (s.image x).mentions q.id = false

theorem Constructor.parts {C : Nat → Prop} {P : Ty → Prop} (hP : Hereditary C anyLevel P)
    {c : Constructor} (h : P c.scheme.ty) : ∀ t ∈ c.result :: c.args, P t := by
  unfold scheme at h
  split at h
  · rename_i hargs
    simpa [List.isEmpty_iff.1 hargs] using h
  · exact List.forall_mem_cons.2 ⟨hP.result h, hP.params h⟩

namespace PlainContext

variable {env : Env} {s : Subst} {next : Nat} (context : PlainContext env s next)

include context in
theorem free_lt {x : Nat} (hx : env.Free x) : x < next := by
  obtain ⟨⟨name, b⟩, hentry, hx⟩ := hx
  have below := context.below _ hentry
  cases b with
  | value σ =>
    obtain ⟨v, hv, rfl⟩ := mentions_iff.1 hx.1
    exact below v (List.mem_append_right _ hv)
  | foreign σ given =>
    obtain ⟨v, hv, rfl⟩ := mentions_iff.1 hx.1
    exact below v (List.mem_append_right _ hv)
  | constructor c => exact hx.elim

include context in
theorem closed_lt : s.Closed (· < next) := by
  intro id other _ hstep
  cases hstep with
  | binding ht hmem =>
    obtain ⟨v, hv, rfl⟩ := mentions_iff.1 hmem
    exact (context.substBelow _ _ ht).2 v hv
  | field hf _ _ => simp [context.unrecorded] at hf

include context in
theorem not_leads {q : Nat} (unbound : s.isBound q = false) {x : Nat} (hx : env.Free x)
    (apart : (s.image x).mentions q = false) : ¬s.Leads x q := by
  intro leads
  rcases context.resolved.of_leads context.closed_lt (fun id _ => context.unrecorded id)
    (context.free_lt hx) leads with rfl | ⟨t, ht, hmem⟩
  · rw [Subst.image_unbound unbound] at apart
    simp [mentions, vars] at apart
  · rw [Subst.image_bound ht, mentions_erase.2 hmem] at apart
    simp at apart

end PlainContext

/-! ## The world of a declared context -/

namespace DeclaredContext

variable {env : Env} {p : Progress}

def Reserved (env : Env) (id : Nat) : Prop :=
  (∃ entry ∈ env.values, ∃ q ∈ entry.2.scheme.vars, q.id = id) ∨
    ∃ entry ∈ env.types, ∃ q ∈ entry.2.params, q.id = id

def marks (env : Env) (p : Progress) : Marks where
  plain := True
  start := p.next
  past := p.history
  birth _ := 0
  live id := ∃ x, env.Free x ∧ p.subst.Leads x id
  retired := Reserved env

variable (context : DeclaredContext env p.subst p.next)

include context in
theorem reserved {id : Nat} (h : Reserved env id) : id < p.next ∧ p.subst.isBound id = false ∧
    ∀ x, env.Free x → ¬p.subst.Leads x id := by
  rcases h with ⟨entry, hentry, q, hq, rfl⟩ | ⟨entry, hentry, q, hq, rfl⟩
  · have unbound := context.unbound entry hentry q hq
    exact ⟨context.below entry hentry q (List.mem_append_left _ hq), unbound, fun x hx =>
      context.not_leads unbound hx (context.apart entry hentry q hq x hx)⟩
  · obtain ⟨below, unbound, apart⟩ := context.parameters entry hentry q hq
    exact ⟨below, unbound, fun x hx => context.not_leads unbound hx (apart x hx)⟩

include context in
theorem marks_knows {v : TypeVar} (hv : (marks env p).live v.id) :
    (marks env p).Knows p.subst v := by
  obtain ⟨x, hx, leads⟩ := hv
  have hlt := context.closed_lt.leads (context.free_lt hx) leads
  exact ⟨⟨x, hx, leads⟩, fun hstart => absurd hlt (Nat.not_lt.2 hstart)⟩

def world (context : DeclaredContext env p.subst p.next) : World where
  toMarks := marks env p
  progress := p
  recent := []
  history := p.history_start
  resolved := context.resolved
  keeps := by
    refine ⟨fun {id t} hid ht => ⟨allVars_iff.2 fun v hv => ?_, fun _ => ?_⟩, fun _ _ hf => ?_⟩
    · refine context.marks_knows ?_
      exact Subst.closed_leads p.subst env.Free id v.id hid (.binding ht (mentions_iff.2 ⟨v, hv, rfl⟩))
    · exact context.substRecordless id t ht
    · simp [context.unrecorded] at hf
  unrecorded _ id _ := context.unrecorded id
  fresh id hid := by
    refine ⟨?_, context.unrecorded id, ?_, fun {other t} ht => ?_, fun hf => ?_⟩
    · cases ht : p.subst.types.get? id with
      | none => exact Subst.isBound_eq_false.2 ht
      | some t => exact absurd (context.substBelow id t ht).1 (Nat.not_lt.2 hid)
    · cases hl : p.subst.levels.get? id with
      | none => rfl
      | some l => exact absurd (context.levelsBelow id l hl) (Nat.not_lt.2 hid)
    · refine Bool.eq_false_iff.2 fun hmem => ?_
      obtain ⟨v, hv, rfl⟩ := mentions_iff.1 hmem
      exact absurd ((context.substBelow other t ht).2 v hv) (Nat.not_lt.2 hid)
    · simp [context.unrecorded] at hf
  unseen := p.unseen_start
  capped id l hstart hl := absurd (context.levelsBelow id l hl) (Nat.not_lt.2 hstart)
  start_le := Nat.le_refl _
  live_lt id hid := by
    obtain ⟨x, hx, leads⟩ := hid
    exact context.closed_lt.leads (context.free_lt hx) leads
  retired_lt _ hid := (context.reserved hid).1
  apart id hid hlive := by
    obtain ⟨x, hx, leads⟩ := hlive
    exact (context.reserved hid).2.2 x hx leads
  unbound _ hid := (context.reserved hid).2.1
  guarded := by simp
  sound := by simp
  respected := .nil

theorem envGood : context.world.EnvGood env where
  values entry hentry := by
    have below := context.below entry hentry
    have recordless := context.recordless entry hentry
    have retired : ∀ v ∈ entry.2.scheme.vars, context.world.retired v.id :=
      fun v hv => .inl ⟨entry, hentry, v, hv, rfl⟩
    have scheme (hfree : ∀ id, entry.2.scheme.Free id → env.Free id) :
        context.world.SchemeGood entry.2.scheme := by
      refine ⟨fun v hv unbound => context.marks_knows ?_,
        fun v hv => below v (List.mem_append_left _ hv), fun _ => recordless⟩
      exact ⟨v.id, hfree v.id ⟨mentions_iff.2 ⟨v, hv, rfl⟩, unbound⟩, .refl⟩
    obtain ⟨name, b⟩ := entry
    cases b with
    | value σ => exact ⟨scheme fun id hid => ⟨_, hentry, hid⟩, fun _ => retired⟩
    | foreign σ given => exact ⟨scheme fun id hid => ⟨_, hentry, hid⟩, fun _ => retired⟩
    | constructor c =>
      have bound : Within (fun id => c.scheme.binds id = true) c.scheme.ty :=
        within_iff.2 (context.constructors _ hentry c rfl)
      have recordlessParts := Constructor.parts hereditary_recordless recordless
      refine ⟨fun t ht v hv => ?_, fun q hq => below q (List.mem_append_left _ hq),
        fun _ => recordlessParts⟩
      exact Scheme.binds_iff.1
        (within_iff.1 (Constructor.parts (hereditary_within _) bound t ht) v hv)
  types entry hentry target htarget := by simp [context.definitions entry hentry] at htarget
  params _ entry hentry q hq := .inr ⟨entry, hentry, q, hq, rfl⟩

end DeclaredContext

/-! ## The result -/

theorem World.solution_image (w : World) : w.Solution w.subst.image where
  solves := w.resolved.image_idem
  erased id := by
    unfold Subst.image
    cases w.subst.types.get? id with
    | none => rfl
    | some t => exact erase_erase t
  retired id hid := Subst.image_unbound (w.unbound id hid)
  apart id hid q hq := by
    refine Bool.eq_false_iff.2 fun hmem => ?_
    exact w.apart q hq (mentions_image hid hmem).1

/-- An accepted expression has the inferred type by the typing rules, if all visits of the run are
fair under the substitution that is found in the end. -/
theorem hasType_of_expr {env : Env} {level : Nat} {e : Expr} {p p' : Progress} {t : Ty}
    (context : DeclaredContext env p.subst p.next) (plain : e.Plain)
    (h : Infer.expr env level e p = .ok t p')
    (fair : ∀ v, Visit.Visits ⟨env, level, e, p⟩ v → v.Fair p'.subst.image) :
    HasType (env.applySubst p'.subst).erase e (p'.subst.apply t).erase := by
  have closed : Visit.Closed (Visit.Visits ⟨env, level, e, p⟩) := fun _ _ visits part =>
    visits.tail part
  have sound := World.exprSound closed e context.world env level context.envGood (fun _ => plain)
    fun _ => .refl
  -- The world is the one before the run, all of whose visits are fair by assumption.
  unfold World.Yields at sound
  rw [show Infer.expr env level e context.world.progress = .ok t p' from h] at sound
  obtain ⟨w', rfl, later, -, typed⟩ := sound
  rw [Env.erase_applySubst w'.resolved, w'.resolved.erase_apply]
  have plain' : w'.plain := by
    rw [later.plain]
    trivial
  exact typed plain' _ ⟨w'.solution_image, fair⟩

/-! ## Fair runs -/

def Expr.bindsRecursively : Expr → Bool
  | letIn _ _ _ recursive _ _ => recursive
  | letGroup _ _ _ => true
  | _ => false

def Expr.Flat (e : Expr) : Prop := ∀ part, e.Contains part → part.bindsRecursively = false

theorem Expr.Flat.of_parts {e : Expr} (h : e.bindsRecursively = false)
    (parts : ∀ part ∈ e.parts, part.Flat) : e.Flat := by
  intro part contains
  rcases Relation.ReflTransGen.cases_head contains with rfl | ⟨first, hfirst, rest⟩
  · exact h
  · exact parts first hfirst part rest

namespace Infer

theorem hasFunction_image {s : Subst}
    (functionless : ∀ id u, s.types.get? id = some u → u.hasFunction = false) (id : Nat) :
    (s.image id).hasFunction = false := by
  unfold Subst.image
  cases hu : s.types.get? id with
  | none => rfl
  | some u =>
    refine Bool.eq_false_iff.2 fun h => ?_
    rw [Option.map_some, Option.getD_some, hasFunction_erase, functionless id u hu] at h
    simp at h

/-- If no variable stands for a type with functions in the end, then no operand that was compared
has turned out to have one. -/
theorem fair_of_functionless {env : Env} {level : Nat} {e : Expr} {p q : Progress} {t : Ty}
    (hs : p.subst.Resolved) (run : expr env level e p = .ok t q)
    (functionless : ∀ id u, q.subst.types.get? id = some u → u.hasFunction = false)
    (flat : e.Flat) {v : Visit}
    (visits : Visit.Visits ⟨env, level, e, p⟩ v) : v.Fair q.subst.image where
  compared {op left right span operand r} hop heq hleft := by
    obtain ⟨before, u, agreed, visited, later⟩ := visits.finishes run
    rw [Visit.run, heq, expr] at visited
    obtain ⟨leftType, r', hleft', visited⟩ := exists_of_bind visited
    obtain ⟨rfl, rfl⟩ := EStateM.Result.ok.inj (hleft'.symm.trans hleft)
    obtain ⟨rightType, r', hright, visited⟩ := exists_of_bind visited
    obtain ⟨unified, free⟩ := exists_of_comparison (by simpa using hop) visited
    have steps := ((before.trans ((steps_expr _ _ left).ok hleft)).trans
      ((steps_expr _ _ right).ok hright)).trans ((steps_unifyAt _ _ _ _).ok unified)
    have resolved := (Progress.Steps.extends steps hs).resolved
    have ends := Progress.Steps.extends later resolved
    refine Bool.eq_false_iff.2 fun h => ?_
    rw [← ends.resolved.erase_apply, hasFunction_erase, ends.hasFunction_apply resolved, free] at h
    obtain ⟨x, -, h⟩ := h.resolve_left (by simp)
    rw [← hasFunction_erase, ends.resolved.erase_apply, subst_var,
      hasFunction_image functionless] at h
    simp at h
  recursive heq := by simpa [heq, Expr.bindsRecursively] using flat _ visits.contains
  group heq := by simpa [heq, Expr.bindsRecursively] using flat _ visits.contains

end Infer

/-! ## In the standard environment -/

theorem closed_prelude : ∀ entry ∈ Prelude.env.values, ∀ v ∈ entry.2.scheme.ty.vars,
    entry.2.scheme.binds v.id = true := by decide

theorem not_free_prelude (x : Nat) : ¬Prelude.env.Free x := by
  rintro ⟨⟨name, b⟩, hentry, hx⟩
  have scheme {σ : Scheme} (bound : ∀ v ∈ σ.ty.vars, σ.binds v.id = true) : ¬σ.Free x := by
    rintro ⟨mentioned, free⟩
    obtain ⟨v, hv, rfl⟩ := mentions_iff.1 mentioned
    simp [bound v hv] at free
  cases b with
  | value σ => exact scheme (closed_prelude _ hentry) hx
  | foreign σ given => exact scheme (closed_prelude _ hentry) hx
  | constructor c => exact hx

theorem recordless_prelude : ∀ entry ∈ Prelude.env.values, Recordless entry.2.scheme.ty := by
  have types : Prelude.env.values.map (·.2.scheme.ty) =
      [.func [.var (Prelude.v 4)] (.named "Result" [.var (Prelude.v 3), .var (Prelude.v 4)]),
        .named "Option" [.var (Prelude.v 2)],
        .func [.var (Prelude.v 3)] (.named "Result" [.var (Prelude.v 3), .var (Prelude.v 4)]),
        .func [.var (Prelude.v 2)] (.named "Option" [.var (Prelude.v 2)]),
        .func [.float] .int, .func [.int] .float, .func [.list (.var (Prelude.v 6))] .int,
        .func [.string] .unit, .func [.var (Prelude.v 5)] .string] := rfl
  refine List.forall_mem_map.1 ?_
  rw [types]
  simp [named, RecordlessNode]

theorem declaredContext_prelude : DeclaredContext Prelude.env {} Prelude.size where
  definitions := by decide
  recordless := recordless_prelude
  substRecordless := by simp
  unrecorded := by simp
  below := by decide
  substBelow := by simp
  levelsBelow := by simp
  resolved := by simp [Subst.Resolved]
  unbound := by simp [Subst.isBound, Assoc.contains]
  apart _ _ _ _ x hx := absurd hx (not_free_prelude x)
  constructors entry hentry c hc := by
    have bound := closed_prelude entry hentry
    rwa [hc] at bound
  parameters entry hentry q hq := by
    have below : ∀ entry ∈ Prelude.env.types, ∀ q ∈ entry.2.params, q.id < Prelude.size := by decide
    exact ⟨below entry hentry q hq, by simp [Subst.isBound, Assoc.contains],
      fun x hx => absurd hx (not_free_prelude x)⟩

def sameUses : Expr :=
  -- let same = (x, y) => x == y in (same(1, 2), same("a", "b"))
  .letIn ⟨"same", {}⟩ none
    (.lambda [⟨⟨"x", {}⟩, none⟩, ⟨⟨"y", {}⟩, none⟩]
      (.binary .eq (.var ⟨"x", {}⟩) (.var ⟨"y", {}⟩) {}) {})
    false
    (.tuple [.apply (.var ⟨"same", {}⟩) [.literal (.int 1) {}, .literal (.int 2) {}] {},
      .apply (.var ⟨"same", {}⟩) [.literal (.string "a") {}, .literal (.string "b") {}] {}] {}) {}

theorem hasType_of_expr_sameUses : ∃ t p',
    Infer.expr Prelude.env 0 sameUses { next := Prelude.size } = .ok t p' ∧
      HasType (Prelude.env.applySubst p'.subst).erase sameUses (.tuple [.bool, .bool]) := by
  obtain ⟨_, _, run, found⟩ := @Infer.exists_run_of_any Bool (do
      let t ← Infer.expr Prelude.env 0 sameUses
      let s ← Infer.getSubst
      return s.types.all (fun entry => !entry.2.hasFunction) &&
        (s.apply t).same (.tuple [.bool, .bool])) { next := Prelude.size } id (by cbv)
  obtain ⟨t, p', accepted, run⟩ := Infer.exists_of_bind run
  obtain ⟨s, _, got, run⟩ := Infer.exists_of_bind run
  cases got
  cases run
  obtain ⟨functionless, result⟩ := Bool.and_eq_true_iff.1 found
  have plain : sameUses.Plain := by
    have call {e e' : Expr} (he : e.Plain) (he' : e'.Plain) :
        (Expr.apply (.var ⟨"same", {}⟩) [e, e'] {}).Plain := .apply .var (by simp [he, he'])
    refine .letIn (by simp) (.lambda (by simp) (.binary .var .var)) (.tuple ?_)
    exact List.forall_mem_cons.2 ⟨call .literal .literal, by simpa using call .literal .literal⟩
  have flat : sameUses.Flat := by
    have leaf {e : Expr} (h : e.parts = []) (he : e.bindsRecursively = false) : e.Flat :=
      .of_parts he (by simp [h])
    have both {e e' part : Expr} (he : e.Flat) (he' : e'.Flat) (h : part.parts = [e, e'])
        (hpart : part.bindsRecursively = false) : part.Flat :=
      .of_parts hpart (by simp [h, he, he'])
    have call (e e' : Expr) (he : e.Flat) (he' : e'.Flat) :
        (Expr.apply (.var ⟨"same", {}⟩) [e, e'] {}).Flat :=
      .of_parts rfl (List.forall_mem_cons.2 ⟨leaf rfl rfl, by simp [he, he']⟩)
    refine both (.of_parts rfl (List.forall_mem_singleton.2 ?_)) ?_ rfl rfl
    · exact both (leaf rfl rfl) (leaf rfl rfl) rfl rfl
    · exact both (call _ _ (leaf rfl rfl) (leaf rfl rfl)) (call _ _ (leaf rfl rfl) (leaf rfl rfl))
        rfl rfl
  have typed := hasType_of_expr declaredContext_prelude plain accepted fun v visits =>
    Infer.fair_of_functionless (by simp [Subst.Resolved]) accepted (fun id u hu => ?_) flat visits
  · rw [same_iff.1 result] at typed
    exact ⟨t, _, accepted, typed⟩
  · simpa using List.all_eq_true.1 functionless _ (Assoc.mem_of_get? hu)

/-! ## Where the conditions are needed -/

theorem eq_of_unquantified {env : Env} {name : Ident} {σ : Scheme}
    (hlookup : env.lookup name.name = some (.value σ)) (hσ : σ.vars = []) {τ : Ty}
    (h : HasType env (.var name) τ) : τ = σ.ty.erase := by
  cases h with
  | var hlookup' h =>
    obtain rfl : Binding.value σ = _ := Option.some.inj (hlookup.symm.trans hlookup')
    obtain ⟨η, hη, rfl⟩ := h
    exact subst_congr fun v _ => hη v.id (by simp [Binding.scheme, Scheme.binds, hσ])

theorem hasFunction_of_equality {τ τ' ρ : Ty} (h : BinaryTyped .eq τ τ' ρ) :
    τ.hasFunction = false := by
  cases h with
  | equality _ functionless => exact functionless
  | arithmetic hop _ | comparison hop _ | logic hop => simp at hop

theorem not_hasType_comparedThenCalled (env : Env) (τ : Ty) :
    ¬HasType env Infer.Equality.comparedThenCalled τ := by
  intro h
  cases h with
  | lambda params hpair =>
    cases params with
    | @cons _ ρ _ _ _ others =>
      cases others
      have hlookup : (env.extendMono [("f", ρ)]).lookup "f" = some (.value (.mono ρ)) := by
        simp [Env.extendMono, Env.extendAll, Env.lookup, Assoc.mapValues, Assoc.insertAll]
      cases hpair with
      | tuple hparts =>
        obtain _ | ⟨hcompared, _ | ⟨hcalled, _⟩⟩ := hparts
        have compared : ρ.erase.hasFunction = false := by
          cases hcompared with
          | binary hleft _ typed =>
            rw [eq_of_unquantified hlookup rfl hleft] at typed
            exact hasFunction_of_equality typed
        cases hcalled with
        | apply hfunction _ _ =>
          have called := eq_of_unquantified hlookup rfl hfunction
          rw [show ρ.erase = _ from called.symm] at compared
          simp [hasFunction] at compared

/-- Operands that turn out to be functions once they have been compared. -/
theorem hasType_fails_of_comparison :
    DeclaredContext Prelude.env {} Prelude.size ∧ Infer.Equality.comparedThenCalled.Plain ∧
      ∃ t p', Infer.expr Prelude.env 0 Infer.Equality.comparedThenCalled { next := Prelude.size } =
        .ok t p' ∧ ∀ env τ, ¬HasType env Infer.Equality.comparedThenCalled τ := by
  obtain ⟨t, p', accepted, -⟩ := @Infer.exists_run_of_any Ty
    (Infer.expr Prelude.env 0 Infer.Equality.comparedThenCalled) { next := Prelude.size }
    (fun _ => true) (by cbv)
  have plain : Infer.Equality.comparedThenCalled.Plain := by
    refine .lambda (by simp) (.tuple (List.forall_mem_cons.2 ⟨.binary .var .var, ?_⟩))
    exact List.forall_mem_singleton.2 (.apply .var (List.forall_mem_singleton.2 .literal))
  exact ⟨declaredContext_prelude, plain, t, p', accepted, not_hasType_comparedThenCalled⟩

def cellUses : Expr :=
  -- let rec Some = (x) => ref [] and cell = Some(1) in (cell := [1], cell := ["s"])
  .letGroup Infer.cellGroup
    (.tuple [.assign (.var ⟨"cell", {}⟩) (.list [.literal (.int 1) {}] {}) {},
      .assign (.var ⟨"cell", {}⟩) (.list [.literal (.string "s") {}] {}) {}] {}) {}

theorem eq_of_assign {env : Env} {name : Ident} {σ : Scheme}
    (hlookup : env.lookup name.name = some (.value σ)) (hσ : σ.vars = []) {value : Literal} {τ : Ty}
    (h : HasType env (.assign (.var name) (.list [.literal value {}] {}) {}) τ) :
    σ.ty.erase = .ref (.list value.ty) := by
  cases h with
  | assign htarget hvalue =>
    rw [← eq_of_unquantified hlookup hσ htarget]
    cases hvalue with
    | list hparts =>
      obtain _ | ⟨hfirst, _⟩ := hparts
      cases hfirst
      rfl

theorem not_hasType_cellUses (env : Env) (τ : Ty) : ¬HasType env cellUses τ := by
  intro h
  cases h with
  | letGroup annotated _ generalizes hbody =>
    obtain _ | @⟨_, ρ, _, _, _, _ | @⟨_, ρ', _, _, _, _ | _⟩⟩ := annotated
    obtain _ | @⟨_, σ, _, _, _, _ | @⟨_, σ', _, _, second, _ | _⟩⟩ := generalizes
    -- Inside the group `Some` is a function, so nothing is generalized.
    have expansive : (Infer.cellGroup.all fun b => b.value.isValue
        (env.extendMono [("Some", ρ), ("cell", ρ')])) = false := by
      simp [Infer.cellGroup, Expr.isValue, Env.constructor?_extendMono]
    have mono : σ'.vars = [] := second.value expansive
    have hlookup : (env.extendAll [("Some", .value σ), ("cell", .value σ')]).lookup "cell" =
        some (.value σ') := by
      simp [Env.extendAll, Env.lookup, Assoc.insertAll]
    cases hbody with
    | tuple hparts =>
      obtain _ | ⟨hfirst, _ | ⟨hsecond, _⟩⟩ := hparts
      have stored := (eq_of_assign hlookup mono hfirst).symm.trans
        (eq_of_assign hlookup mono hsecond)
      simp [Literal.ty, Ty.ref, Ty.list, Ty.int, Ty.string] at stored

theorem hasType_fails_of_recursion :
    DeclaredContext Prelude.env {} Prelude.size ∧ cellUses.Plain ∧
      ∃ t p', Infer.expr Prelude.env 0 cellUses { next := Prelude.size } = .ok t p' ∧
        ∀ env τ, ¬HasType env cellUses τ := by
  obtain ⟨t, p', accepted, -⟩ := @Infer.exists_run_of_any Ty
    (Infer.expr Prelude.env 0 cellUses) { next := Prelude.size } (fun _ => true) (by cbv)
  have store {value : Literal} :
      (Expr.assign (.var ⟨"cell", {}⟩) (.list [.literal value {}] {}) {}).Plain :=
    .assign .var (.list (List.forall_mem_singleton.2 .literal))
  have plain : cellUses.Plain := by
    refine .letGroup (by simp [Infer.cellGroup]) (List.forall_mem_cons.2 ⟨?_, ?_⟩) (.tuple ?_)
    · exact .lambda (by simp) (.makeRef (.list (by simp)))
    · exact List.forall_mem_singleton.2 (.apply .var (List.forall_mem_singleton.2 .literal))
    · exact List.forall_mem_cons.2 ⟨store, List.forall_mem_singleton.2 store⟩
  exact ⟨declaredContext_prelude, plain, t, p', accepted, not_hasType_cellUses⟩

theorem plainContext_constructor {c : Constructor} {next : Nat} (recordless : Recordless c.scheme.ty)
    (below : ∀ v ∈ c.scheme.vars ++ c.scheme.ty.vars, v.id < next) :
    PlainContext { values := [(c.name, .constructor c)] } {} next where
  definitions := by simp
  recordless := by simpa [Binding.scheme] using recordless
  substRecordless := by simp
  unrecorded := by simp
  below := by simpa [Binding.scheme] using below
  substBelow := by simp
  levelsBelow := by simp
  resolved := by simp [Subst.Resolved]
  unbound := by simp [Subst.isBound, Assoc.contains]
  apart := by simp [Env.Free, Binding.Free]

def openConstant : Constructor := ⟨"C", "T", [], [], .var ⟨0, 1⟩⟩

def twoUses : Expr :=
  -- let f = () => C in (f() + 1, f() ++ "s")
  .letIn ⟨"f", {}⟩ none (.lambda [] (.var ⟨"C", {}⟩) {}) false
    (.tuple [.binary .add (.apply (.var ⟨"f", {}⟩) [] {}) (.literal (.int 1) {}) {},
      .binary .concat (.apply (.var ⟨"f", {}⟩) [] {}) (.literal (.string "s") {}) {}] {}) {}

theorem eq_of_openConstant {binding : Binding} {τ : Ty}
    (hlookup : Env.lookup { values := [("C", .constructor openConstant)] } "C" = some binding)
    (h : binding.scheme.Instance τ) : τ = ofId 0 := by
  obtain rfl : Binding.constructor openConstant = binding := Option.some.inj hlookup
  obtain ⟨η, hη, rfl⟩ := h
  exact hη 0 rfl

theorem eq_of_call {env : Env} {σ : Scheme} (hlookup : env.lookup "f" = some (.value σ))
    (hty : σ.ty = .func [] (ofId 0)) (unbound : σ.binds 0 = false) {τ : Ty}
    (h : HasType env (.apply (.var ⟨"f", {}⟩) [] {}) τ) : τ = ofId 0 := by
  cases h with
  | apply hfunction hargs harity =>
    cases hfunction with
    | var hlookup' h =>
      obtain rfl : Binding.value σ = _ := Option.some.inj (hlookup.symm.trans hlookup')
      obtain ⟨η, hη, heq⟩ := h
      rw [show (Binding.value σ).scheme.ty = .func [] (ofId 0) from hty, subst_func, subst_var] at heq
      simp only [List.map_nil, func.injEq, List.append_eq_nil_iff] at heq
      obtain ⟨⟨-, rfl⟩, rfl⟩ := heq
      exact hη 0 unbound

theorem mem_of_add {τ τ' ρ : Ty} (h : BinaryTyped .add τ τ' ρ) : τ ∈ [Ty.int, Ty.float] := by
  cases h with
  | arithmetic _ hmem => exact hmem
  | comparison hop _ | equality hop _ | logic hop => simp at hop

theorem not_hasType_twoUses (τ : Ty) :
    ¬HasType { values := [("C", .constructor openConstant)] } twoUses τ := by
  intro h
  cases h with
  | letIn annotated hvalue generalizes hbody =>
    rename_i σ
    have hty : σ.ty = .func [] (ofId 0) := by
      rw [generalizes.ty]
      cases hvalue with
      | lambda params hconstant =>
        cases params with
        | nil =>
          cases hconstant with
          | var hlookup hinstance => rw [eq_of_openConstant hlookup hinstance]
    have unbound : σ.binds 0 = false := by
      refine Bool.eq_false_iff.2 fun hbinds => ?_
      obtain ⟨v, hv, hid⟩ := Scheme.binds_iff.1 hbinds
      refine generalizes.free v hv _ List.mem_cons_self ?_
      rw [hid]
      exact ⟨rfl, rfl⟩
    cases hbody with
    | tuple hparts =>
      cases hparts with
      | cons first _ =>
        cases first with
        | binary hleft _ htyped =>
          rw [eq_of_call rfl hty unbound hleft] at htyped
          simpa [ofId, int, float] using mem_of_add htyped

theorem hasType_fails_of_openConstant :
    PlainContext { values := [("C", .constructor openConstant)] } {} 10 ∧ twoUses.Plain ∧
      ∃ t p', Infer.expr { values := [("C", .constructor openConstant)] } 0 twoUses { next := 10 } =
        .ok t p' ∧
        ¬HasType (Env.applySubst { values := [("C", .constructor openConstant)] } p'.subst).erase
          twoUses (p'.subst.apply t).erase := by
  obtain ⟨t, p', accepted, -⟩ := @Infer.exists_run_of_any Ty
    (Infer.expr { values := [("C", .constructor openConstant)] } 0 twoUses) { next := 10 }
    (fun _ => true) (by cbv)
  refine ⟨@plainContext_constructor openConstant 10
    (by simp [openConstant, Constructor.scheme, RecordlessNode]) (by decide), ?_, t, p', accepted,
    not_hasType_twoUses _⟩
  have call : (Expr.apply (.var ⟨"f", {}⟩) [] {}).Plain := .apply .var (by simp)
  refine .letIn (by simp) (.lambda (by simp) .var) (.tuple (List.forall_mem_cons.2 ⟨?_, ?_⟩))
  · exact .binary call .literal
  · simpa using .binary call .literal

def firstCase : Definition := ⟨"P", [⟨0, 0⟩, ⟨1, 0⟩], .variant [⟨"A", [.var ⟨0, 0⟩]⟩]⟩

def booleanCase : Constructor := ⟨"A", "P", [⟨2, 0⟩], [.bool], .var ⟨2, 0⟩⟩

def sharedParameter : Env where
  values := [("A", .constructor booleanCase), ("x", .value (.mono (.var ⟨1, 1⟩))),
    ("z", .value (.mono (.named "P" [.var ⟨1, 1⟩, .bool])))]
  types := [("P", firstCase)]

def matchThenAdd : Expr :=
  -- (match z { A(true) => 1, A(false) => 2 }, x + 1)
  .tuple [.case (.var ⟨"z", {}⟩)
      [⟨.constructor ⟨"A", {}⟩ [.literal (.bool true) {}] {}, none, .literal (.int 1) {}, {}⟩,
       ⟨.constructor ⟨"A", {}⟩ [.literal (.bool false) {}] {}, none, .literal (.int 2) {}, {}⟩] {},
    .binary .add (.var ⟨"x", {}⟩) (.literal (.int 1) {}) {}] {}

theorem plainContext_sharedParameter : PlainContext sharedParameter {} 10 where
  definitions := by decide
  recordless := by
    simp [sharedParameter, booleanCase, Constructor.scheme, Binding.scheme, Scheme.mono, named,
      RecordlessNode]
  substRecordless := by simp
  unrecorded := by simp
  below := by decide
  substBelow := by simp
  levelsBelow := by simp
  resolved := by simp [Subst.Resolved]
  unbound := by simp [Subst.isBound, Assoc.contains]
  apart := by
    have free {x : Nat} (hx : sharedParameter.Free x) : x = 1 := by
      obtain ⟨entry, hentry, hx⟩ := hx
      simp only [sharedParameter, List.mem_cons, List.not_mem_nil, or_false] at hentry
      rcases hentry with rfl | rfl | rfl
      · exact hx.elim
      · obtain ⟨v, hv, rfl⟩ := mentions_iff.1 hx.1
        rw [List.mem_singleton.1 hv]
      · obtain ⟨v, hv, rfl⟩ := mentions_iff.1 hx.1
        rw [List.mem_singleton.1 hv]
    have quantified : ∀ entry ∈ sharedParameter.values, ∀ q ∈ entry.2.scheme.vars,
      (ofId 1).mentions q.id = false := by decide
    intro entry hentry q hq x hx
    rw [free hx]
    exact quantified entry hentry q hq

def booleanRows (inside : Pat → Pat) : List Row :=
  [[inside (.node (.bool true) [])], [inside (.node (.bool false) [])]]

theorem not_covers_booleanRows (θ : Nat → Ty) {t : Ty} (ht : t ∈ [Ty.int, Ty.float]) :
    ¬Coverage.Covers (sharedParameter.subst θ) (booleanRows fun p => .node (.variant "A") [p])
      [.named "P" [t, .bool]] := by
  have parts : Coverage.partTypes (sharedParameter.subst θ)
      ((sharedParameter.subst θ).unfold (.named "P" [t, .bool])) (.variant "A") = [t] := by
    rcases List.mem_pair.1 ht with rfl | rfl <;> rfl
  have unknown : Coverage.signature? (sharedParameter.subst θ) ((sharedParameter.subst θ).unfold t)
      (Coverage.splitRows (booleanRows id)) = none := by
    rcases List.mem_pair.1 ht with rfl | rfl <;> rfl
  have inner : ¬Coverage.Covers (sharedParameter.subst θ) (booleanRows id) [t] := by
    intro covers
    cases covers with
    | pass covers =>
      cases covers with
      | done nonempty => exact nonempty rfl
    | split hheads _ => simp [unknown] at hheads
  intro covers
  cases covers with
  | pass covers =>
    cases covers with
    | done nonempty => exact nonempty rfl
  | split hheads covers =>
    obtain rfl := Option.some.inj (hheads.symm.trans (show _ = some [Head.variant "A"] from rfl))
    have covered := covers _ List.mem_cons_self
    rw [parts] at covered
    exact inner covered

theorem not_hasType_matchThenAdd (θ : Nat → Ty) (τ : Ty) :
    ¬HasType (sharedParameter.subst θ) matchThenAdd τ := by
  intro h
  cases h with
  | tuple hparts =>
    obtain _ | ⟨hmatch, _ | ⟨hsum, _⟩⟩ := hparts
    have summand : (θ 1).erase ∈ [Ty.int, Ty.float] := by
      cases hsum with
      | binary hleft _ typed =>
        have hlookup : (sharedParameter.subst θ).lookup "x" = some (.value (.mono (θ 1))) := rfl
        rw [eq_of_unquantified hlookup rfl hleft] at typed
        exact mem_of_add typed
    cases hmatch with
    | case hscrutinee _ exhaustive =>
      have hlookup : (sharedParameter.subst θ).lookup "z" =
          some (.value (.mono (.named "P" [θ 1, .bool]))) := rfl
      rw [eq_of_unquantified hlookup rfl hscrutinee] at exhaustive
      exact not_covers_booleanRows θ summand exhaustive

theorem hasType_fails_of_parameter :
    PlainContext sharedParameter {} 10 ∧
      (∀ v ∈ booleanCase.scheme.ty.vars, booleanCase.scheme.binds v.id = true) ∧
      matchThenAdd.Plain ∧
      ∃ t p', Infer.expr sharedParameter 0 matchThenAdd { next := 10 } = .ok t p' ∧
        ¬HasType (sharedParameter.applySubst p'.subst).erase matchThenAdd
          (p'.subst.apply t).erase := by
  obtain ⟨t, p', accepted, -⟩ := @Infer.exists_run_of_any Ty
    (Infer.expr sharedParameter 0 matchThenAdd) { next := 10 } (fun _ => true) (by cbv)
  have resolved : p'.subst.Resolved :=
    (Progress.Steps.extends ((Infer.steps_expr _ _ _).ok accepted) (by simp [Subst.Resolved])).resolved
  refine ⟨plainContext_sharedParameter, by decide, ?_, t, p', accepted, ?_⟩
  · refine .tuple (List.forall_mem_cons.2 ⟨.case .var ?_ ?_ ?_, ?_⟩)
    · simp [Pattern.Plain.constructor, Pattern.Plain.literal]
    · simp
    · simp [Expr.Plain.literal]
    · exact List.forall_mem_singleton.2 (.binary .var .literal)
  · rw [Env.erase_applySubst resolved]
    exact not_hasType_matchThenAdd _ _

end Polytype
