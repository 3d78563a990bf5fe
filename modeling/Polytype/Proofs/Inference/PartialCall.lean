import Mathlib
import Polytype.Env.Prelude
import Polytype.Proofs.Inference.Steps
import Polytype.Proofs.Subst.Absorption

namespace Polytype

open Ty

theorem Progress.Steps.absorbs {scopes : Env → Prop} {p q : Progress}
    (h : Progress.Steps scopes p q) (hp : p.subst.Resolved) : q.subst.Absorbs p.subst := by
  induction h with
  | refl => exact hp.absorbs
  | tail steps step ih =>
    cases step with
    | draw | log | note => exact ih
    | solve =>
      have resolved := (Steps.extends steps hp).resolved
      exact (resolved.absorbs_outcome (Subst.Operation.outcome_run _ _)).trans ih

namespace Infer

variable {env : Env} {level : Nat}

theorem Stepwise.absorbs {α : Type} {m : Infer α} {p q : Progress} {a : α}
    (h : Stepwise (fun _ => True) m) (hp : p.subst.Resolved) (run : m p = .ok a q) :
    q.subst.Resolved ∧ q.subst.Absorbs p.subst :=
  ⟨(Progress.Steps.extends (h.ok run) hp).resolved, Progress.Steps.absorbs (h.ok run) hp⟩

theorem stepwise_anywhere (e : Expr) : ExprSteps (fun _ => True) e :=
  stepwise_expr (fun _ _ _ => trivial) e

/-! ## Arguments -/

theorem arguments_append (es more : List Expr) {params : List Ty} (h : es.length ≤ params.length) :
    arguments env level (es ++ more) params =
      (arguments env level es params >>= fun _ =>
        arguments env level more (params.drop es.length)) := by
  induction es generalizing params with
  | nil => simp [arguments]
  | cons e es ih =>
    cases params with
    | nil => simp at h
    | cons param params =>
      simp only [List.cons_append, arguments, ih (Nat.le_of_succ_le_succ h), bind_assoc,
        List.length_cons, List.drop_succ_cons]

theorem unifyAt_absorbed (env : Env) (span : Span) {s : Subst} {p : Progress}
    (h : p.subst.Absorbs s) (expected actual : Ty) :
    unifyAt env span (s.apply expected) actual p = unifyAt env span expected actual p := by
  unfold unifyAt
  rw [getSubst_bind, getSubst_bind]
  unfold unify
  rw [h expected]

theorem arguments_absorbed (env : Env) (level : Nat) {s : Subst} (es : List Expr)
    (params : List Ty) {p : Progress} (hp : p.subst.Resolved) (h : p.subst.Absorbs s) :
    arguments env level es (params.map s.apply) p = arguments env level es params p := by
  induction es generalizing params p with
  | nil => simp [arguments]
  | cons e es ih =>
    cases params with
    | nil => rfl
    | cons param params =>
      simp only [List.map_cons, arguments]
      cases run : expr env level e p with
      | error err q => rw [run_bind_error run, run_bind_error run]
      | ok t q =>
        obtain ⟨hq, later⟩ := (stepwise_anywhere e env level trivial).absorbs hp run
        rw [run_bind_ok run, run_bind_ok run]
        have compared := unifyAt_absorbed env e.span (later.trans h) param t
        cases unified : unifyAt env e.span param t q with
        | error err r =>
          rw [run_bind_error unified, run_bind_error (compared.trans unified)]
        | ok _ r =>
          obtain ⟨hr, last⟩ := (stepwise_unifyAt trivial e.span param t).absorbs hq unified
          rw [run_bind_ok unified, run_bind_ok (compared.trans unified)]
          exact ih params hr (last.trans (later.trans h))

/-! ## Calls -/

def leftover (params : List Ty) (result : Ty) : Ty :=
  if params.isEmpty then result else .func params result

theorem apply_leftover (s : Subst) (params : List Ty) (result : Ty) :
    s.apply (leftover params result) = leftover (params.map s.apply) (s.apply result) := by
  unfold leftover
  cases params with
  | nil => rfl
  | cons param params => simp [Subst.apply, mapVars, mapVarsList_eq]

theorem callee_leftover (env : Env) {params : List Ty} (h : params ≠ []) (result : Ty) :
    env.callee (leftover params result) = .func params result := by
  rw [leftover, if_neg (by simpa using h)]
  rfl

theorem expr_apply_function {f : Expr} {args : List Expr} {p q : Progress} {t : Ty}
    {params : List Ty} {result : Ty} (function : expr env level f p = .ok t q)
    (callee : env.callee (q.subst.apply t) = .func params result) (given : args ≠ [])
    (fit : args.length ≤ params.length) (span : Span) :
    expr env level (.apply f args span) p =
      (arguments env level args params >>= fun _ =>
        pure (leftover (params.drop args.length) result)) q := by
  have accepted : ¬(params.length < args.length ∨ args.isEmpty = true ∧ ¬params.isEmpty = true) := by
    simp [given]
    omega
  rw [expr, run_bind_ok function, run_resolved_bind, callee]
  simp only [accepted, if_false]
  rfl

section Split

variable {f : Expr} {args more : List Expr} {p q : Progress} {t : Ty} {params : List Ty}
  {result : Ty} (hp : p.subst.Resolved) (function : expr env level f p = .ok t q)
  (callee : env.callee (q.subst.apply t) = .func params result) (first : args ≠ [])
  (second : more ≠ []) (fit : (args ++ more).length ≤ params.length)

include function callee first fit

theorem expr_apply_append (span : Span) :
    expr env level (.apply f (args ++ more) span) p =
      (arguments env level args params >>= fun _ =>
        arguments env level more (params.drop args.length) >>= fun _ =>
          pure (leftover (params.drop (args ++ more).length) result)) q := by
  have some : args.length ≤ params.length := by
    rw [List.length_append] at fit
    omega
  rw [expr_apply_function function callee (by simp [first]) fit, arguments_append args more some,
    bind_assoc]

theorem expr_apply_apply (second : more ≠ []) {r : Progress}
    (run : arguments env level args params q = .ok () r) (hr : r.subst.Resolved)
    (inner outer : Span) :
    expr env level (.apply (.apply f args inner) more outer) p =
      (arguments env level more (params.drop args.length) >>= fun _ =>
        pure (r.subst.apply (leftover (params.drop (args ++ more).length) result))) r := by
  rw [List.length_append] at fit
  have remaining : params.drop args.length ≠ [] := by
    have := List.length_pos_iff.2 second
    simp only [ne_eq, List.drop_eq_nil_iff]
    omega
  have partly : expr env level (.apply f args inner) p =
      .ok (leftover (params.drop args.length) result) r := by
    rw [expr_apply_function function callee first (by omega), run_bind_ok run]
    rfl
  have callee' : env.callee (r.subst.apply (leftover (params.drop args.length) result)) =
      .func ((params.drop args.length).map r.subst.apply) (r.subst.apply result) := by
    rw [apply_leftover, callee_leftover env (by simpa using remaining)]
  have same : leftover (((params.drop args.length).map r.subst.apply).drop more.length)
      (r.subst.apply result) =
        r.subst.apply (leftover (params.drop (args ++ more).length) result) := by
    rw [apply_leftover, List.length_append, ← List.drop_drop, ← List.map_drop]
  have absorbed := arguments_absorbed env level more (params.drop args.length) hr hr.absorbs
  rw [expr_apply_function partly callee' second (by simp; omega), same]
  cases last : arguments env level more (params.drop args.length) r with
  | error e r' => rw [run_bind_error last, run_bind_error (absorbed.trans last)]
  | ok _ r' => rw [run_bind_ok last, run_bind_ok (absorbed.trans last)]

include hp second

/-- A call that gives a function some of its parameters succeeds exactly if the call in two parts
does. Both then have drawn the same variables, know the same and have the same type. -/
theorem expr_apply_split (span inner outer : Span) :
    ((∃ u r, expr env level (.apply f (args ++ more) span) p = .ok u r) ↔
      ∃ u r, expr env level (.apply (.apply f args inner) more outer) p = .ok u r) ∧
    ∀ u r u' r', expr env level (.apply f (args ++ more) span) p = .ok u r →
      expr env level (.apply (.apply f args inner) more outer) p = .ok u' r' →
      r'.next = r.next ∧ r'.subst = r.subst ∧ r'.subst.apply u' = r.subst.apply u := by
  have whole := expr_apply_append function callee first fit span
  have hq := ((stepwise_anywhere f env level trivial).absorbs hp function).1
  cases run : arguments env level args params q with
  | error e r =>
    -- The first call fails in an argument, and so does the single one.
    rw [run_bind_error run] at whole
    have partly : expr env level (.apply f args inner) p = .error e r := by
      rw [List.length_append] at fit
      rw [expr_apply_function function callee first (by omega), run_bind_error run]
    have split : expr env level (.apply (.apply f args inner) more outer) p = .error e r := by
      rw [expr, run_bind_error partly]
    rw [whole, split]
    simp
  | ok _ r =>
    obtain ⟨hr, -⟩ := (stepwise_arguments trivial level (fun e _ => stepwise_anywhere e)
      params).absorbs hq run
    have split := expr_apply_apply function callee first fit second run hr inner outer
    rw [run_bind_ok run] at whole
    cases last : arguments env level more (params.drop args.length) r with
    | error e r' =>
      rw [run_bind_error last] at whole split
      rw [whole, split]
      simp
    | ok _ r' =>
      obtain ⟨-, later⟩ := (stepwise_arguments trivial level (fun e _ => stepwise_anywhere e)
        (params.drop args.length)).absorbs hr last
      rw [run_bind_ok last] at whole split
      refine ⟨iff_of_true ⟨_, _, whole⟩ ⟨_, _, split⟩, fun u r₁ u' r₂ h h' => ?_⟩
      obtain ⟨rfl, rfl⟩ := EStateM.Result.ok.inj (whole.symm.trans h)
      obtain ⟨rfl, rfl⟩ := EStateM.Result.ok.inj (split.symm.trans h')
      exact ⟨rfl, rfl, later _⟩

end Split

namespace PartialCall

def fold : Definition :=
  -- type Fold<'a> = ('a, List<'a>, Bool) -> 'a
  ⟨"Fold", [⟨50, 0⟩], .synonym
    (.func [.var ⟨50, 0⟩, .list (.var ⟨50, 0⟩), .bool] (.var ⟨50, 0⟩))⟩

def scope : Env := (Prelude.env.define fold).extendMono [("fold", .var ⟨101, 1⟩)]

/-- The type of `fold` is known up to the argument of `Fold`. -/
def start : Progress where
  subst := { types := [(101, .app (.const "Fold") [.var ⟨100, 1⟩])] }
  next := 102

def function : Expr := .var ⟨"fold", {}⟩

def one : Expr := .literal (.int 1) {}

def nothing : Expr := .list [] {}

end PartialCall

open PartialCall in
theorem expr_apply_split_fold : start.subst.Resolved ∧
    ∃ t q params result u r u' r', expr scope 0 function start = .ok t q ∧
      scope.callee (q.subst.apply t) = .func params result ∧ 2 ≤ params.length ∧
      expr scope 0 (.apply function [one, nothing] {}) start = .ok u r ∧
      expr scope 0 (.apply (.apply function [one] {}) [nothing] {}) start = .ok u' r' ∧
      r'.next = r.next ∧ r'.subst = r.subst ∧ r'.subst.apply u' = r.subst.apply u := by
  have resolved : start.subst.Resolved := by
    intro id t h
    have bound := Assoc.mem_of_get? h
    simp only [start, List.mem_singleton, Prod.mk.injEq] at bound
    obtain ⟨rfl, rfl⟩ := bound
    refine within_iff.2 fun w hw => ?_
    obtain rfl : w = ⟨100, 1⟩ := by simpa [Ty.vars, Ty.varsList] using hw
    rfl
  have found : expr scope 0 function start = .ok (.var ⟨101, 1⟩)
      { start with events := #[.instantiated (.mono (.var ⟨101, 1⟩)) (.var ⟨101, 1⟩)] } := by
    cbv
  have callee : scope.callee (start.subst.apply (.var ⟨101, 1⟩)) =
      .func [.var ⟨100, 1⟩, .list (.var ⟨100, 1⟩), .bool] (.var ⟨100, 1⟩) := by
    cbv
  have accepted : ((expr scope 0 (.apply function [one, nothing] {})).run' start).any
      (fun _ => true) = true := by
    cbv
  obtain ⟨u, r, run, -⟩ := exists_run_of_any accepted
  obtain ⟨success, agree⟩ := @expr_apply_split scope 0 function [one] [nothing] _ _ _ _ _ resolved
    found callee (by simp) (by simp) (by simp) {} {} {}
  obtain ⟨u', r', run'⟩ := success.1 ⟨u, r, run⟩
  exact ⟨resolved, _, _, _, _, u, r, u', r', found, callee, by simp, run, run',
    agree u r u' r' run run'⟩

end Infer

end Polytype
