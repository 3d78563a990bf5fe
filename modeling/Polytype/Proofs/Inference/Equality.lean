import Mathlib
import Polytype.Env.Prelude
import Polytype.Proofs.Env.Expansion
import Polytype.Proofs.Inference.Visits

namespace Polytype

open Ty Progress

/-! ## Functions inside types -/

namespace Ty

theorem hasFunctionList_eq (ts : List Ty) : hasFunctionList ts = ts.any hasFunction := by
  induction ts with
  | nil => rfl
  | cons t ts ih => simp only [hasFunctionList, List.any_cons, ih]

theorem hasFunctionFields_eq (fields : List (String × Ty)) :
    hasFunctionFields fields = (fields.map (·.2)).any hasFunction := by
  induction fields with
  | nil => rfl
  | cons field fields ih => simp only [hasFunctionFields, List.map_cons, List.any_cons, ih]

section Subst

variable {θ : Nat → Ty}

theorem any_hasFunction_subst {ts : List Ty}
    (ih : ∀ t ∈ ts, ((t.subst θ).hasFunction = true ↔
      t.hasFunction = true ∨ ∃ v ∈ t.vars, (θ v.id).hasFunction = true)) :
    (ts.map (subst θ)).any hasFunction = true ↔
      ts.any hasFunction = true ∨ ∃ v ∈ ts.flatMap vars, (θ v.id).hasFunction = true := by
  simp only [List.any_eq_true, List.mem_map, List.mem_flatMap]
  constructor
  · rintro ⟨_, ⟨t, ht, rfl⟩, h⟩
    rcases (ih t ht).1 h with h | ⟨v, hv, h⟩
    · exact .inl ⟨t, ht, h⟩
    · exact .inr ⟨v, ⟨t, ht, hv⟩, h⟩
  · rintro (⟨t, ht, h⟩ | ⟨v, ⟨t, ht, hv⟩, h⟩)
    · exact ⟨_, ⟨t, ht, rfl⟩, (ih t ht).2 (.inl h)⟩
    · exact ⟨_, ⟨t, ht, rfl⟩, (ih t ht).2 (.inr ⟨v, hv, h⟩)⟩

theorem hasFunction_subst {t : Ty} : (t.subst θ).hasFunction = true ↔
    t.hasFunction = true ∨ ∃ v ∈ t.vars, (θ v.id).hasFunction = true := by
  induction t using induct with
  | var v => simp [hasFunction, vars]
  | const name => simp [hasFunction, vars]
  | app head args ihHead ihArgs =>
    simp only [subst_app, hasFunction, hasFunctionList_eq, Bool.or_eq_true, ihHead,
      any_hasFunction_subst ihArgs, vars, varsList_eq, List.mem_append, or_and_right, exists_or]
    exact or_or_or_comm
  | func params result ihParams ihResult => simp [hasFunction]
  | record fields ih =>
    have types : (fields.map fun field => (field.1, field.2.subst θ)).map (·.2) =
        (fields.map (·.2)).map (subst θ) := by simp
    have members := @any_hasFunction_subst θ (fields.map (·.2)) fun t ht => by
      obtain ⟨field, hf, rfl⟩ := List.mem_map.1 ht
      exact ih field hf
    simp only [subst_record, hasFunction, hasFunctionFields_eq, types, members, vars, varsFields_eq,
      List.flatMap_map]
  | tuple elements ih =>
    simp only [subst_tuple, hasFunction, hasFunctionList_eq, any_hasFunction_subst ih, vars,
      varsList_eq]

end Subst

theorem hasFunction_erase {t : Ty} : t.erase.hasFunction = true ↔ t.hasFunction = true := by
  rw [erase, hasFunction_subst]
  simp [hasFunction]

end Ty

theorem Subst.Extends.hasFunction_apply {C : Nat → Prop} {P : Ty → Prop} {s s' : Subst}
    (h : s.Extends C P s') (hs : s.Resolved) (t : Ty) : (s'.apply t).hasFunction = true ↔
      (s.apply t).hasFunction = true ∨
        ∃ v ∈ (s.apply t).vars, (s'.apply (.var v)).hasFunction = true := by
  have image (u : Ty) :
      (s'.apply u).hasFunction = true ↔ (u.subst s'.image).hasFunction = true := by
    rw [← hasFunction_erase, h.resolved.erase_apply]
  rw [image, ← h.solves.subst_apply hs, hasFunction_subst]
  simp only [image, subst_var]

/-! ## Types that fit without records and definitions -/

/-- There is no record in the type, and no name that stands for another type. -/
abbrev Env.Direct (env : Env) : Ty → Prop :=
  Everywhere fun t => RecordlessNode t ∧ env.expand t = none

section Direct

variable {env : Env}

theorem Env.expand_ne_none {t u : Ty} (h : env.expand t = some u) {name : String} {t' : Ty}
    (hname : t.headName? = some name) (hname' : t'.headName? = some name)
    (hlength : t'.args.length = t.args.length) : env.expand t' ≠ none := by
  obtain ⟨found, d, target, hhead, hd, hparams, -, hbody, -⟩ := Env.expand_cases h
  obtain rfl := Option.some.inj (hhead.symm.trans hname)
  have known : env.definitionOf? t' = some d :=
    Env.definitionOf?_eq_some hname' hd (hparams.trans hlength.symm)
  simp [Env.expand, known, hbody]

theorem Env.Direct.root {t : Ty} (h : env.Direct t) : env.expand t = none := by
  cases h with
  | var node | const node | app node | func node | record node | tuple node => exact node.2

theorem Env.Direct.erase {t : Ty} (h : env.Direct t) : env.Direct t.erase := by
  induction h with
  | var node => exact .var ⟨trivial, rfl⟩
  | const node => exact .const node
  | @app head args node _ _ ihHead ihArgs =>
    rw [erase_app]
    refine .app ⟨trivial, ?_⟩ ihHead (List.forall_mem_map.2 ihArgs)
    cases unfolded : env.expand (.app head.erase (args.map Ty.erase)) with
    | none => rfl
    | some u =>
      obtain ⟨name, d, target, hname, -⟩ := Env.expand_cases unfolded
      have hname' : (Ty.app head args).headName? = some name := by
        rw [← headName?_erase, erase_app, hname]
      exact absurd node.2 (Env.expand_ne_none unfolded hname hname' (by simp [Ty.args]))
  | func _ _ _ ihParams ihResult =>
    rw [erase_func]
    exact .func ⟨trivial, rfl⟩ (List.forall_mem_map.2 ihParams) ihResult
  | record node => exact node.1.elim
  | tuple _ _ ih =>
    rw [erase_tuple]
    exact .tuple ⟨trivial, rfl⟩ (List.forall_mem_map.2 ih)

theorem map_subst_eq_of_direct {θ : Nat → Ty} {ts us : List Ty}
    (h : List.Forall₂ (fun t u => env.Direct (t.subst θ) → env.Direct (u.subst θ) →
      t.subst θ = u.subst θ) ts us)
    (hts : ∀ t ∈ ts.map (Ty.subst θ), env.Direct t)
    (hus : ∀ u ∈ us.map (Ty.subst θ), env.Direct u) :
    ts.map (Ty.subst θ) = us.map (Ty.subst θ) := by
  induction h with
  | nil => rfl
  | cons first _ ih =>
    simp only [List.map_cons, List.forall_mem_cons] at hts hus ⊢
    rw [first hts.1 hus.1, ih hts.2 hus.2]

theorem fitting_direct (env : Env) (θ : Nat → Ty) : Fitting (fun _ => True) env.expand θ
    fun _ t u => env.Direct t → env.Direct u → t = u where
  refl _ _ := rfl
  app _ _ hhead hargs ht hu := by
    simp only [subst_app, everywhere_app] at ht hu ⊢
    rw [subst_eq_of_erase hhead, map_subst_eq_of_direct hargs ht.2.2 hu.2.2]
  func hparams hresult ht hu := by
    simp only [subst_func, everywhere_func] at ht hu ⊢
    rw [hresult ht.2.2 hu.2.2, map_subst_eq_of_direct hparams hu.2.1 ht.2.1]
  tuple helements ht hu := by
    simp only [subst_tuple, everywhere_tuple] at ht hu ⊢
    rw [map_subst_eq_of_direct helements ht.2 hu.2]
  record _ _ _ _ ht _ := by
    simp only [subst_record, everywhere_record] at ht
    exact ht.1.1.elim
  expected {_ t _ _} _ unfolds _ ht _ := by
    obtain ⟨name, d, target, hname, -⟩ := Env.expand_cases unfolds
    obtain ⟨hname', hargs⟩ := Env.headName?_subst_of_some hname θ
    exact absurd ht.root (Env.expand_ne_none unfolds hname hname' (by simp [hargs]))
  actual {_ _ u _} _ unfolds _ _ hu := by
    obtain ⟨name, d, target, hname, -⟩ := Env.expand_cases unfolds
    obtain ⟨hname', hargs⟩ := Env.headName?_subst_of_some hname θ
    exact absurd hu.root (Env.expand_ne_none unfolds hname hname' (by simp [hargs]))

theorem same_of_unify {expected actual : Ty} {s s' : Subst} (hs : s.Resolved)
    (h : unify env.expand expected actual s = .ok s') (hexpected : env.Direct (s'.apply expected))
    (hactual : env.Direct (s'.apply actual)) :
    (s'.apply actual).same (s'.apply expected) = true := by
  obtain ⟨ext, fits⟩ := unify_fits Subst.hereditary_true (fun _ _ _ _ => trivial) h
    (Subst.levelsAbove_zero s') hs ⟨fun _ _ => trivial, fun _ _ _ => trivial⟩ trivial trivial
  have direct := fits _ (fitting_direct env s'.image)
  simp only [← ext.resolved.erase_apply] at direct
  exact same_iff.2 (direct hexpected.erase hactual.erase).symm

end Direct

namespace Infer

theorem exists_of_comparison {env : Env} {op : BinaryOp} (hop : op = .eq ∨ op = .notEq)
    {left right t : Ty} {leftSpan rightSpan span : Span} {p q : Progress}
    (run : binary env op left right leftSpan rightSpan span p = .ok t q) :
    unifyAt env rightSpan left right p = .ok () q ∧ (q.subst.apply left).hasFunction = false := by
  have check : (do
      unifyAt env rightSpan left right
      let compared ← resolved left
      if compared.hasFunction then
        fail (.notEquatable compared) span (some (.noFunctionEquality op))
      else return .bool : Infer Ty) p = .ok t q := by
    rcases hop with rfl | rfl
    · exact run
    · exact run
  obtain ⟨⟨⟩, r, unified, check⟩ := exists_of_bind check
  rw [resolved, bind_assoc, getSubst_bind, pure_bind] at check
  split at check
  · cases check
  · rename_i free
    cases check
    exact ⟨unified, Bool.eq_false_iff.2 free⟩

theorem unify_of_unifyAt {env : Env} {span : Span} {expected actual : Ty} {p q : Progress}
    (run : unifyAt env span expected actual p = .ok () q) :
    unify env.expand expected actual p.subst = .ok q.subst := by
  rw [unifyAt, getSubst_bind] at run
  cases h : unify env.expand expected actual p.subst with
  | ok s =>
    rw [h] at run
    cases run
    rfl
  | error clash =>
    rw [h] at run
    cases run

/-- In an accepted expression every comparison is visited. When it is, the type of its left operand
has no function, and the type of the right one is the same if neither has a record or a name that
stands for another type. At the end of the run an operand has a function exactly if it had one then,
or if a variable of its type has become a type with a function since. -/
theorem hasFunction_compared {env : Env} {level : Nat} {e : Expr} {start q : Progress} {t : Ty}
    (hs : start.subst.Resolved) (run : expr env level e start = .ok t q) {op : BinaryOp}
    (hop : op = .eq ∨ op = .notEq) (left right : Expr) (span : Span) :
    (e.Contains (.binary op left right span) →
      ∃ v, Visit.Visits ⟨env, level, e, start⟩ v ∧ v.expr = .binary op left right span) ∧
    ∀ v, Visit.Visits ⟨env, level, e, start⟩ v → v.expr = .binary op left right span →
      ∃ leftType p rightType p' agreed, expr v.env v.level left v.start = .ok leftType p ∧
        expr v.env v.level right p = .ok rightType p' ∧
        unifyAt v.env right.span leftType rightType p' = .ok () agreed ∧
        (agreed.subst.apply leftType).hasFunction = false ∧
        (v.env.Direct (agreed.subst.apply leftType) → v.env.Direct (agreed.subst.apply rightType) →
          (agreed.subst.apply rightType).same (agreed.subst.apply leftType) = true) ∧
        ((q.subst.apply leftType).hasFunction = true ↔
          ∃ x ∈ (agreed.subst.apply leftType).vars,
            (q.subst.apply (.var x)).hasFunction = true) ∧
        ((q.subst.apply rightType).hasFunction = true ↔
          (agreed.subst.apply rightType).hasFunction = true ∨
            ∃ x ∈ (agreed.subst.apply rightType).vars,
              (q.subst.apply (.var x)).hasFunction = true) := by
  refine ⟨fun inside => Visit.exists_visits inside run, fun v visits heq => ?_⟩
  obtain ⟨before, u, agreed, visited, later⟩ := visits.finishes run
  rw [Visit.run, heq, expr] at visited
  obtain ⟨leftType, p, hleft, visited⟩ := exists_of_bind visited
  obtain ⟨rightType, p', hright, visited⟩ := exists_of_bind visited
  obtain ⟨unified, free⟩ := exists_of_comparison hop visited
  -- The operands are compared between two stretches of the run.
  have sofar := (before.trans ((steps_expr _ _ left).ok hleft)).trans
    ((steps_expr _ _ right).ok hright)
  have known : p'.subst.Resolved := (Steps.extends sofar hs).resolved
  have resolved : agreed.subst.Resolved :=
    (Steps.extends ((steps_unifyAt _ _ _ _).ok unified) known).resolved
  have final (operand : Ty) := (Steps.extends later resolved).hasFunction_apply resolved operand
  refine ⟨leftType, p, rightType, p', agreed, hleft, hright, unified, free, fun hl hr => ?_, ?_,
    final rightType⟩
  · exact same_of_unify known (unify_of_unifyAt unified) hl hr
  · simpa [free] using final leftType

namespace Equality

def f : Ident := ⟨"f", {}⟩

/-- `f == f` -/
def compared : Expr := .binary .eq (.var f) (.var f) {}

def pair : Expr := .tuple [compared, .apply (.var f) [.literal (.int 1) {}] {}] {}

/-- `(f) => (f == f, f(1))` -/
def comparedThenCalled : Expr := .lambda [⟨f, none⟩] pair {}

theorem contains_compared : comparedThenCalled.Contains compared :=
  .tail (.tail .refl (List.mem_singleton.2 rfl)) List.mem_cons_self

theorem hasFunction_compared_called : Subst.Resolved ({} : Progress).subst ∧
    comparedThenCalled.Contains compared ∧ ∃ t q v leftType p, ∃ agreed : Progress,
      expr Prelude.env 0 comparedThenCalled {} = .ok t q ∧
      Visit.Visits ⟨Prelude.env, 0, comparedThenCalled, {}⟩ v ∧ v.expr = compared ∧
      expr v.env v.level (.var f) v.start = .ok leftType p ∧
      (agreed.subst.apply leftType).hasFunction = false ∧
      ((q.subst.apply leftType).hasFunction = true ↔
        ∃ x ∈ (agreed.subst.apply leftType).vars,
          (q.subst.apply (.var x)).hasFunction = true) := by
  have resolved : Subst.Resolved ({} : Progress).subst := fun _ _ h => by simp at h
  obtain ⟨t, q, run, -⟩ := @exists_run_of_any Ty (expr Prelude.env 0 comparedThenCalled) {}
    (fun _ => true) (by cbv)
  obtain ⟨visited, each⟩ := hasFunction_compared resolved run (.inl rfl) (.var f) (.var f) {}
  obtain ⟨v, visits, heq⟩ := visited contains_compared
  obtain ⟨leftType, p, -, -, agreed, hleft, -, -, free, -, final, -⟩ := each v visits heq
  exact ⟨resolved, contains_compared, t, q, v, leftType, p, agreed, run, visits, heq, hleft, free,
    final⟩

/-- The operands turn out to be functions once they have been compared. -/
theorem function_compared : ∃ t q v leftType p,
    expr Prelude.env 0 comparedThenCalled {} = .ok t q ∧
    Visit.Visits ⟨Prelude.env, 0, comparedThenCalled, {}⟩ v ∧ v.expr = compared ∧
    expr v.env v.level (.var f) v.start = .ok leftType p ∧
    (q.subst.apply leftType).hasFunction = true := by
  -- The whole run, and again from the start as far as the left operand.
  obtain ⟨_, _, run, final⟩ := @exists_run_of_any Bool (do
      let start ← get
      let _ ← expr Prelude.env 0 comparedThenCalled
      let s ← getSubst
      set start
      let types ← resolving [] (Resolve.params Prelude.env 1 [⟨f, none⟩])
      let t ← expr (Prelude.env.extendMono (["f"].zip types)) 1 (.var f)
      return (s.apply t).hasFunction) {} id (by cbv)
  obtain ⟨start, _, got, run⟩ := exists_of_bind run
  cases got
  obtain ⟨t, q, accepted, run⟩ := exists_of_bind run
  obtain ⟨s, _, got, run⟩ := exists_of_bind run
  cases got
  obtain ⟨_, _, back, run⟩ := exists_of_bind run
  cases back
  obtain ⟨types, r, params, run⟩ := exists_of_bind run
  obtain ⟨leftType, p, hleft, run⟩ := exists_of_bind run
  cases run
  let scope := Prelude.env.extendMono (["f"].zip types)
  have body : Visit.Part ⟨Prelude.env, 0, comparedThenCalled, {}⟩ ⟨scope, 1, pair, r⟩ :=
    ⟨_, .lambda, run_bind_ok params⟩
  have first : Visit.Part ⟨scope, 1, pair, r⟩ ⟨scope, 1, compared, r⟩ := by
    refine ⟨_, @Stage.tuple scope 1 [] compared _ _, ?_⟩
    rw [exprs, pure_bind]
    rfl
  exact ⟨t, q, ⟨scope, 1, compared, r⟩, leftType, _, accepted, .tail (.single body) first, rfl,
    hleft, final⟩

end Equality

end Infer

end Polytype
