import Polytype.Proofs.Inference.Run
import Polytype.Proofs.Program.Induction
import Polytype.Proofs.Renaming.Env

/-!
# Runs that draw other variables

Two runs of inference that start from data equal up to a renaming, and draw their variables at
places the renaming takes to each other, end alike: with results and errors equal up to the
renaming. What is logged or kept in the history may differ, since no decision depends on it.

A comparison ends at a limit. A run that draws only ids below the limit can so be compared with
itself under a renaming that keeps these ids, which shows that all it mentions is below the limit.
-/

namespace Polytype

/-! ## Errors -/

@[simp] def Counted.renamed (ρ : Renaming) : Counted → Counted
  | call => call
  | tuplePattern => tuplePattern
  | constructorArgs name => constructorArgs name
  | typeArgs name => typeArgs name
  | parts expected actual => parts (rename ρ expected) (rename ρ actual)

@[simp] def Cause.renamed (ρ : Renaming) : Cause → Cause
  | mismatch expected actual => mismatch (rename ρ expected) (rename ρ actual)
  | infinite v t => infinite (rename ρ v) (rename ρ t)
  | arity what expected actual => arity (what.renamed ρ) expected actual
  | fieldNotFound field t => fieldNotFound field (rename ρ t)
  | missingField field expected actual =>
    missingField field (rename ρ expected) (rename ρ actual)
  | notEquatable t => notEquatable (rename ρ t)
  | nonBooleanGuard actual => nonBooleanGuard (rename ρ actual)
  | unresolved name t => unresolved name (rename ρ t)
  | unknownConstructor name => unknownConstructor name
  | unknownVariable name => unknownVariable name
  | unknownType name => unknownType name
  | nonExhaustive missing => nonExhaustive missing
  | inconsistentChoice left right => inconsistentChoice left right
  | duplicateBinding name => duplicateBinding name
  | dependsOnFailed name => dependsOnFailed name
  | internal defect => internal defect

@[simp] def Hint.renamed (ρ : Renaming) : Hint → Hint
  | functionType t => functionType (rename ρ t)
  | addField field => addField field
  | declareParameter name => declareParameter name
  | onlyFunctions => onlyFunctions
  | noFunctionEquality op => noFunctionEquality op
  | operandTypes names => operandTypes names
  | annotate => annotate
  | addCase missing => addCase missing

instance : Renamable TypeError where
  rename ρ e := ⟨e.cause.renamed ρ, e.span, e.hint.map (Hint.renamed ρ), e.related⟩

theorem TypeError.ofClash_rename (ρ : Renaming) (span : Span) (clash : Clash) :
    ofClash span (rename ρ clash) = rename ρ (ofClash span clash) := by
  cases clash <;> rfl

/-! ## Comparing runs -/

structure Comparison where
  /-- How ids of the one run are renamed to ids of the other. -/
  ids : Renaming
  /-- Ids are compared below the limit. -/
  limit : Nat
  /-- The names of which one run alone may know that their declaration failed. -/
  hidden : List String

namespace Comparison

variable (κ : Comparison)

def Draws (next next' : Nat) : Prop :=
  ∀ i, next + i < κ.limit → κ.ids (next + i) = next' + i

/-- What two runs of inference work on. -/
structure Matches (p p' : Progress) : Prop where
  subst : p'.subst = rename κ.ids p.subst
  next : κ.Draws p.next p'.next
  failed : ∀ name ∉ κ.hidden, p'.failed.contains name = p.failed.contains name

structure MatchesNames (scope scope' : NameScope) : Prop where
  names : scope'.names = scope.names.map (rename κ.ids)
  next : κ.Draws scope.next scope'.next

variable {κ} in
theorem Draws.later {next next' : Nat} (h : κ.Draws next next') (n : Nat) :
    κ.Draws (next + n) (next' + n) := by
  intro i hi
  rw [Nat.add_assoc] at hi ⊢
  rw [h (n + i) hi, Nat.add_assoc]

end Comparison

def stateOf {ε σ α : Type} : EStateM.Result ε σ α → σ
  | .ok _ q => q
  | .error _ q => q

inductive EndAlike {σ α : Type} [Renamable α] (ρ : Renaming) (R : σ → σ → Prop) :
    EStateM.Result TypeError σ α → EStateM.Result TypeError σ α → Prop
  | ok {a q q'} : R q q' → EndAlike ρ R (.ok a q) (.ok (rename ρ a) q')
  | error {e q q'} : R q q' → EndAlike ρ R (.error e q) (.error (rename ρ e) q')

theorem EndAlike.ok_of {σ α : Type} [Renamable α] {ρ : Renaming} {R : σ → σ → Prop} {a a' : α}
    {q q' : σ} (h : a' = rename ρ a) (hq : R q q') : EndAlike ρ R (.ok a q) (.ok a' q') :=
  h ▸ .ok hq

def RunAlike {σ α : Type} [Renamable α] (next : σ → Nat) (R : σ → σ → Prop) (κ : Comparison)
    (m m' : EStateM TypeError σ α) : Prop :=
  ∀ p, next p ≤ next (stateOf (m p)) ∧
    ∀ p', R p p' → next (stateOf (m p)) ≤ κ.limit → EndAlike κ.ids R (m p) (m' p')

abbrev Infer.Alike {α : Type} [Renamable α] (κ : Comparison) (m m' : Infer α) : Prop :=
  RunAlike Progress.next κ.Matches κ m m'

abbrev Resolve.Alike {α : Type} [Renamable α] (κ : Comparison) (m m' : Resolve α) : Prop :=
  RunAlike NameScope.next κ.MatchesNames κ m m'

section Runs

open Infer (run_bind_ok run_bind_error)

variable {σ α β : Type} [Renamable α] [Renamable β] {next : σ → Nat} {R : σ → σ → Prop}
  {κ : Comparison}

theorem RunAlike.pure {a a' : α} (h : a' = rename κ.ids a) :
    RunAlike next R κ (pure a) (pure a') := by
  subst h
  exact fun p => ⟨Nat.le_refl _, fun p' hp _ => .ok hp⟩

theorem RunAlike.throw {e e' : TypeError} (h : e' = rename κ.ids e) :
    RunAlike next R κ (throw e : EStateM TypeError σ α) (throw e') := by
  subst h
  exact fun p => ⟨Nat.le_refl _, fun p' hp _ => .error hp⟩

theorem RunAlike.bind {m m' : EStateM TypeError σ α} {f f' : α → EStateM TypeError σ β}
    (hm : RunAlike next R κ m m')
    (hf : ∀ a, RunAlike next R κ (f a) (f' (rename κ.ids a))) :
    RunAlike next R κ (m >>= f) (m' >>= f') := by
  intro p
  obtain ⟨up, alike⟩ := hm p
  cases run : m p with
  | error e q =>
    rw [run_bind_error run]
    rw [run] at up alike
    refine ⟨up, fun p' hp below => ?_⟩
    have ends := alike p' hp below
    generalize run' : m' p' = result at ends
    cases ends with
    | error hq => exact run_bind_error run' ▸ .error hq
  | ok a q =>
    rw [run_bind_ok run]
    rw [run] at up alike
    obtain ⟨up', alike'⟩ := hf a q
    refine ⟨Nat.le_trans up up', fun p' hp below => ?_⟩
    have ends := alike p' hp (Nat.le_trans up' below)
    generalize run' : m' p' = result at ends
    cases ends with
    | ok hq => exact run_bind_ok run' ▸ alike' _ hq below

theorem RunAlike.ite {c : Prop} [Decidable c] {m m' n n' : EStateM TypeError σ α}
    (hm : RunAlike next R κ m m') (hn : RunAlike next R κ n n') :
    RunAlike next R κ (if c then m else n) (if c then m' else n') := by
  split
  · exact hm
  · exact hn

end Runs

/-! ## Basic computations -/

namespace Infer

variable {κ : Comparison}

theorem alike_fail {α : Type} [Renamable α] {cause cause' : Cause} {span : Span}
    {hint hint' : Option Hint} {related : List Span} (hcause : cause' = cause.renamed κ.ids)
    (hhint : hint' = hint.map (Hint.renamed κ.ids)) :
    Alike κ (fail cause span hint related : Infer α) (fail cause' span hint' related) := by
  subst hcause hhint
  exact .throw rfl

theorem alike_log {event event' : Event} : Alike κ (log event) (log event') :=
  fun _ => ⟨Nat.le_refl _, fun _ hp _ => .ok ⟨hp.subst, hp.next, hp.failed⟩⟩

theorem alike_noteSchemes {env env' : Env} {drawn drawn' : Nat} {schemes schemes' : List Scheme} :
    Alike κ (noteSchemes env drawn schemes) (noteSchemes env' drawn' schemes') :=
  fun _ => ⟨Nat.le_refl _, fun _ hp _ => .ok ⟨hp.subst, hp.next, hp.failed⟩⟩

theorem alike_drawnSoFar_bind {α : Type} [Renamable α] {f f' : Nat → Infer α}
    (h : ∀ drawn drawn', Alike κ (f drawn) (f' drawn')) :
    Alike κ (drawnSoFar >>= f) (drawnSoFar >>= f') :=
  fun p => ⟨(h p.next 0 p).1, fun p' hp below => (h p.next p'.next p).2 p' hp below⟩

theorem alike_getSubst : Alike κ getSubst getSubst :=
  fun _ => ⟨Nat.le_refl _, fun _ hp _ => .ok_of hp.subst hp⟩

theorem alike_setSubst {s s' : Subst} (h : s' = rename κ.ids s) :
    Alike κ (setSubst s) (setSubst s') :=
  fun _ => ⟨Nat.le_refl _, fun _ hp _ => .ok ⟨h, hp.next, hp.failed⟩⟩

theorem alike_resolved {t t' : Ty} (h : t' = rename κ.ids t) :
    Alike κ (resolved t) (resolved t') := by
  subst h
  exact alike_getSubst.bind fun s => .pure (s.apply_rename κ.ids t)

theorem alike_freshVar (level : Nat) : Alike κ (freshVar level) (freshVar level) := by
  refine fun p => ⟨Nat.le_succ _, fun p' hp below => ?_⟩
  have drawn : κ.ids p.next = p'.next := hp.next 0 below
  refine .ok_of ?_ ⟨hp.subst, hp.next.later 1, hp.failed⟩
  exact congrArg (TypeVar.mk · level) drawn.symm

theorem alike_fresh (level : Nat) : Alike κ (fresh level) (fresh level) :=
  (alike_freshVar level).bind fun _ => .pure rfl

theorem alike_freshList (level count : Nat) :
    Alike κ (freshList level count) (freshList level count) := by
  induction count with
  | zero => exact .pure rfl
  | succ count ih => exact (alike_fresh level).bind fun _ => ih.bind fun _ => .pure rfl

theorem alike_instantiate {σ σ' : Scheme} (h : σ' = rename κ.ids σ) (level : Nat) :
    Alike κ (instantiate σ level) (instantiate σ' level) := by
  subst h
  simp only [instantiate, rename_scheme_vars, List.length_map]
  refine (alike_freshList level σ.vars.length).bind fun fresh => ?_
  refine alike_log.bind fun _ => .pure ?_
  simp

theorem alike_unifyAt {env : Env} {span : Span} {expected expected' actual actual' : Ty}
    (hexpected : expected' = rename κ.ids expected) (hactual : actual' = rename κ.ids actual) :
    Alike κ (unifyAt env span expected actual)
      (unifyAt (rename κ.ids env) span expected' actual') := by
  subst hexpected hactual
  refine alike_getSubst.bind fun s => ?_
  rw [unify_expand_rename]
  cases unify env.expand expected actual s with
  | ok s => exact alike_setSubst rfl
  | error clash => exact .throw (TypeError.ofClash_rename ..)

theorem alike_fieldOf {v v' : TypeVar} (h : v' = rename κ.ids v) (field : String) (level : Nat) :
    Alike κ (fieldOf v field level) (fieldOf v' field level) := by
  subst h
  refine alike_getSubst.bind fun s => ?_
  rw [Subst.knownField_rename]
  cases s.knownField v field with
  | some t => exact .pure rfl
  | none =>
    refine (alike_fresh level).bind fun t => alike_getSubst.bind fun s => ?_
    exact (alike_setSubst (s.requireField_rename κ.ids v field t)).bind fun _ => .pure rfl

/-! ## Generalization -/

theorem alike_schemeOf (env : Env) (level : Nat) {t t' : Ty} (h : t' = rename κ.ids t)
    (generalizable : Bool) :
    Alike κ (schemeOf env level t generalizable)
      (schemeOf (rename κ.ids env) level t' generalizable) := by
  subst h
  refine alike_getSubst.bind fun s => .ite ?_ (.pure ?_)
  · exact alike_log.bind fun _ => .pure (generalize_rename κ.ids env level t s)
  · simp

theorem alike_logAll (closed : List Closing) :
    Alike κ (forIn closed PUnit.unit fun closing _ => do
        log (.closed closing)
        return .yield PUnit.unit)
      (forIn (closed.map (rename κ.ids)) PUnit.unit fun closing _ => do
        log (.closed closing)
        return .yield PUnit.unit) := by
  induction closed with
  | nil => exact .pure rfl
  | cons closing rest ih =>
    simp only [List.map_cons, List.forIn_cons, bind_assoc, pure_bind]
    exact alike_log.bind fun _ => ih

theorem alike_closeRecords (level : Nat) {t t' : Ty} (h : t' = rename κ.ids t) (span : Span) :
    Alike κ (closeRecords level t span) (closeRecords level t' span) := by
  subst h
  refine alike_getSubst.bind fun s => ?_
  rw [Subst.closeRecords_rename]
  generalize s.closeRecords t level = outcome
  obtain ⟨closed, result⟩ := outcome
  refine (alike_logAll closed).bind fun _ => ?_
  cases result with
  | ok s => exact alike_setSubst rfl
  | error clash => exact .throw (TypeError.ofClash_rename ..)

theorem alike_lower (level : Nat) {t t' : Ty} (h : t' = rename κ.ids t) :
    Alike κ (lower level t) (lower level t') := by
  subst h
  exact alike_getSubst.bind fun s => alike_setSubst (s.lower_rename κ.ids t level)

end Infer

/-! ## Written types -/

namespace Resolve

variable {κ : Comparison}

theorem alike_fresh (level : Nat) : Alike κ (fresh level) (fresh level) := by
  refine fun scope => ⟨Nat.le_succ _, fun scope' hscope below => ?_⟩
  have drawn : κ.ids scope.next = scope'.next := hscope.next 0 below
  refine .ok_of ?_ ⟨hscope.names, hscope.next.later 1⟩
  exact congrArg (fun id => Ty.var ⟨id, level⟩) drawn.symm

theorem alike_typeVar (level : Option Nat) (name : String) (span : Span) :
    Alike κ (typeVar level name span) (typeVar level name span) := by
  have known {scope scope' : NameScope} (hscope : κ.MatchesNames scope scope') :
      scope'.names.get? name = (scope.names.get? name).map (rename κ.ids) := by
    rw [hscope.names, Assoc.get?_rename]
  have bound (t : Ty) : Alike κ
      (modify fun scope => { scope with names := scope.names.insert name t })
      (modify fun scope => { scope with names := scope.names.insert name (rename κ.ids t) }) := by
    refine fun scope => ⟨Nat.le_refl _, fun scope' hscope _ => .ok ⟨?_, hscope.next⟩⟩
    dsimp only
    rw [hscope.names, Assoc.insert_rename]
  intro scope
  unfold typeVar
  simp only [Infer.get_bind]
  cases hknown : scope.names.get? name with
  | some t =>
    refine ⟨Nat.le_refl _, fun scope' hscope _ => ?_⟩
    rw [known hscope, hknown]
    exact .ok hscope
  | none =>
    cases level with
    | none =>
      refine ⟨Nat.le_refl _, fun scope' hscope _ => ?_⟩
      rw [known hscope, hknown]
      exact .error hscope
    | some level =>
      have drawn : Alike κ
          (do
            let t ← fresh level
            modify fun scope => { scope with names := scope.names.insert name t }
            return t)
          (do
            let t ← fresh level
            modify fun scope => { scope with names := scope.names.insert name t }
            return t) :=
        (alike_fresh level).bind fun t => (bound t).bind fun _ => .pure rfl
      refine ⟨(drawn scope).1, fun scope' hscope below => ?_⟩
      rw [known hscope, hknown]
      exact (drawn scope).2 scope' hscope below

variable (env : Env) (level : Option Nat)

theorem alike_types {ts : List TypeExpr}
    (ih : ∀ t ∈ ts, Alike κ (type env level t) (type (rename κ.ids env) level t)) :
    Alike κ (types env level ts) (types (rename κ.ids env) level ts) := by
  induction ts with
  | nil =>
    rw [types, types]
    exact .pure rfl
  | cons t ts ihRest =>
    obtain ⟨first, rest⟩ := List.forall_mem_cons.1 ih
    rw [types, types]
    exact first.bind fun _ => (ihRest rest).bind fun _ => .pure rfl

theorem alike_fields {written : List (String × TypeExpr)}
    (ih : ∀ field ∈ written,
      Alike κ (type env level field.2) (type (rename κ.ids env) level field.2)) :
    Alike κ (fields env level written) (fields (rename κ.ids env) level written) := by
  induction written with
  | nil =>
    rw [fields, fields]
    exact .pure rfl
  | cons field rest ihRest =>
    obtain ⟨name, t⟩ := field
    obtain ⟨first, rest⟩ := List.forall_mem_cons.1 ih
    rw [fields, fields]
    exact first.bind fun _ => (ihRest rest).bind fun _ => .pure rfl

theorem alike_type (t : TypeExpr) :
    Alike κ (type env level t) (type (rename κ.ids env) level t) := by
  induction t using TypeExpr.induct with
  | named name args span ih =>
    rw [type, type, Env.definition?_rename]
    cases env.definition? name with
    | none => exact .throw rfl
    | some d =>
      simp only [Option.map_some, Definition.rename_params, List.length_map]
      refine .ite ((alike_types env level ih).bind fun ts => .pure ?_) (.throw rfl)
      simp
  | var name span =>
    rw [type, type]
    exact alike_typeVar level name span
  | func params result span ihParams ihResult =>
    rw [type, type]
    exact (alike_types env level ihParams).bind fun ts => ihResult.bind fun t => .pure (by simp)
  | record written span ih =>
    rw [type, type]
    exact (alike_fields env level ih).bind fun fields => .pure (by simp)
  | tuple elements span ih =>
    rw [type, type]
    exact (alike_types env level ih).bind fun ts => .pure (by simp)

theorem alike_params (level : Nat) (params : List Param) :
    Alike κ (Resolve.params env level params) (Resolve.params (rename κ.ids env) level params) := by
  induction params with
  | nil => exact .pure rfl
  | cons param rest ih =>
    obtain ⟨name, written⟩ := param
    cases written with
    | none => exact (alike_fresh level).bind fun _ => ih.bind fun _ => .pure rfl
    | some written =>
      exact (alike_type env (some level) written).bind fun _ => ih.bind fun _ => .pure rfl

end Resolve

namespace Infer

variable {κ : Comparison}

theorem alike_resolving {α : Type} [Renamable α] {names names' : Assoc String Ty} {x x' : Resolve α}
    (hnames : names' = names.map (rename κ.ids)) (h : Resolve.Alike κ x x') :
    Alike κ (resolving names x) (resolving names' x') := by
  intro p
  obtain ⟨up, alike⟩ := h ⟨p.next, names⟩
  unfold resolving
  cases run : x ⟨p.next, names⟩ with
  | ok a scope =>
    rw [run] at up alike
    refine ⟨up, fun p' hp below => ?_⟩
    have ends := alike ⟨p'.next, names'⟩ ⟨hnames, hp.next⟩ below
    generalize x' ⟨p'.next, names'⟩ = result at ends
    cases ends with
    | ok hscope => exact .ok ⟨hp.subst, hscope.next, hp.failed⟩
  | error e scope =>
    rw [run] at up alike
    refine ⟨up, fun p' hp below => ?_⟩
    have ends := alike ⟨p'.next, names'⟩ ⟨hnames, hp.next⟩ below
    generalize x' ⟨p'.next, names'⟩ = result at ends
    cases ends with
    | error hscope => exact .error ⟨hp.subst, hscope.next, hp.failed⟩

theorem alike_writtenType (env : Env) (level : Nat) (written : TypeExpr) :
    Alike κ (writtenType env level written) (writtenType (rename κ.ids env) level written) :=
  alike_resolving rfl (Resolve.alike_type env (some level) written)

end Infer

end Polytype
