import Mathlib.Data.List.Basic
import Mathlib.Logic.Relation
import Polytype.Proofs.Inference.Run
import Polytype.Proofs.Inference.Values
import Polytype.Proofs.Ty.Erasure

namespace Polytype

open Relation

/-! ## The parts of an expression -/

/-- The expression of a part of a record. -/
def Entry.value : Entry → Expr
  | field init => init.value
  | spread base => base

namespace Expr

/-- The expressions directly inside an expression. -/
def parts : Expr → List Expr
  | literal _ _ | var _ => []
  | lambda _ body _ => [body]
  | apply function args _ => function :: args
  | letIn _ _ value _ body _ => [value, body]
  | letGroup bindings body _ => bindings.map (·.value) ++ [body]
  | cond condition thenBranch elseBranch _ => [condition, thenBranch, elseBranch]
  | block parts _ | tuple parts _ | list parts _ => parts
  | case scrutinee arms _ => scrutinee :: arms.flatMap fun arm => arm.guard.toList ++ [arm.body]
  | record entries _ => entries.map Entry.value
  | update base inits _ => base :: inits.map (·.value)
  | field object _ _ => [object]
  | makeRef value _ => [value]
  | deref reference _ => [reference]
  | assign target value _ => [target, value]
  | binary _ left right _ => [left, right]
  | unary _ operand _ => [operand]
  | annotated expr _ _ => [expr]

/-- The second expression is the first one, or somewhere inside it. -/
abbrev Contains : Expr → Expr → Prop := ReflTransGen fun e part => part ∈ e.parts

end Expr

namespace Infer

/-! ## What comes before a part -/

/-- What is done before one of the arguments of a call: the arguments before it are inferred, once
the function is known to take as many as there are, or if nothing is known about it. -/
def beforeArgument (env : Env) (level : Nat) (function : Expr) (args before : List Expr)
    (span : Span) : Infer (Env × Nat) := do
  let t ← expr env level function
  match env.callee (← resolved t) with
  | .func params result =>
    if params.length < args.length then
      fail (.arity .call params.length args.length) span
        (some (.functionType (.func params result)))
    else
      arguments env level before params
      return (env, level)
  | .var _ =>
    let _ ← exprs env level before
    return (env, level)
  | other =>
    let params ← freshList level args.length
    let result ← fresh level
    fail (.mismatch (.func params result) other) function.span (some .onlyFunctions)

section BeforeArgument

variable {env : Env} {level : Nat} {function : Expr} {args : List Expr} {t : Ty} {p q : Progress}
  (run : expr env level function p = .ok t q)

include run in
theorem beforeArgument_func {params : List Ty} {result : Ty}
    (callee : env.callee (q.subst.apply t) = .func params result)
    (enough : args.length ≤ params.length) (before : List Expr) (span : Span) :
    beforeArgument env level function args before span p = (do
      arguments env level before params
      return (env, level)) q := by
  rw [beforeArgument, run_bind_ok run, run_resolved_bind, callee]
  exact congrFun (if_neg (Nat.not_lt.2 enough)) q

include run in
theorem beforeArgument_var {v : TypeVar} (callee : env.callee (q.subst.apply t) = .var v)
    (before : List Expr) (span : Span) :
    beforeArgument env level function args before span p = (do
      let _ ← exprs env level before
      return (env, level)) q := by
  rw [beforeArgument, run_bind_ok run, run_resolved_bind, callee]

end BeforeArgument

def updatable (env : Env) (level : Nat) (base : Expr) (inits : List FieldInit) (applied : Ty) :
    Infer (List (String × Ty)) :=
  match applied with
  | .var v => updatedFields level v inits []
  | _ => fieldsAt env base.span applied

/-- What is done before a part of an expression is inferred. It gives the scope and the level of the
part. -/
inductive Stage (env : Env) (level : Nat) : Expr → Infer (Env × Nat) → Expr → Prop
  | lambda {params body span} : Stage env level (.lambda params body span) (do
      let types ← resolving [] (Resolve.params env (level + 1) params)
      return (env.extendMono ((params.map (·.name.name)).zip types), level + 1)) body
  | function {function args span} :
      Stage env level (.apply function args span) (pure (env, level)) function
  | argument {function before arg later span} :
      Stage env level (.apply function (before ++ arg :: later) span)
        (beforeArgument env level function (before ++ arg :: later) before span) arg
  | letValue {name written value recursive body span} :
      Stage env level (.letIn name written value recursive body span) (do
        let scope ← letScope env level name written recursive
        return (scope.2, level + 1)) value
  | letBody {name written value recursive body span} :
      Stage env level (.letIn name written value recursive body span) (do
        let σ ← letBinding env level name written value recursive
        return (env.extendValue name.name σ, level)) body
  | groupValue {before binding later body span} :
      Stage env level (.letGroup (before ++ binding :: later) body span) (do
        let types ← groupTypes env level (before ++ binding :: later)
        members (groupScope env (before ++ binding :: later) types) level before types
        return (groupScope env (before ++ binding :: later) types, level + 1)) binding.value
  | groupBody {bindings body span} : Stage env level (.letGroup bindings body span) (do
      let schemes ← group env level bindings
      return (env.extendAll (Assoc.mapValues .value schemes), level)) body
  | condition {condition thenBranch elseBranch span} :
      Stage env level (.cond condition thenBranch elseBranch span) (pure (env, level)) condition
  | thenBranch {condition thenBranch elseBranch span} :
      Stage env level (.cond condition thenBranch elseBranch span) (do
        let t ← expr env level condition
        unifyAt env condition.span .bool t
        return (env, level)) thenBranch
  | elseBranch {condition thenBranch elseBranch span} :
      Stage env level (.cond condition thenBranch elseBranch span) (do
        let t ← expr env level condition
        unifyAt env condition.span .bool t
        let _ ← expr env level thenBranch
        return (env, level)) elseBranch
  | block {before part later span} : Stage env level (.block (before ++ part :: later) span) (do
      let _ ← exprs env level before
      return (env, level)) part
  | tuple {before part later span} : Stage env level (.tuple (before ++ part :: later) span) (do
      let _ ← exprs env level before
      return (env, level)) part
  | list {before part later span} : Stage env level (.list (before ++ part :: later) span) (do
      let element ← fresh level
      elements env level element before
      return (env, level)) part
  | scrutinee {scrutinee arms span} :
      Stage env level (.case scrutinee arms span) (pure (env, level)) scrutinee
  | guard {scrutinee before p guard body armSpan later span} :
      Stage env level (.case scrutinee (before ++ ⟨p, some guard, body, armSpan⟩ :: later) span) (do
        let t ← expr env level scrutinee
        let result ← fresh level
        arms env level t result before
        let bound ← checkPattern env level p t
        return (env.extendMono bound, level)) guard
  | arm {scrutinee before p guard body armSpan later span} :
      Stage env level (.case scrutinee (before ++ ⟨p, guard, body, armSpan⟩ :: later) span) (do
        let t ← expr env level scrutinee
        let result ← fresh level
        arms env level t result before
        let bound ← checkPattern env level p t
        guardOf (env.extendMono bound) level guard
        return (env.extendMono bound, level)) body
  | record {before entry later span} : Stage env level (.record (before ++ entry :: later) span) (do
      let _ ← entries env level before []
      return (env, level)) entry.value
  | base {base inits span} : Stage env level (.update base inits span) (pure (env, level)) base
  | update {base before init later span} :
      Stage env level (.update base (before ++ init :: later) span) (do
        let t ← expr env level base
        let applied ← resolved t
        let declared ← updatable env level base (before ++ init :: later) applied
        updates env level applied declared before
        if (Assoc.get? declared init.name).isNone then
          fail (.fieldNotFound init.name applied) init.span
        else return (env, level)) init.value
  | object {object name span} :
      Stage env level (.field object name span) (pure (env, level)) object
  | makeRef {value span} : Stage env level (.makeRef value span) (pure (env, level)) value
  | deref {reference span} : Stage env level (.deref reference span) (pure (env, level)) reference
  | target {target value span} :
      Stage env level (.assign target value span) (pure (env, level)) target
  | assigned {target value span} : Stage env level (.assign target value span) (do
      let t ← expr env level target
      let content ← fresh level
      unifyAt env target.span (.ref content) t
      return (env, level)) value
  | left {op left right span} :
      Stage env level (.binary op left right span) (pure (env, level)) left
  | right {op left right span} : Stage env level (.binary op left right span) (do
      let _ ← expr env level left
      return (env, level)) right
  | operand {op operand span} :
      Stage env level (.unary op operand span) (pure (env, level)) operand
  | annotated {inner written span} :
      Stage env level (.annotated inner written span) (pure (env, level)) inner

theorem exists_stage (env : Env) (level : Nat) {e part : Expr} (h : part ∈ e.parts) :
    ∃ prep, Stage env level e prep part := by
  cases e with
  | literal value span | var name => simp [Expr.parts] at h
  | lambda params body span =>
    obtain rfl := List.mem_singleton.1 h
    exact ⟨_, .lambda⟩
  | apply function args span =>
    rcases List.mem_cons.1 h with rfl | h
    · exact ⟨_, .function⟩
    · obtain ⟨before, later, rfl⟩ := List.append_of_mem h
      exact ⟨_, .argument⟩
  | letIn name written value recursive body span =>
    rcases List.mem_pair.1 h with rfl | rfl
    · exact ⟨_, .letValue⟩
    · exact ⟨_, .letBody⟩
  | letGroup bindings body span =>
    rcases List.mem_append.1 h with h | h
    · obtain ⟨binding, hb, rfl⟩ := List.mem_map.1 h
      obtain ⟨before, later, rfl⟩ := List.append_of_mem hb
      exact ⟨_, .groupValue⟩
    · obtain rfl := List.mem_singleton.1 h
      exact ⟨_, .groupBody⟩
  | cond condition thenBranch elseBranch span =>
    rcases List.mem_cons.1 h with rfl | h
    · exact ⟨_, .condition⟩
    · rcases List.mem_pair.1 h with rfl | rfl
      · exact ⟨_, .thenBranch⟩
      · exact ⟨_, .elseBranch⟩
  | block parts span =>
    obtain ⟨before, later, rfl⟩ := List.append_of_mem h
    exact ⟨_, .block⟩
  | case scrutinee arms span =>
    rcases List.mem_cons.1 h with rfl | h
    · exact ⟨_, .scrutinee⟩
    · obtain ⟨⟨p, guard, body, armSpan⟩, harm, inside⟩ := List.mem_flatMap.1 h
      obtain ⟨before, later, rfl⟩ := List.append_of_mem harm
      rcases List.mem_append.1 inside with inside | inside
      · obtain rfl : guard = some part := by simpa using inside
        exact ⟨_, .guard⟩
      · obtain rfl := List.mem_singleton.1 inside
        exact ⟨_, .arm⟩
  | record entries span =>
    obtain ⟨entry, hentry, rfl⟩ := List.mem_map.1 h
    obtain ⟨before, later, rfl⟩ := List.append_of_mem hentry
    exact ⟨_, .record⟩
  | update base inits span =>
    rcases List.mem_cons.1 h with rfl | h
    · exact ⟨_, .base⟩
    · obtain ⟨init, hinit, rfl⟩ := List.mem_map.1 h
      obtain ⟨before, later, rfl⟩ := List.append_of_mem hinit
      exact ⟨_, .update⟩
  | field object name span =>
    obtain rfl := List.mem_singleton.1 h
    exact ⟨_, .object⟩
  | tuple parts span =>
    obtain ⟨before, later, rfl⟩ := List.append_of_mem h
    exact ⟨_, .tuple⟩
  | list parts span =>
    obtain ⟨before, later, rfl⟩ := List.append_of_mem h
    exact ⟨_, .list⟩
  | makeRef value span =>
    obtain rfl := List.mem_singleton.1 h
    exact ⟨_, .makeRef⟩
  | deref reference span =>
    obtain rfl := List.mem_singleton.1 h
    exact ⟨_, .deref⟩
  | assign target value span =>
    rcases List.mem_pair.1 h with rfl | rfl
    · exact ⟨_, .target⟩
    · exact ⟨_, .assigned⟩
  | binary op left right span =>
    rcases List.mem_pair.1 h with rfl | rfl
    · exact ⟨_, .left⟩
    · exact ⟨_, .right⟩
  | unary op operand span =>
    obtain rfl := List.mem_singleton.1 h
    exact ⟨_, .operand⟩
  | annotated inner written span =>
    obtain rfl := List.mem_singleton.1 h
    exact ⟨_, .annotated⟩

theorem Stage.mem_parts {env : Env} {level : Nat} {e part : Expr} {prep : Infer (Env × Nat)}
    (h : Stage env level e prep part) : part ∈ e.parts := by
  cases h <;> simp [Expr.parts]

end Infer

/-! ## Visits -/

/-- Inference of an expression, and what it starts from. -/
structure Visit where
  env : Env
  level : Nat
  expr : Expr
  start : Progress

namespace Visit

open Infer

/-- How the visit ends. -/
def run (v : Visit) : EStateM.Result TypeError Progress Ty :=
  Infer.expr v.env v.level v.expr v.start

/-- The first visit goes on to the second one: what comes before a part has succeeded. -/
def Part (v w : Visit) : Prop :=
  ∃ prep, Stage v.env v.level v.expr prep w.expr ∧ prep v.start = .ok (w.env, w.level) w.start

/-- The second visit is the first one, or one that it leads to. -/
abbrev Visits : Visit → Visit → Prop := ReflTransGen Part

theorem Visits.contains {v w : Visit} (h : v.Visits w) : v.expr.Contains w.expr := by
  induction h with
  | refl => exact .refl
  | tail _ part ih =>
    obtain ⟨prep, stage, -⟩ := part
    exact ih.tail stage.mem_parts

/-- What one of the visits goes on to is one of them as well. -/
def Closed (V : Visit → Prop) : Prop := ∀ v w, V v → v.Part w → V w

theorem Closed.enter {V : Visit → Prop} (closed : Closed V) {env scope : Env} {level inner : Nat}
    {e part : Expr} {prep : Infer (Env × Nat)} {p q : Progress} (h : V ⟨env, level, e, p⟩)
    (stage : Stage env level e prep part) (run : prep p = .ok (scope, inner) q) :
    V ⟨scope, inner, part, q⟩ :=
  closed _ _ h ⟨prep, stage, run⟩

/-- The visit is not one of those in which inference is more lenient than the typing rules: what is
compared has no function inside once types take the place of variables, and a recursive value that
counts as a value applies none of the names that are bound with it. -/
structure Fair (θ : Nat → Ty) (v : Visit) : Prop where
  compared : ∀ {op left right span t q}, op ∈ [.eq, .notEq] → v.expr = .binary op left right span →
    Infer.expr v.env v.level left v.start = .ok t q → (t.subst θ).hasFunction = false
  recursive : ∀ {name written value body span}, v.expr = .letIn name written value true body span →
    value.isValue v.env = true → ¬value.Applies name.name
  group : ∀ {bindings body span}, v.expr = .letGroup bindings body span →
    (∀ b ∈ bindings, b.value.isValue v.env = true) →
    ∀ b ∈ bindings, ∀ other ∈ bindings, ¬b.value.Applies other.name.name

end Visit

end Polytype
