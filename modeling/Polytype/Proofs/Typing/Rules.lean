import Polytype.Inference.Generalize
import Polytype.Proofs.Coverage.Covers
import Polytype.Proofs.Env.Free

/-!
# The typing rules

When an expression without records has a type in an environment, said without unification: types
are guessed where inference would draw a variable. A variable has every instance of its scheme, a
call gives a function some or all of its arguments, and a `let` may quantify variables that are not
free in the environment if its value is a value as it stands. Inside the values of a recursive
`let` or a group, the names being defined have one type each.

Levels play no part here; the types of the rules are erased ones.
-/

namespace Polytype

open Ty

def Scheme.Instance (σ : Scheme) (τ : Ty) : Prop :=
  ∃ η : Nat → Ty, (∀ id, σ.binds id = false → η id = ofId id) ∧ τ = σ.ty.subst η

def Constructor.Instance (c : Constructor) (args : List Ty) (result : Ty) : Prop :=
  ∃ η : Nat → Ty, (∀ id, (∀ p ∈ c.params, p.id ≠ id) → η id = ofId id) ∧
    args = c.args.map (subst η) ∧ result = c.result.subst η

mutual

/-- A written type stands for a type, given what the names of type variables stand for. -/
inductive TypeExpr.Denotes (env : Env) (names : String → Ty) : TypeExpr → Ty → Prop
  | named {name args span types d} : env.definition? name = some d →
      d.params.length = args.length → DenotesAll env names args types →
      Denotes env names (.named name args span) (.named name types)
  | var {name span} : Denotes env names (.var name span) (names name)
  | func {params result span types type} : DenotesAll env names params types →
      Denotes env names result type → Denotes env names (.func params result span) (.func types type)
  | tuple {elements span types} : DenotesAll env names elements types →
      Denotes env names (.tuple elements span) (.tuple types)

inductive TypeExpr.DenotesAll (env : Env) (names : String → Ty) : List TypeExpr → List Ty → Prop
  | nil : DenotesAll env names [] []
  | cons {written type rest types} : Denotes env names written type →
      DenotesAll env names rest types → DenotesAll env names (written :: rest) (type :: types)

end

def Annotated (env : Env) (written : Option TypeExpr) (τ : Ty) : Prop :=
  ∀ t, written = some t → ∃ names, t.Denotes env names τ

/-- The types fit the annotations of parameters, which share their type variables. -/
inductive ParamsTyped (env : Env) (names : String → Ty) : List Param → List Ty → Prop
  | nil : ParamsTyped env names [] []
  | cons {param τ params types} : (∀ t, param.written = some t → t.Denotes env names τ) →
      ParamsTyped env names params types → ParamsTyped env names (param :: params) (τ :: types)

mutual

/-- A pattern matches values of a type, and adds the names it binds to those bound before. -/
inductive Matches (env : Env) : Pattern → Ty → List (String × Ty) → List (String × Ty) → Prop
  | wild {span τ bound} : Matches env (.wild span) τ bound bound
  | var {name : Ident} {τ bound} : Assoc.get? bound name.name = none →
      Matches env (.var name) τ bound (Assoc.insert bound name.name τ)
  | literal {value span bound} : Matches env (.literal value span) value.ty bound bound
  | constructor {name : Ident} {args span c types τ bound bound'} :
      env.constructor? name.name = some c → c.Instance types τ →
      MatchesAll env args types bound bound' →
      Matches env (.constructor name args span) τ bound bound'
  | tuple {elements span types bound bound'} : MatchesAll env elements types bound bound' →
      Matches env (.tuple elements span) (.tuple types) bound bound'
  | list {elements span τ bound bound'} :
      MatchesAll env elements (List.replicate elements.length τ) bound bound' →
      Matches env (.list elements none span) (.list τ) bound bound'
  | listRest {elements rest span τ bound bound' bound''} :
      MatchesAll env elements (List.replicate elements.length τ) bound bound' →
      Matches env rest (.list τ) bound' bound'' →
      Matches env (.list elements (some rest) span) (.list τ) bound bound''
  | either {first rest span τ names bound} : (∀ p ∈ first :: rest, Matches env p τ [] names) →
      (∀ name ∈ Assoc.keys names, Assoc.get? bound name = none) →
      Matches env (.either (first :: rest) span) τ bound (Assoc.insertAll bound names)

inductive MatchesAll (env : Env) :
    List Pattern → List Ty → List (String × Ty) → List (String × Ty) → Prop
  | nil {bound} : MatchesAll env [] [] bound bound
  | cons {p ps τ types bound bound' bound''} : Matches env p τ bound bound' →
      MatchesAll env ps types bound' bound'' → MatchesAll env (p :: ps) (τ :: types) bound bound''

end

/-- The types of the operands and the result of a binary operator. What is compared for equality has
one type, without a function anywhere inside. -/
inductive BinaryTyped : BinaryOp → Ty → Ty → Ty → Prop
  | arithmetic {op τ} : op ∈ [.add, .sub, .mul, .div, .mod] → τ ∈ [Ty.int, Ty.float] →
      BinaryTyped op τ τ τ
  | comparison {op τ} : op ∈ [.lt, .ltEq, .gt, .gtEq] → τ ∈ [Ty.int, Ty.float, Ty.string] →
      BinaryTyped op τ τ .bool
  | equality {op τ} : op ∈ [.eq, .notEq] → τ.hasFunction = false → BinaryTyped op τ τ .bool
  | logic {op} : op ∈ [.and, .or] → BinaryTyped op .bool .bool .bool
  | concat : BinaryTyped .concat .string .string .string
  | cons {τ} : BinaryTyped .cons τ (.list τ) (.list τ)

inductive UnaryTyped : UnaryOp → Ty → Ty → Prop
  | neg {τ} : τ ∈ [Ty.int, Ty.float] → UnaryTyped .neg τ τ
  | not : UnaryTyped .not .bool .bool

/-- The scheme may be given to values of a type: it quantifies no variable that is free in the
environment, and none at all unless the values may be generalized. -/
structure Generalizes (env : Env) (generalizable : Bool) (τ : Ty) (σ : Scheme) : Prop where
  ty : σ.ty = τ
  free : ∀ v ∈ σ.vars, ∀ entry ∈ env.values, ¬entry.2.scheme.Free v.id
  value : generalizable = false → σ.vars = []

theorem Generalizes.mono {env : Env} {g g' : Bool} {τ : Ty} {σ : Scheme}
    (h : Generalizes env g τ σ) (himp : g = true → g' = true) : Generalizes env g' τ σ where
  ty := h.ty
  free := h.free
  value hg' := by
    refine h.value (Bool.eq_false_iff.2 fun hg => ?_)
    rw [himp hg] at hg'
    simp at hg'

def Exhaustive (env : Env) (τ : Ty) (arms : List Arm) : Prop :=
  Coverage.Covers env ((arms.filter (·.guard.isNone)).map fun arm => [Pat.lower arm.pattern]) [τ]

mutual

/-- An expression has a type in an environment. -/
inductive HasType : Env → Expr → Ty → Prop
  | literal {env value span} : HasType env (.literal value span) value.ty
  | var {env : Env} {name : Ident} {binding τ} : env.lookup name.name = some binding →
      binding.scheme.Instance τ → HasType env (.var name) τ
  | lambda {env : Env} {names params body span types result} :
      ParamsTyped env names params types →
      HasType (env.extendMono ((params.map (·.name.name)).zip types)) body result →
      HasType env (.lambda params body span) (.func types result)
  | apply {env function args span given remaining result} :
      HasType env function (.func (given ++ remaining) result) → HasTypes env args given →
      (args = [] → remaining = []) →
      HasType env (.apply function args span)
        (if remaining.isEmpty then result else .func remaining result)
  | letIn {env : Env} {name : Ident} {written value body span τ σ ρ} :
      Annotated env written τ → HasType env value τ →
      Generalizes env (value.isValue env) τ σ → HasType (env.extendValue name.name σ) body ρ →
      HasType env (.letIn name written value false body span) ρ
  | letRec {env : Env} {name : Ident} {written value body span τ σ ρ} :
      Annotated env written τ → HasType (env.extendValue name.name (.mono τ)) value τ →
      Generalizes env (value.isValue (env.extendValue name.name (.mono τ))) τ σ →
      HasType (env.extendValue name.name σ) body ρ →
      HasType env (.letIn name written value true body span) ρ
  | letGroup {env : Env} {bindings : List GroupBinding} {body span types schemes ρ} :
      List.Forall₂ (fun b τ => Annotated env b.written τ) bindings types →
      HasTypes (env.extendMono ((bindings.map (·.name.name)).zip types))
        (bindings.map (·.value)) types →
      List.Forall₂ (Generalizes env (bindings.all fun b =>
        b.value.isValue (env.extendMono ((bindings.map (·.name.name)).zip types)))) types schemes →
      HasType (env.extendAll ((bindings.map (·.name.name)).zip (schemes.map .value))) body ρ →
      HasType env (.letGroup bindings body span) ρ
  | cond {env condition thenBranch elseBranch span τ} : HasType env condition .bool →
      HasType env thenBranch τ → HasType env elseBranch τ →
      HasType env (.cond condition thenBranch elseBranch span) τ
  | block {env parts span types} : HasTypes env parts types →
      HasType env (.block parts span) (types.getLastD .unit)
  | case {env scrutinee arms span τ ρ} : HasType env scrutinee τ → ArmsTyped env τ ρ arms →
      Exhaustive env τ arms → HasType env (.case scrutinee arms span) ρ
  | tuple {env elements span types} : HasTypes env elements types →
      HasType env (.tuple elements span) (.tuple types)
  | list {env elements span τ} : HasTypes env elements (List.replicate elements.length τ) →
      HasType env (.list elements span) (.list τ)
  | makeRef {env value span τ} : HasType env value τ → HasType env (.makeRef value span) (.ref τ)
  | deref {env reference span τ} : HasType env reference (.ref τ) →
      HasType env (.deref reference span) τ
  | assign {env target value span τ} : HasType env target (.ref τ) → HasType env value τ →
      HasType env (.assign target value span) .unit
  | binary {env op left right span τ τ' ρ} : HasType env left τ → HasType env right τ' →
      BinaryTyped op τ τ' ρ → HasType env (.binary op left right span) ρ
  | unary {env op operand span τ ρ} : HasType env operand τ → UnaryTyped op τ ρ →
      HasType env (.unary op operand span) ρ
  | annotated {env expr written span names τ} : HasType env expr τ →
      TypeExpr.Denotes env names written τ → HasType env (.annotated expr written span) τ

inductive HasTypes : Env → List Expr → List Ty → Prop
  | nil {env} : HasTypes env [] []
  | cons {env e es τ types} : HasType env e τ → HasTypes env es types →
      HasTypes env (e :: es) (τ :: types)

inductive ArmsTyped : Env → Ty → Ty → List Arm → Prop
  | nil {env τ ρ} : ArmsTyped env τ ρ []
  | cons {env : Env} {τ ρ p guard body span rest names} : Matches env p τ [] names →
      (∀ e, guard = some e → HasType (env.extendMono names) e .bool) →
      HasType (env.extendMono names) body ρ → ArmsTyped env τ ρ rest →
      ArmsTyped env τ ρ (⟨p, guard, body, span⟩ :: rest)

end

end Polytype
