import Polytype.Proofs.Inference.Values
import Polytype.Proofs.Typing.Rules

namespace Polytype

open Ty

mutual

/-- An expression of the core has a type in an environment. -/
inductive CoreTyped : Env → Expr → Ty → Prop
  | literal {env value span} : CoreTyped env (.literal value span) value.ty
  | var {env : Env} {name : Ident} {binding τ} : env.lookup name.name = some binding →
      binding.scheme.Instance τ → CoreTyped env (.var name) τ
  | lambda {env : Env} {params : List Param} {body span types result} :
      (∀ param ∈ params, param.written = none) → params.length = types.length →
      CoreTyped (env.extendMono ((params.map (·.name.name)).zip types)) body result →
      CoreTyped env (.lambda params body span) (.func types result)
  | apply {env function args span types result} :
      CoreTyped env function (.func types result) → CoreTypedAll env args types →
      CoreTyped env (.apply function args span) result
  | letIn {env : Env} {name : Ident} {value body span τ σ ρ} : CoreTyped env value τ →
      Generalizes env (value.isValue env) τ σ → CoreTyped (env.extendValue name.name σ) body ρ →
      CoreTyped env (.letIn name none value false body span) ρ
  | letRec {env : Env} {name : Ident} {value body span τ σ ρ} :
      CoreTyped (env.extendValue name.name (.mono τ)) value τ →
      Generalizes env (value.isValue env) τ σ → CoreTyped (env.extendValue name.name σ) body ρ →
      CoreTyped env (.letIn name none value true body span) ρ
  | cond {env condition thenBranch elseBranch span τ} : CoreTyped env condition .bool →
      CoreTyped env thenBranch τ → CoreTyped env elseBranch τ →
      CoreTyped env (.cond condition thenBranch elseBranch span) τ
  | tuple {env elements span types} : CoreTypedAll env elements types →
      CoreTyped env (.tuple elements span) (.tuple types)
  | list {env elements span τ} : CoreTypedAll env elements (List.replicate elements.length τ) →
      CoreTyped env (.list elements span) (.list τ)
  | makeRef {env value span τ} : CoreTyped env value τ →
      CoreTyped env (.makeRef value span) (.ref τ)
  | deref {env reference span τ} : CoreTyped env reference (.ref τ) →
      CoreTyped env (.deref reference span) τ
  | assign {env target value span τ} : CoreTyped env target (.ref τ) → CoreTyped env value τ →
      CoreTyped env (.assign target value span) .unit

inductive CoreTypedAll : Env → List Expr → List Ty → Prop
  | nil {env} : CoreTypedAll env [] []
  | cons {env e es τ types} : CoreTyped env e τ → CoreTypedAll env es types →
      CoreTypedAll env (e :: es) (τ :: types)

end

theorem paramsTyped_of_unwritten {env : Env} {names : String → Ty} {params : List Param}
    {types : List Ty} (h : ∀ param ∈ params, param.written = none)
    (hlength : params.length = types.length) : ParamsTyped env names params types := by
  induction params generalizing types with
  | nil =>
    obtain rfl := List.eq_nil_of_length_eq_zero hlength.symm
    exact .nil
  | cons param params ih =>
    cases types with
    | nil => simp at hlength
    | cons τ types =>
      obtain ⟨first, others⟩ := List.forall_mem_cons.1 h
      exact .cons (by simp [first]) (ih others (by simpa using hlength))

def Env.Bare (env : Env) : Prop := ∀ name, env.constructor? name = none

theorem Env.Bare.extendValue {env : Env} (bare : env.Bare) (name : String) (σ : Scheme) :
    (env.extendValue name σ).Bare := by
  intro other
  simp [constructor?_extendValue, bare other]

theorem Env.Bare.extendMono {env : Env} (bare : env.Bare) (types : List (String × Ty)) :
    (env.extendMono types).Bare := by
  intro other
  simp [constructor?_extendMono, bare other]

mutual

theorem CoreTyped.hasType {env : Env} (bare : env.Bare) {e : Expr} {τ : Ty} :
    CoreTyped env e τ → HasType env e τ
  | .literal => .literal
  | .var hlookup hinstance => .var hlookup hinstance
  | .lambda unwritten hlength hbody =>
    have params : ParamsTyped env (fun _ => .unit) _ _ := paramsTyped_of_unwritten unwritten hlength
    .lambda params (hbody.hasType (bare.extendMono _))
  | @CoreTyped.apply _ _ _ _ types _ hfunction hargs => by
    have function := hfunction.hasType bare
    rw [← List.append_nil types] at function
    exact .apply function (hargs.hasTypes bare) fun _ => rfl
  | .letIn hvalue generalizes hbody =>
    .letIn (by simp [Annotated]) (hvalue.hasType bare) generalizes
      (hbody.hasType (bare.extendValue _ _))
  | @CoreTyped.letRec _ name value _ _ τ _ _ hvalue generalizes hbody => by
    have same : value.isValue (env.extendValue name.name (.mono τ)) = value.isValue env :=
      Expr.isValue_congr (fun other => by rw [bare other, bare.extendValue name.name _ other]) value
    rw [← same] at generalizes
    exact .letRec (by simp [Annotated]) (hvalue.hasType (bare.extendValue _ _)) generalizes
      (hbody.hasType (bare.extendValue _ _))
  | .cond hcondition hthen helse =>
    .cond (hcondition.hasType bare) (hthen.hasType bare) (helse.hasType bare)
  | .tuple helements => .tuple (helements.hasTypes bare)
  | .list helements => .list (helements.hasTypes bare)
  | .makeRef hvalue => .makeRef (hvalue.hasType bare)
  | .deref hreference => .deref (hreference.hasType bare)
  | .assign htarget hvalue => .assign (htarget.hasType bare) (hvalue.hasType bare)

theorem CoreTypedAll.hasTypes {env : Env} (bare : env.Bare) {es : List Expr} {types : List Ty} :
    CoreTypedAll env es types → HasTypes env es types
  | .nil => .nil
  | .cons he hes => .cons (he.hasType bare) (hes.hasTypes bare)

end

/-! ## Environments under a replacement -/

namespace Scheme

def margin (θ : Nat → Ty) (σ : Scheme) : Nat := ((σ.ty.subst θ).vars.map (·.id)).max?.getD 0 + 1

def relabel (θ : Nat → Ty) (σ : Scheme) (id : Nat) : Ty :=
  if σ.binds id then ofId (id + σ.margin θ) else θ id

/-- The scheme with its free variables replaced. -/
def under (θ : Nat → Ty) (σ : Scheme) : Scheme where
  vars := σ.vars.map fun v => { v with id := v.id + σ.margin θ }
  ty := σ.ty.subst (σ.relabel θ)

variable {θ : Nat → Ty} {σ : Scheme}

theorem lt_margin {v : TypeVar} (hv : v ∈ σ.ty.vars) {id : Nat}
    (hid : (θ v.id).mentions id = true) : id < σ.margin θ := by
  obtain ⟨w, hw, rfl⟩ := mentions_iff.1 hid
  have mem : w ∈ (σ.ty.subst θ).vars := mem_vars_subst.2 ⟨v, hv, hw⟩
  exact Nat.lt_succ_of_le (List.le_max?_getD_of_mem (List.mem_map_of_mem mem))

theorem binds_under_of_lt {id : Nat} (h : id < σ.margin θ) : (σ.under θ).binds id = false := by
  refine Bool.eq_false_iff.2 fun hbinds => ?_
  obtain ⟨v, hv, rfl⟩ := binds_iff.1 hbinds
  obtain ⟨u, -, rfl⟩ := List.mem_map.1 hv
  exact absurd h (Nat.not_lt.2 (Nat.le_add_left _ _))

theorem exists_of_instance_under {τ : Ty} (h : (σ.under θ).Instance τ) :
    ∃ η : Nat → Ty, (∀ v ∈ σ.ty.vars, σ.binds v.id = false → η v.id = (θ v.id).erase) ∧
      τ = σ.ty.subst η := by
  obtain ⟨η, hη, rfl⟩ := h
  refine ⟨fun id => (σ.relabel θ id).subst η, fun v hv free => ?_, subst_subst _ _ _⟩
  simp only [relabel, free, Bool.false_eq_true, if_false]
  refine subst_congr fun w hw => hη w.id (binds_under_of_lt ?_)
  exact lt_margin hv (mentions_iff.2 ⟨w, hw, rfl⟩)

theorem free_under {x id : Nat} (hx : σ.Free x) (hid : (θ x).mentions id = true) :
    (σ.under θ).Free id := by
  obtain ⟨v, hv, rfl⟩ := mentions_iff.1 hx.1
  refine ⟨mentions_subst.2 ⟨v, hv, ?_⟩, binds_under_of_lt (lt_margin hv hid)⟩
  rwa [relabel, hx.2, if_neg Bool.false_ne_true]

end Scheme

/-- The constructor with its free variables replaced. -/
def Constructor.under (θ : Nat → Ty) (c : Constructor) : Constructor :=
  { c with
    params := (c.scheme.under θ).vars
    args := c.args.map (subst (c.scheme.relabel θ))
    result := c.result.subst (c.scheme.relabel θ) }

theorem Constructor.scheme_under (θ : Nat → Ty) (c : Constructor) :
    (c.under θ).scheme = c.scheme.under θ := by
  by_cases hargs : c.args = []
  · simp [scheme, under, Scheme.under, hargs]
  · simp [scheme, under, Scheme.under, hargs]

/-- The binding with its free variables replaced. -/
def Binding.under (θ : Nat → Ty) : Binding → Binding
  | value σ => value (σ.under θ)
  | constructor c => constructor (c.under θ)
  | foreign σ name => foreign (σ.under θ) name

theorem Binding.scheme_under (θ : Nat → Ty) (b : Binding) :
    (b.under θ).scheme = b.scheme.under θ := by
  cases b with
  | constructor c => exact c.scheme_under θ
  | _ => rfl

/-- The environment with its free variables replaced. -/
def Env.under (θ : Nat → Ty) (env : Env) : Env :=
  { env with values := env.values.mapValues (Binding.under θ) }

end Polytype
