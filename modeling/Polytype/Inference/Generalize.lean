import Polytype.Inference.Basic

namespace Polytype

mutual

def Expr.isValue (env : Env) : Expr → Bool
  | .literal _ _ => true
  | .var _ => true
  | .lambda _ _ _ => true
  | .apply (.var name) args _ =>
    match env.constructor? name.name with
    | some c => c.arity == args.length && allValues env args
    | none => false
  | .tuple elements _ => allValues env elements
  | .list elements _ => allValues env elements
  | .record entries _ => entryValues env entries
  | .annotated expr _ _ => expr.isValue env
  | _ => false

def allValues (env : Env) : List Expr → Bool
  | [] => true
  | e :: es => e.isValue env && allValues env es

def entryValues (env : Env) : List Entry → Bool
  | [] => true
  | .field ⟨_, value, _⟩ :: rest => value.isValue env && entryValues env rest
  | .spread base :: rest => base.isValue env && entryValues env rest

end

def generalize (env : Env) (level : Nat) (t : Ty) (s : Subst) : Scheme :=
  let t := s.apply t
  let inUse := env.freeVars s
  ⟨t.freeVars.filter fun v => level < v.level && !inUse.any (·.id == v.id), t⟩

namespace Infer

def generalizeUnder (env : Env) (level : Nat) (t : Ty) (s : Subst) : Infer Scheme := do
  let σ := generalize env level t s
  log (.generalized level σ)
  return σ

def schemeOf (env : Env) (level : Nat) (t : Ty) (generalizable : Bool) : Infer Scheme := do
  let s ← getSubst
  if generalizable then generalizeUnder env level t s else return .mono (s.apply t)

def closeRecords (level : Nat) (t : Ty) (span : Span) : Infer Unit := do
  let (closed, result) := (← getSubst).closeRecords t level
  for closing in closed do
    log (.closed closing)
  match result with
  | .ok s => setSubst s
  | .error clash => throw (.ofClash span clash)

def lower (level : Nat) (t : Ty) : Infer Unit := do
  setSubst ((← getSubst).lower t level)

end Infer

end Polytype
