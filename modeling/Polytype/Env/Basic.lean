import Polytype.Env.Definition

namespace Polytype

inductive Binding where
  | value (scheme : Scheme)
  | constructor (c : Constructor)
  /-- A value that the runtime provides under a name of its own. -/
  | foreign (scheme : Scheme) (foreignName : String)
deriving Inhabited

namespace Binding

def scheme : Binding → Scheme
  | value σ => σ
  | constructor c => c.scheme
  | foreign σ _ => σ

def mapScheme (f : Scheme → Scheme) : Binding → Binding
  | value σ => value (f σ)
  | constructor c => constructor c
  | foreign σ name => foreign (f σ) name

def same : Binding → Binding → Bool
  | value σ, value τ => σ.same τ
  | constructor c, constructor d => c.same d
  | foreign σ name, foreign τ name' => σ.same τ && name == name'
  | _, _ => false

end Binding

structure Env where
  values : Assoc String Binding := []
  types : Assoc String Definition := []
deriving Inhabited

namespace Env

def empty : Env := {}

def lookup (env : Env) (name : String) : Option Binding := env.values.get? name

def definition? (env : Env) (name : String) : Option Definition := env.types.get? name

def constructor? (env : Env) (name : String) : Option Constructor :=
  match env.lookup name with
  | some (.constructor c) => some c
  | _ => none

def extend (env : Env) (name : String) (binding : Binding) : Env :=
  { env with values := env.values.insert name binding }

def extendValue (env : Env) (name : String) (σ : Scheme) : Env :=
  env.extend name (.value σ)

def extendAll (env : Env) (bindings : List (String × Binding)) : Env :=
  { env with values := env.values.insertAll bindings }

def extendMono (env : Env) (types : List (String × Ty)) : Env :=
  env.extendAll (Assoc.mapValues (fun t => .value (.mono t)) types)

def define (env : Env) (d : Definition) : Env where
  values := env.values.insertAll (d.constructors.map fun c => (c.name, .constructor c))
  types := env.types.insert d.name d

def without (env : Env) (names : List String) : Env :=
  { env with values := env.values.filterKeys fun name => !names.contains name }

def freeVars (env : Env) (s : Subst) : List TypeVar :=
  TypeVar.setOf (env.values.flatMap fun entry =>
    match entry.2 with
    | .value σ => (s.applyScheme σ).freeVars
    | .foreign σ _ => (s.applyScheme σ).freeVars
    | .constructor _ => [])

def applySubst (env : Env) (s : Subst) : Env :=
  { env with values := env.values.mapValues (Binding.mapScheme s.applyScheme) }

def same (env other : Env) : Bool :=
  env.values.sameBy Binding.same other.values && env.types.sameBy Definition.same other.types

end Env

end Polytype
