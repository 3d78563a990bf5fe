import Polytype.Diagnostic.TypeError
import Polytype.Env.Alias
import Polytype.Inference.Event
import Polytype.Unification.Solution

namespace Polytype

inductive Milestone where
  /-- The substitution was replaced. -/
  | solved (s : Subst)
  /-- The values of a `let` or a group were given schemes in an environment. `drawn` counts the
  variables drawn before, and `s` is the substitution found. -/
  | generalized (env : Env) (drawn : Nat) (schemes : List Scheme) (s : Subst)
deriving Inhabited

structure Progress where
  subst : Subst := {}
  /-- The next fresh variable. -/
  next : Nat := 0
  /-- The names whose declarations failed. -/
  failed : List String := []
  /-- The events so far. -/
  events : Array Event := #[]
  /-- The history so far, latest first. -/
  history : List Milestone := []
deriving Inhabited

abbrev Infer := EStateM TypeError Progress

namespace Infer

def fail {α : Type} (cause : Cause) (span : Span) (hint : Option Hint := none)
    (related : List Span := []) : Infer α :=
  throw ⟨cause, span, hint, related⟩

def log (event : Event) : Infer Unit :=
  modify fun p => { p with events := p.events.push event }

def getSubst : Infer Subst := do
  return (← get).subst

def setSubst (s : Subst) : Infer Unit :=
  modify fun p => { p with subst := s, history := .solved s :: p.history }

def drawnSoFar : Infer Nat := do
  return (← get).next

def noteSchemes (env : Env) (drawn : Nat) (schemes : List Scheme) : Infer Unit :=
  modify fun p => { p with history := .generalized env drawn schemes p.subst :: p.history }

def resolved (t : Ty) : Infer Ty := do
  return (← getSubst).apply t

def freshVar (level : Nat) : Infer TypeVar :=
  modifyGet fun p => (⟨p.next, level⟩, { p with next := p.next + 1 })

def fresh (level : Nat) : Infer Ty := do
  return .var (← freshVar level)

def freshList (level : Nat) : Nat → Infer (List Ty)
  | 0 => return []
  | count + 1 => do
    let t ← fresh level
    return t :: (← freshList level count)

def unifyAt (env : Env) (span : Span) (expected actual : Ty) : Infer Unit := do
  match unify env.expand expected actual (← getSubst) with
  | .ok s => setSubst s
  | .error clash => throw (.ofClash span clash)

def fieldOf (v : TypeVar) (field : String) (level : Nat) : Infer Ty := do
  match (← getSubst).knownField v field with
  | some t => return t
  | none =>
    let t ← fresh level
    setSubst ((← getSubst).requireField v field t)
    return t

def instantiate (σ : Scheme) (level : Nat) : Infer Ty := do
  let fresh ← freshList level σ.vars.length
  let t := (Subst.ofPairs (σ.vars.zip fresh)).apply σ.ty
  log (.instantiated σ t)
  return t

end Infer

end Polytype
