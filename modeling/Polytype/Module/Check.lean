import Polytype.Env.Prelude
import Polytype.Inference.Declaration

/-!
# Checking modules

The declarations of a module are checked in order. One that fails takes the names it would bind
out of scope, so that what depends on it fails with a cause of its own, and checking goes on. In
the end every declared value must have a type without undetermined variables.
-/

namespace Polytype

structure CheckOptions where
  stopOnFirstError : Bool := false
  requireGroundTypes : Bool := true
deriving Inhabited

/-- A module that has been checked: what is in scope after it, and the types of its values. -/
structure TypedModule where
  program : Module
  env : Env
  types : Assoc String Ty
deriving Inhabited

def TypedModule.schemeOf (m : TypedModule) (name : String) : Option Scheme :=
  (m.env.lookup name).map Binding.scheme

structure Checker where
  progress : Progress
  scope : Scope
  /-- The errors so far, in order. -/
  errors : List TypeError := []
deriving Inhabited

namespace Checker

def start : Checker where
  progress := { next := Prelude.size }
  scope := { env := Prelude.env }

def recover (c : Checker) (moduleName : String) (d : Declaration) (e : TypeError)
    (p : Progress) : Checker :=
  let names := d.boundValues
  { progress :=
      { p with
        subst := c.progress.subst
        failed := names ++ p.failed
        events := p.events.push (.declarationFailed names moduleName e.message) }
    scope :=
      { env := c.scope.env.without names
        declared := c.scope.declared.filter fun declared => !names.contains declared.name }
    errors := c.errors ++ [e] }

def run (options : CheckOptions) (moduleName : String) (c : Checker) :
    List Declaration → Checker
  | [] => c
  | d :: rest =>
    match Infer.declaration c.scope d c.progress with
    | .ok scope progress => run options moduleName { c with progress, scope } rest
    | .error e p =>
      let recovered := c.recover moduleName d e p
      if options.stopOnFirstError then recovered else run options moduleName recovered rest

def finalTypes (options : CheckOptions) (s : Subst) :
    List Declared → Assoc String Ty × List TypeError
  | [] => ([], [])
  | d :: rest =>
    let σ := s.applyScheme d.scheme
    let (types, errors) := finalTypes options s rest
    if options.requireGroundTypes && !σ.freeVars.isEmpty then
      (types, ⟨.unresolved d.name σ.ty, d.span, some .annotate, []⟩ :: errors)
    else (types.insert d.name σ.ty, errors)

def finish (options : CheckOptions) (m : Module) (c : Checker) :
    Except (List TypeError) TypedModule :=
  if options.stopOnFirstError && !c.errors.isEmpty then .error c.errors
  else
    let s := c.progress.subst
    let (types, unresolved) := finalTypes options s c.scope.declared
    let errors := c.errors ++ unresolved
    if errors.isEmpty then .ok ⟨m, c.scope.env.applySubst s, types⟩ else .error errors

end Checker

def checkModule (options : CheckOptions) (m : Module) :
    Except (List TypeError) TypedModule × Array Event :=
  let c := Checker.run options m.name .start m.declarations
  (c.finish options m, c.progress.events)

end Polytype
