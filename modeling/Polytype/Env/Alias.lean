import Polytype.Env.Basic

namespace Polytype.Env

def aliasDepth : Nat := 64

def definitionOf? (env : Env) (t : Ty) : Option Definition :=
  (t.headName?.bind env.definition?).filter fun d => t.args.length = d.params.length

def expand (env : Env) (t : Ty) : Option Ty :=
  (env.definitionOf? t).bind fun d => d.body.target?.map (d.instantiate t.args)

def unfoldWithin (env : Env) : Nat → Ty → Ty
  | 0, t => t
  | steps + 1, t =>
    match env.expand t with
    | some u => env.unfoldWithin steps u
    | none => t

def unfold (env : Env) (t : Ty) : Ty := env.unfoldWithin aliasDepth t

def recordFieldsWithin (env : Env) : Nat → Ty → Option (List (String × Ty))
  | 0, _ => none
  | _ + 1, .record fields => some fields
  | steps + 1, t => (env.expand t).bind (env.recordFieldsWithin steps)

def recordFields (env : Env) (t : Ty) : Option (List (String × Ty)) :=
  env.recordFieldsWithin aliasDepth t

/-- The constructors of a variant type, looking at the given number of types in a chain of
aliases. -/
def alternativesWithin (env : Env) : Nat → Ty → Option (List Alternative)
  | 0, _ => none
  | steps + 1, t =>
    match env.definitionOf? t with
    | none => none
    | some d =>
      match d.body with
      | .variant alternatives =>
        some (alternatives.map fun a => ⟨a.name, a.args.map (d.instantiate t.args)⟩)
      | .synonym target => env.alternativesWithin steps (d.instantiate t.args target)
      | _ => none

/-- The constructors of a type that is a variant behind a chain of aliases, with the types of
their arguments. -/
def alternatives (env : Env) (t : Ty) : Option (List Alternative) :=
  env.alternativesWithin aliasDepth t

def calleeWithin (env : Env) : Nat → Ty → Ty
  | 0, t => t
  | _ + 1, .func params result => .func params result
  | _ + 1, .var v => .var v
  | steps + 1, t =>
    match env.expand t with
    | some u => env.calleeWithin steps u
    | none => t

def callee (env : Env) (t : Ty) : Ty := env.calleeWithin aliasDepth t

end Polytype.Env
