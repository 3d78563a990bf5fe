import Polytype.Inference.Basic

namespace Polytype

/-- The next fresh variable, and what the names of type variables stand for. -/
structure NameScope where
  next : Nat
  names : Assoc String Ty := []
deriving Inhabited

abbrev Resolve := EStateM TypeError NameScope

namespace Resolve

def fresh (level : Nat) : Resolve Ty :=
  modifyGet fun scope => (.var ⟨scope.next, level⟩, { scope with next := scope.next + 1 })

/-- What the name of a type variable stands for. A new name gets a fresh variable at the given
level; without a level there are no new names. -/
def typeVar (level : Option Nat) (name : String) (span : Span) : Resolve Ty := do
  match (← get).names.get? name, level with
  | some t, _ => return t
  | none, some level =>
    let t ← fresh level
    modify fun scope => { scope with names := scope.names.insert name t }
    return t
  | none, none => throw ⟨.unknownType ("'" ++ name), span, some (.declareParameter name), []⟩

mutual

def type (env : Env) (level : Option Nat) : TypeExpr → Resolve Ty
  | .named name args span =>
    match env.definition? name with
    | none => throw ⟨.unknownType name, span, none, []⟩
    | some d =>
      if d.params.length = args.length then do
        return .named name (← types env level args)
      else throw ⟨.arity (.typeArgs name) d.params.length args.length, span, none, []⟩
  | .var name span => typeVar level name span
  | .func params result _ => do
    let params ← types env level params
    return .func params (← type env level result)
  | .record written _ => do
    return .record (Assoc.ofList (← fields env level written))
  | .tuple elements _ => do
    return .tuple (← types env level elements)

def types (env : Env) (level : Option Nat) : List TypeExpr → Resolve (List Ty)
  | [] => return []
  | t :: ts => do
    let t ← type env level t
    return t :: (← types env level ts)

def fields (env : Env) (level : Option Nat) :
    List (String × TypeExpr) → Resolve (List (String × Ty))
  | [] => return []
  | (name, t) :: rest => do
    let t ← type env level t
    return (name, t) :: (← fields env level rest)

end

def params (env : Env) (level : Nat) : List Param → Resolve (List Ty)
  | [] => return []
  | param :: rest => do
    let t ← match param.written with
      | some written => type env (some level) written
      | none => fresh level
    return t :: (← params env level rest)

end Resolve

namespace Infer

def resolving {α : Type} (names : Assoc String Ty) (x : Resolve α) : Infer α := fun p =>
  match x ⟨p.next, names⟩ with
  | .ok a scope => .ok a { p with next := scope.next }
  | .error e scope => .error e { p with next := scope.next }

def writtenType (env : Env) (level : Nat) (written : TypeExpr) : Infer Ty :=
  resolving [] (Resolve.type env (some level) written)

def writtenTypeOrFresh (env : Env) (level : Nat) : Option TypeExpr → Infer Ty
  | some written => writtenType env level written
  | none => fresh level

end Infer

end Polytype
