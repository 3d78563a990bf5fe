import Polytype.Inference.Basic

namespace Polytype

abbrev PatternBindings := Assoc String (Ty × Span)

namespace Infer

def bindName (name : String) (t : Ty) (span : Span) (bound : PatternBindings) :
    Infer PatternBindings :=
  match bound.get? name with
  | some (_, previous) => fail (.duplicateBinding name) span none [previous]
  | none => return bound.insert name (t, span)

def bindNames : PatternBindings → PatternBindings → Infer PatternBindings
  | [], bound => return bound
  | (name, t, span) :: rest, bound => do
    bindNames rest (← bindName name t span bound)

def unifyBindings (env : Env) (first : PatternBindings) : PatternBindings → Infer Unit
  | [] => return ()
  | (name, t, span) :: rest => do
    match first.get? name with
    | some (expected, _) => unifyAt env span expected t
    | none => pure ()
    unifyBindings env first rest

def freshFields (level : Nat) : List FieldPattern → Infer (List (String × Ty))
  | [] => return []
  | field :: rest => do
    let t ← fresh level
    return (field.name, t) :: (← freshFields level rest)

def tupleArity (t : Ty) (arity : Nat) (span : Span) : Infer Unit := do
  match ← resolved t with
  | .tuple types =>
    if types.length = arity then pure () else fail (.arity .tuplePattern types.length arity) span
  | _ => pure ()

mutual

def pattern (env : Env) (level : Nat) : Pattern → Ty → PatternBindings → Infer PatternBindings
  | .wild _, _, bound => return bound
  | .var name, t, bound => bindName name.name t name.span bound
  | .literal value span, t, bound => do
    unifyAt env span t value.ty
    return bound
  | .constructor name args span, t, bound =>
    match env.constructor? name.name with
    | none => fail (.unknownConstructor name.name) name.span
    | some c =>
      if c.arity = args.length then do
        let fresh ← freshList level c.params.length
        let instantiation := Subst.ofPairs (c.params.zip fresh)
        unifyAt env span t (instantiation.apply c.result)
        patterns env level args (c.args.map instantiation.apply) bound
      else fail (.arity (.constructorArgs c.name) c.arity args.length) span
  | .record fields span, t, bound => do
    match ← resolved t with
    | .var v => openFields env level v fields bound
    | applied =>
      match env.recordFields applied with
      | some declared => declaredFields env level applied declared fields bound
      | none =>
        let shape ← freshFields level fields
        fail (.mismatch (.record (Assoc.ofList shape)) applied) span
  | .tuple elements span, t, bound => do
    tupleArity t elements.length span
    let types ← freshList level elements.length
    unifyAt env span t (.tuple types)
    patterns env level elements types bound
  | .list elements none span, t, bound => do
    let element ← fresh level
    unifyAt env span t (.list element)
    patterns env level elements (List.replicate elements.length element) bound
  | .list elements (some rest) span, t, bound => do
    let element ← fresh level
    unifyAt env span t (.list element)
    let bound ← patterns env level elements (List.replicate elements.length element) bound
    pattern env level rest (.list element) bound
  | .either [] span, _, _ => fail (.internal .emptyChoice) span
  | .either (first :: rest) _, t, bound => do
    let names ← pattern env level first t []
    alternatives env level first.span names rest t
    bindNames names bound

def patterns (env : Env) (level : Nat) :
    List Pattern → List Ty → PatternBindings → Infer PatternBindings
  | p :: ps, t :: ts, bound => do
    let bound ← pattern env level p t bound
    patterns env level ps ts bound
  | _, _, bound => return bound

def openFields (env : Env) (level : Nat) (v : TypeVar) :
    List FieldPattern → PatternBindings → Infer PatternBindings
  | [], bound => return bound
  | ⟨name, p, _⟩ :: rest, bound => do
    let t ← fieldOf v name level
    let bound ← pattern env level p t bound
    openFields env level v rest bound

def declaredFields (env : Env) (level : Nat) (record : Ty) (declared : List (String × Ty)) :
    List FieldPattern → PatternBindings → Infer PatternBindings
  | [], bound => return bound
  | ⟨name, p, span⟩ :: rest, bound =>
    match Assoc.get? declared name with
    | some t => do
      let bound ← pattern env level p t bound
      declaredFields env level record declared rest bound
    | none => do
      let t ← fresh level
      fail (.missingField name (.record [(name, t)]) record) span

def alternatives (env : Env) (level : Nat) (firstSpan : Span) (first : PatternBindings) :
    List Pattern → Ty → Infer Unit
  | [], _ => return ()
  | p :: ps, t => do
    let names ← pattern env level p t []
    if names.keys = first.keys then
      unifyBindings env first names
      alternatives env level firstSpan first ps t
    else fail (.inconsistentChoice first.keys names.keys) p.span none [firstSpan]

end

def checkPattern (env : Env) (level : Nat) (p : Pattern) (t : Ty) : Infer (List (String × Ty)) := do
  return (← pattern env level p t []).mapValues (·.1)

end Infer

end Polytype
