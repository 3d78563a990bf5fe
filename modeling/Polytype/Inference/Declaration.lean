import Polytype.Inference.Expr
import Polytype.Program.Declaration

namespace Polytype

/-- A declared value: its scheme and where it is declared. -/
structure Declared where
  name : String
  scheme : Scheme
  span : Span
deriving Inhabited

/-- What is in scope, and the values that the module declares, latest last. -/
structure Scope where
  env : Env
  declared : List Declared := []
deriving Inhabited

def Scope.bind (scope : Scope) (name : String) (binding : Binding) (span : Span) : Scope where
  env := scope.env.extend name binding
  declared := (scope.declared.filter fun d => d.name ≠ name) ++ [⟨name, binding.scheme, span⟩]

namespace Infer

/-! ## Types -/

def typeParams (decl : TypeDecl) :
    List String → List (String × TypeVar) → Infer (List (String × TypeVar))
  | [], drawn => return drawn
  | param :: rest, drawn => do
    if drawn.any fun entry => entry.1 == param then
      fail (.internal (.repeatedParameter param decl.name.name)) decl.span
    else
      let v ← freshVar 0
      typeParams decl rest (drawn ++ [(param, v)])

def declareTypes (env : Env) :
    List TypeDecl → Infer (Env × List (TypeDecl × List (String × TypeVar)))
  | [] => return (env, [])
  | decl :: rest => do
    let params ← typeParams decl decl.params []
    let named := env.define ⟨decl.name.name, params.map (·.2), .abstract⟩
    let (scope, decls) ← declareTypes named rest
    return (scope, (decl, params) :: decls)

def alternativesOf (env : Env) : List (Ident × List TypeExpr) → Resolve (List Alternative)
  | [] => return []
  | (name, args) :: rest => do
    let args ← Resolve.types env none args
    return ⟨name.name, args⟩ :: (← alternativesOf env rest)

def bodyOf (env : Env) : TypeDeclBody → Resolve Body
  | .synonym target => return .synonym (← Resolve.type env none target)
  | .record written => return .record (Assoc.ofList (← Resolve.fields env none written))
  | .variant written => return .variant (← alternativesOf env written)

def defineBodies (scope : Env) :
    List (TypeDecl × List (String × TypeVar)) → Env → Infer Env
  | [], env => return env
  | (decl, params) :: rest, env => do
    let names := Assoc.ofList (params.map fun param => (param.1, Ty.var param.2))
    let body ← resolving names (bodyOf scope decl.body)
    defineBodies scope rest (env.define ⟨decl.name.name, params.map (·.2), body⟩)

def defineTypes (env : Env) (decls : List TypeDecl) : Infer Env := do
  let (scope, decls) ← declareTypes env decls
  defineBodies scope decls scope

/-! ## Signatures -/

def signature (env : Env) (written : TypeExpr) : Infer Scheme := do
  generalizeUnder env 0 (← writtenType env 1 written) .empty

def importItems (moduleName : String) :
    List ImportItem → Env → List (String × Scheme) → Infer (Env × List (String × Scheme))
  | [], env, values => return (env, values)
  | .type decl :: rest, env, values => do
    importItems moduleName rest (← defineTypes env [decl]) values
  | .value name localName written :: rest, env, values => do
    let σ ← signature env written
    let bound := (localName.getD name).name
    log (.imported moduleName name.name bound σ)
    importItems moduleName rest env (values ++ [(bound, σ)])

/-! ## Declarations -/

def declareGroup : List GroupBinding → List (String × Scheme) → Scope → Infer Scope
  | member :: members, (name, σ) :: schemes, scope => do
    log (.declaredMember name σ)
    declareGroup members schemes (scope.bind name (.value σ) member.span)
  | _, _, scope => return scope

def declaration (scope : Scope) : Declaration → Infer Scope
  | .value name written body recursive span => do
    let σ ← letBinding scope.env 0 name written body recursive
    log (.declared name.name σ)
    return scope.bind name.name (.value σ) span
  | .group bindings _ => do
    let schemes ← group scope.env 0 bindings
    declareGroup bindings schemes scope
  | .types decls _ => do
    let env ← defineTypes scope.env decls
    log (.definedTypes (decls.map (·.name.name)))
    return { scope with env }
  | .foreign name written foreignName span => do
    let σ ← signature scope.env written
    log (.declaredForeign name.name σ foreignName)
    return scope.bind name.name (.foreign σ foreignName) span
  | .imports moduleName items span => do
    let (env, values) ← importItems moduleName items scope.env []
    return values.foldl (fun scope value => scope.bind value.1 (.value value.2) span)
      { scope with env }

end Infer

end Polytype
