import Polytype.Coverage.Search
import Polytype.Inference.Annotation
import Polytype.Inference.Generalize
import Polytype.Inference.Pattern

namespace Polytype.Infer

/-! ## Operators -/

def arithmeticTypes : List String := ["Int", "Float"]

def orderedTypes : List String := ["Int", "Float", "String"]

def operand (env : Env) (span : Span) (allowed : List String) (t : Ty) : Infer Ty := do
  match ← resolved t with
  | .var _ =>
    unifyAt env span t .int
    return .int
  | applied =>
    if allowed.any fun name => applied.same (.const name) then return applied
    else fail (.mismatch .int applied) span (some (.operandTypes allowed))

def binary (env : Env) (op : BinaryOp) (left right : Ty) (leftSpan rightSpan span : Span) :
    Infer Ty :=
  match op with
  | .add | .sub | .mul | .div | .mod => do
    unifyAt env rightSpan left right
    operand env span arithmeticTypes left
  | .lt | .ltEq | .gt | .gtEq => do
    unifyAt env rightSpan left right
    let _ ← operand env span orderedTypes left
    return .bool
  | .eq | .notEq => do
    unifyAt env rightSpan left right
    let compared ← resolved left
    if compared.hasFunction then
      fail (.notEquatable compared) span (some (.noFunctionEquality op))
    else return .bool
  | .and | .or => do
    unifyAt env leftSpan .bool left
    unifyAt env rightSpan .bool right
    return .bool
  | .concat => do
    unifyAt env leftSpan .string left
    unifyAt env rightSpan .string right
    return .string
  | .cons => do
    unifyAt env rightSpan (.list left) right
    return .list left

def unary (env : Env) (op : UnaryOp) (t : Ty) (operandSpan span : Span) : Infer Ty :=
  match op with
  | .neg => operand env span arithmeticTypes t
  | .not => do
    unifyAt env operandSpan .bool t
    return .bool

/-! ## Records -/

def fieldsAt (env : Env) (span : Span) (t : Ty) : Infer (List (String × Ty)) :=
  match env.recordFields t with
  | some fields => return fields
  | none => fail (.mismatch (.record []) t) span

def spreadFields (env : Env) (span : Span) (t : Ty) : Infer (List (String × Ty)) :=
  match env.recordFields t, t with
  | some fields, _ => return fields
  | none, .var _ => fail (.mismatch (.record []) t) span (some .annotate)
  | none, _ => fail (.mismatch (.record []) t) span

def updatedFields (level : Nat) (v : TypeVar) :
    List FieldInit → List (String × Ty) → Infer (List (String × Ty))
  | [], fields => return fields
  | init :: rest, fields => do
    let t ← fieldOf v init.name level
    updatedFields level v rest (Assoc.insert fields init.name t)

/-! ## Bindings -/

/-- What the value of a `let` is inferred with: the type it has to fit, if one is known, and the
names in scope. A recursive value is in scope itself, with the type it has to fit. -/
def letScope (env : Env) (level : Nat) (name : Ident) (written : Option TypeExpr)
    (recursive : Bool) : Infer (Option Ty × Env) := do
  let declared ← written.mapM (writtenType env (level + 1))
  if recursive then
    let t ← match declared with
      | some t => pure t
      | none => fresh (level + 1)
    return (some t, env.extendValue name.name (.mono t))
  else return (declared, env)

def letScheme (env : Env) (level : Nat) (name : Ident) (expected : Option Ty) (value : Expr)
    (t : Ty) : Infer Scheme := do
  let bound ← match expected with
    | some expected =>
      unifyAt env value.span expected t
      pure expected
    | none => pure t
  let generalizable := value.isValue env
  if generalizable then
    closeRecords level bound value.span
  let σ ← schemeOf env level bound generalizable
  if !σ.isPolymorphic then
    lower level bound
  log (.inferred name.name σ)
  return σ

def groupTypes (env : Env) (level : Nat) : List GroupBinding → Infer (List Ty)
  | [] => return []
  | member :: rest => do
    let t ← writtenTypeOrFresh env (level + 1) member.written
    return t :: (← groupTypes env level rest)

def groupScope (env : Env) (members : List GroupBinding) (types : List Ty) : Env :=
  env.extendMono ((members.map (·.name.name)).zip types)

def closeGroup (level : Nat) : List GroupBinding → List Ty → Infer Unit
  | member :: members, t :: ts => do
    closeRecords level t member.value.span
    closeGroup level members ts
  | _, _ => return ()

def groupSchemes (env : Env) (level : Nat) (generalizable : Bool) :
    List GroupBinding → List Ty → Infer (List (String × Scheme))
  | member :: members, t :: ts => do
    let σ ← schemeOf env level t generalizable
    log (.inferredMember member.name.name σ)
    return (member.name.name, σ) :: (← groupSchemes env level generalizable members ts)
  | _, _ => return []

def lowerGroup (level : Nat) : List Ty → Infer Unit
  | [] => return ()
  | t :: ts => do
    lower level t
    lowerGroup level ts

def finishGroup (env : Env) (level : Nat) (members : List GroupBinding) (types : List Ty) :
    Infer (List (String × Scheme)) := do
  let generalizable := members.all fun member => member.value.isValue env
  if generalizable then
    closeGroup level members types
  let schemes ← groupSchemes env level generalizable members types
  if !generalizable then
    lowerGroup level types
  return schemes

/-! ## Expressions -/

mutual

def expr (env : Env) (level : Nat) : Expr → Infer Ty
  | .literal value _ => return value.ty
  | .var name =>
    match env.lookup name.name with
    | some binding => instantiate binding.scheme level
    | none => do
      if (← get).failed.contains name.name then fail (.dependsOnFailed name.name) name.span
      else fail (.unknownVariable name.name) name.span
  | .lambda params body _ => do
    let types ← resolving [] (Resolve.params env (level + 1) params)
    let scope := env.extendMono ((params.map (·.name.name)).zip types)
    let result ← expr scope (level + 1) body
    return .func types result
  | .apply function args span => do
    let t ← expr env level function
    match env.callee (← resolved t) with
    | .func params result =>
      if params.length < args.length ∨ (args.isEmpty ∧ ¬params.isEmpty) then
        fail (.arity .call params.length args.length) span
          (some (.functionType (.func params result)))
      else
        arguments env level args params
        let remaining := params.drop args.length
        return if remaining.isEmpty then result else .func remaining result
    | .var v =>
      let types ← exprs env level args
      let result ← fresh level
      unifyAt env function.span (.var v) (.func types result)
      return result
    | other =>
      let params ← freshList level args.length
      let result ← fresh level
      fail (.mismatch (.func params result) other) function.span (some .onlyFunctions)
  | .letIn name written value recursive body _ => do
    let drawn ← drawnSoFar
    let (expected, scope) ← letScope env level name written recursive
    let t ← expr scope (level + 1) value
    let σ ← letScheme env level name expected value t
    noteSchemes env drawn [σ]
    expr (env.extendValue name.name σ) level body
  | .letGroup bindings body _ => do
    let drawn ← drawnSoFar
    let types ← groupTypes env level bindings
    members (groupScope env bindings types) level bindings types
    let schemes ← finishGroup env level bindings types
    noteSchemes env drawn (schemes.map (·.2))
    expr (env.extendAll (Assoc.mapValues .value schemes)) level body
  | .cond condition thenBranch elseBranch _ => do
    let t ← expr env level condition
    unifyAt env condition.span .bool t
    let thenType ← expr env level thenBranch
    let elseType ← expr env level elseBranch
    unifyAt env elseBranch.span thenType elseType
    return thenType
  | .block parts _ => do
    return (← exprs env level parts).getLastD .unit
  | .case scrutinee cases span => do
    let t ← expr env level scrutinee
    let result ← fresh level
    arms env level t result cases
    let shape := (← getSubst).applyShapes t
    match missingCase? env shape (cases.map fun arm => (arm.pattern, arm.guard.isSome)) with
    | some missing => fail (.nonExhaustive missing) span (some (.addCase missing))
    | none => return result
  | .record parts _ => do
    return .record (← entries env level parts [])
  | .update base inits _ => do
    let t ← expr env level base
    let applied ← resolved t
    let declared ← match applied with
      | .var v => updatedFields level v inits []
      | _ => fieldsAt env base.span applied
    updates env level applied declared inits
    return t
  | .field object name span => do
    let t ← expr env level object
    match ← resolved t with
    | .var v => fieldOf v name level
    | applied =>
      match Assoc.get? (← fieldsAt env object.span applied) name with
      | some t => return t
      | none => fail (.fieldNotFound name applied) span
  | .tuple parts _ => do
    return .tuple (← exprs env level parts)
  | .list parts _ => do
    let element ← fresh level
    elements env level element parts
    return .list element
  | .makeRef value _ => do
    return .ref (← expr env level value)
  | .deref reference span => do
    let t ← expr env level reference
    let content ← fresh level
    unifyAt env span (.ref content) t
    return content
  | .assign target value _ => do
    let t ← expr env level target
    let content ← fresh level
    unifyAt env target.span (.ref content) t
    let valueType ← expr env level value
    unifyAt env value.span content valueType
    return .unit
  | .binary op left right span => do
    let leftType ← expr env level left
    let rightType ← expr env level right
    binary env op leftType rightType left.span right.span span
  | .unary op operand span => do
    let t ← expr env level operand
    unary env op t operand.span span
  | .annotated inner written span => do
    let t ← expr env level inner
    let expected ← writtenType env level written
    unifyAt env span expected t
    return expected

def exprs (env : Env) (level : Nat) : List Expr → Infer (List Ty)
  | [] => return []
  | e :: es => do
    let t ← expr env level e
    return t :: (← exprs env level es)

def arguments (env : Env) (level : Nat) : List Expr → List Ty → Infer Unit
  | e :: es, param :: params => do
    let t ← expr env level e
    unifyAt env e.span param t
    arguments env level es params
  | _, _ => return ()

def elements (env : Env) (level : Nat) (element : Ty) : List Expr → Infer Unit
  | [] => return ()
  | e :: es => do
    let t ← expr env level e
    unifyAt env e.span element t
    elements env level element es

/-- Values of a group fit the types at their positions. They are inferred in the scope of the
group, one level further in. -/
def members (scope : Env) (level : Nat) : List GroupBinding → List Ty → Infer Unit
  | ⟨_, _, value, _⟩ :: rest, t :: ts => do
    let valueType ← expr scope (level + 1) value
    unifyAt scope value.span t valueType
    members scope level rest ts
  | _, _ => return ()

def arms (env : Env) (level : Nat) (scrutinee result : Ty) : List Arm → Infer Unit
  | [] => return ()
  | ⟨p, guard, body, _⟩ :: rest => do
    let scope := env.extendMono (← checkPattern env level p scrutinee)
    guardOf scope level guard
    let t ← expr scope level body
    unifyAt env body.span result t
    arms env level scrutinee result rest

def guardOf (env : Env) (level : Nat) : Option Expr → Infer Unit
  | none => return ()
  | some guard => do
    let t ← expr env level guard
    let s ← getSubst
    match unify env.expand .bool t s with
    | .ok s => setSubst s
    | .error _ => fail (.nonBooleanGuard (s.apply t)) guard.span

def entries (env : Env) (level : Nat) :
    List Entry → List (String × Ty) → Infer (List (String × Ty))
  | [], fields => return fields
  | .field ⟨name, value, _⟩ :: rest, fields => do
    let t ← expr env level value
    entries env level rest (Assoc.insert fields name t)
  | .spread base :: rest, fields => do
    let t ← expr env level base
    let spread ← spreadFields env base.span (← resolved t)
    entries env level rest (Assoc.insertAll fields spread)

def updates (env : Env) (level : Nat) (record : Ty) (declared : List (String × Ty)) :
    List FieldInit → Infer Unit
  | [] => return ()
  | ⟨name, value, span⟩ :: rest =>
    match Assoc.get? declared name with
    | none => fail (.fieldNotFound name record) span
    | some expected => do
      let t ← expr env level value
      unifyAt env value.span expected t
      updates env level record declared rest

end

def letBinding (env : Env) (level : Nat) (name : Ident) (written : Option TypeExpr)
    (value : Expr) (recursive : Bool) : Infer Scheme := do
  let drawn ← drawnSoFar
  let (expected, scope) ← letScope env level name written recursive
  let t ← expr scope (level + 1) value
  let σ ← letScheme env level name expected value t
  noteSchemes env drawn [σ]
  return σ

def group (env : Env) (level : Nat) (bindings : List GroupBinding) :
    Infer (List (String × Scheme)) := do
  let drawn ← drawnSoFar
  let types ← groupTypes env level bindings
  members (groupScope env bindings types) level bindings types
  let schemes ← finishGroup env level bindings types
  noteSchemes env drawn (schemes.map (·.2))
  return schemes

end Polytype.Infer
