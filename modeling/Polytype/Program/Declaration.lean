import Polytype.Program.Expr

namespace Polytype

inductive TypeDeclBody where
  | synonym (target : TypeExpr)
  | record (fields : List (String × TypeExpr))
  | variant (constructors : List (Ident × List TypeExpr))
deriving Inhabited

structure TypeDecl where
  name : Ident
  params : List String
  body : TypeDeclBody
  span : Span
deriving Inhabited

/-- A thing that is imported, with what the importing module has to know of it. -/
inductive ImportItem where
  | value (name : Ident) (localName : Option Ident) (signature : TypeExpr)
  | type (decl : TypeDecl)
deriving Inhabited

inductive Declaration where
  | value (name : Ident) (written : Option TypeExpr) (body : Expr) (recursive : Bool)
      (span : Span)
  | group (bindings : List GroupBinding) (span : Span)
  | types (decls : List TypeDecl) (span : Span)
  | foreign (name : Ident) (signature : TypeExpr) (foreignName : String) (span : Span)
  | imports (moduleName : String) (items : List ImportItem) (span : Span)
deriving Inhabited

structure Module where
  name : String
  declarations : List Declaration
deriving Inhabited

namespace TypeDecl

def constructorNames (d : TypeDecl) : List String :=
  match d.body with
  | .variant constructors => constructors.map (·.1.name)
  | _ => []

def sameConstructors : List (Ident × List TypeExpr) → List (Ident × List TypeExpr) → Bool
  | [], [] => true
  | (name, args) :: rest, (name', args') :: rest' =>
    name.name == name'.name && TypeExpr.sameList args args' && sameConstructors rest rest'
  | _, _ => false

def same (d e : TypeDecl) : Bool :=
  d.name.name == e.name.name && d.params == e.params &&
    match d.body, e.body with
    | .synonym target, .synonym target' => target.same target'
    | .record fields, .record fields' => TypeExpr.sameFields fields fields'
    | .variant constructors, .variant constructors' =>
      sameConstructors constructors constructors'
    | _, _ => false

def sameList : List TypeDecl → List TypeDecl → Bool
  | [], [] => true
  | d :: ds, e :: es => d.same e && sameList ds es
  | _, _ => false

end TypeDecl

namespace ImportItem

def boundValues : ImportItem → List String
  | value name localName _ => [(localName.getD name).name]
  | type decl => decl.constructorNames

def same : ImportItem → ImportItem → Bool
  | value name localName signature, value name' localName' signature' =>
    name.name == name'.name && localName.map (·.name) == localName'.map (·.name)
      && signature.same signature'
  | type decl, type decl' => decl.same decl'
  | _, _ => false

def sameList : List ImportItem → List ImportItem → Bool
  | [], [] => true
  | i :: is, j :: js => i.same j && sameList is js
  | _, _ => false

end ImportItem

namespace Declaration

def span : Declaration → Span
  | value _ _ _ _ span => span
  | group _ span => span
  | types _ span => span
  | foreign _ _ _ span => span
  | imports _ _ span => span

def boundValues : Declaration → List String
  | value name _ _ _ _ => [name.name]
  | group bindings _ => bindings.map (·.name.name)
  | types decls _ => decls.flatMap TypeDecl.constructorNames
  | foreign name _ _ _ => [name.name]
  | imports _ items _ => items.flatMap ImportItem.boundValues

def boundTypes : Declaration → List String
  | types decls _ => decls.map (·.name.name)
  | imports _ items _ => items.filterMap fun
    | .type decl => some decl.name.name
    | .value _ _ _ => none
  | _ => []

def same : Declaration → Declaration → Bool
  | value name written body recursive _, value name' written' body' recursive' _ =>
    name.name == name'.name && TypeExpr.sameOption written written' && body.same body'
      && recursive == recursive'
  | group bindings _, group bindings' _ => Expr.sameGroup bindings bindings'
  | types decls _, types decls' _ => TypeDecl.sameList decls decls'
  | foreign name signature foreignName _, foreign name' signature' foreignName' _ =>
    name.name == name'.name && signature.same signature' && foreignName == foreignName'
  | imports moduleName items _, imports moduleName' items' _ =>
    moduleName == moduleName' && ImportItem.sameList items items'
  | _, _ => false

def sameList : List Declaration → List Declaration → Bool
  | [], [] => true
  | d :: ds, e :: es => d.same e && sameList ds es
  | _, _ => false

end Declaration

def Module.same (m n : Module) : Bool :=
  m.name == n.name && Declaration.sameList m.declarations n.declarations

end Polytype
