import Polytype.Program.Pattern
import Polytype.Program.TypeExpr

namespace Polytype

inductive BinaryOp where
  | add | sub | mul | div | mod
  | eq | notEq | lt | ltEq | gt | gtEq
  | and | or | concat | cons
deriving DecidableEq, Inhabited

def BinaryOp.symbol : BinaryOp → String
  | add => "+"
  | sub => "-"
  | mul => "*"
  | div => "/"
  | mod => "%"
  | eq => "=="
  | notEq => "!="
  | lt => "<"
  | ltEq => "<="
  | gt => ">"
  | gtEq => ">="
  | and => "&&"
  | or => "||"
  | concat => "++"
  | cons => "::"

def BinaryOp.all : List BinaryOp :=
  [add, sub, mul, div, mod, eq, notEq, lt, ltEq, gt, gtEq, and, or, concat, cons]

def BinaryOp.ofSymbol? (symbol : String) : Option BinaryOp :=
  all.find? fun op => op.symbol == symbol

inductive UnaryOp where
  | neg
  | not
deriving DecidableEq, Inhabited

structure Param where
  name : Ident
  written : Option TypeExpr := none
deriving Inhabited

mutual

inductive Expr where
  | literal (value : Literal) (span : Span)
  | var (name : Ident)
  | lambda (params : List Param) (body : Expr) (span : Span)
  | apply (function : Expr) (args : List Expr) (span : Span)
  | letIn (name : Ident) (written : Option TypeExpr) (value : Expr) (recursive : Bool)
      (body : Expr) (span : Span)
  | letGroup (bindings : List GroupBinding) (body : Expr) (span : Span)
  | cond (condition thenBranch elseBranch : Expr) (span : Span)
  | block (exprs : List Expr) (span : Span)
  | case (scrutinee : Expr) (arms : List Arm) (span : Span)
  | record (entries : List Entry) (span : Span)
  | update (base : Expr) (fields : List FieldInit) (span : Span)
  | field (object : Expr) (name : String) (span : Span)
  | tuple (elements : List Expr) (span : Span)
  | list (elements : List Expr) (span : Span)
  | makeRef (value : Expr) (span : Span)
  | deref (reference : Expr) (span : Span)
  | assign (target value : Expr) (span : Span)
  | binary (op : BinaryOp) (left right : Expr) (span : Span)
  | unary (op : UnaryOp) (operand : Expr) (span : Span)
  | annotated (expr : Expr) (written : TypeExpr) (span : Span)

/-- A member of a group of values defined by each other. -/
structure GroupBinding where
  name : Ident
  written : Option TypeExpr
  value : Expr
  span : Span

structure Arm where
  pattern : Pattern
  guard : Option Expr
  body : Expr
  span : Span

structure FieldInit where
  name : String
  value : Expr
  span : Span

/-- A part of a record literal: a field, or all fields of another record. -/
inductive Entry where
  | field (init : FieldInit)
  | spread (base : Expr)

end

namespace Expr

instance : Inhabited Expr := ⟨literal .unit {}⟩

def span : Expr → Span
  | literal _ span => span
  | var name => name.span
  | lambda _ _ span => span
  | apply _ _ span => span
  | letIn _ _ _ _ _ span => span
  | letGroup _ _ span => span
  | cond _ _ _ span => span
  | block _ span => span
  | case _ _ span => span
  | record _ span => span
  | update _ _ span => span
  | field _ _ span => span
  | tuple _ span => span
  | list _ span => span
  | makeRef _ span => span
  | deref _ span => span
  | assign _ _ span => span
  | binary _ _ _ span => span
  | unary _ _ span => span
  | annotated _ _ span => span

def sameParams : List Param → List Param → Bool
  | [], [] => true
  | p :: ps, q :: qs =>
    p.name.name == q.name.name && TypeExpr.sameOption p.written q.written
      && sameParams ps qs
  | _, _ => false

mutual

def same : Expr → Expr → Bool
  | literal value _, literal value' _ => value.same value'
  | var name, var name' => name.name == name'.name
  | lambda params body _, lambda params' body' _ => sameParams params params' && body.same body'
  | apply function args _, apply function' args' _ =>
    function.same function' && sameList args args'
  | letIn name written value recursive body _,
    letIn name' written' value' recursive' body' _ =>
    name.name == name'.name && TypeExpr.sameOption written written' && value.same value'
      && recursive == recursive' && body.same body'
  | letGroup bindings body _, letGroup bindings' body' _ =>
    sameGroup bindings bindings' && body.same body'
  | cond condition thenBranch elseBranch _, cond condition' thenBranch' elseBranch' _ =>
    condition.same condition' && thenBranch.same thenBranch' && elseBranch.same elseBranch'
  | block exprs _, block exprs' _ => sameList exprs exprs'
  | case scrutinee arms _, case scrutinee' arms' _ =>
    scrutinee.same scrutinee' && sameArms arms arms'
  | record entries _, record entries' _ => sameEntries entries entries'
  | update base fields _, update base' fields' _ => base.same base' && sameInits fields fields'
  | field object name _, field object' name' _ => object.same object' && name == name'
  | tuple elements _, tuple elements' _ => sameList elements elements'
  | list elements _, list elements' _ => sameList elements elements'
  | makeRef value _, makeRef value' _ => value.same value'
  | deref reference _, deref reference' _ => reference.same reference'
  | assign target value _, assign target' value' _ => target.same target' && value.same value'
  | binary op left right _, binary op' left' right' _ =>
    op == op' && left.same left' && right.same right'
  | unary op operand _, unary op' operand' _ => op == op' && operand.same operand'
  | annotated expr written _, annotated expr' written' _ =>
    expr.same expr' && written.same written'
  | _, _ => false

def sameList : List Expr → List Expr → Bool
  | [], [] => true
  | e :: es, f :: fs => e.same f && sameList es fs
  | _, _ => false

def sameGroup : List GroupBinding → List GroupBinding → Bool
  | [], [] => true
  | ⟨name, written, value, _⟩ :: rest, ⟨name', written', value', _⟩ :: rest' =>
    name.name == name'.name && TypeExpr.sameOption written written' && value.same value'
      && sameGroup rest rest'
  | _, _ => false

def sameArms : List Arm → List Arm → Bool
  | [], [] => true
  | ⟨pattern, none, body, _⟩ :: rest, ⟨pattern', none, body', _⟩ :: rest' =>
    pattern.same pattern' && body.same body' && sameArms rest rest'
  | ⟨pattern, some guard, body, _⟩ :: rest, ⟨pattern', some guard', body', _⟩ :: rest' =>
    pattern.same pattern' && guard.same guard' && body.same body' && sameArms rest rest'
  | _, _ => false

def sameInits : List FieldInit → List FieldInit → Bool
  | [], [] => true
  | ⟨name, value, _⟩ :: rest, ⟨name', value', _⟩ :: rest' =>
    name == name' && value.same value' && sameInits rest rest'
  | _, _ => false

def sameEntries : List Entry → List Entry → Bool
  | [], [] => true
  | .field ⟨name, value, _⟩ :: rest, .field ⟨name', value', _⟩ :: rest' =>
    name == name' && value.same value' && sameEntries rest rest'
  | .spread base :: rest, .spread base' :: rest' => base.same base' && sameEntries rest rest'
  | _, _ => false

end

end Expr

end Polytype
