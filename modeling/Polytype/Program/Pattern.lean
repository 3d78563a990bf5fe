import Polytype.Program.Double
import Polytype.Program.Span
import Polytype.Ty.Basic

namespace Polytype

inductive Literal where
  | int (value : Int)
  | float (value : Double)
  | string (value : String)
  | bool (value : Bool)
  | unit
deriving DecidableEq, Inhabited

namespace Literal

def ty : Literal → Ty
  | int _ => .int
  | float _ => .float
  | string _ => .string
  | bool _ => .bool
  | unit => .unit

def same : Literal → Literal → Bool
  | int a, int b => a == b
  | float a, float b => a.equal b
  | string a, string b => a == b
  | bool a, bool b => a == b
  | unit, unit => true
  | _, _ => false

end Literal

mutual

inductive Pattern where
  | wild (span : Span)
  | var (name : Ident)
  | literal (value : Literal) (span : Span)
  | constructor (name : Ident) (args : List Pattern) (span : Span)
  | record (fields : List FieldPattern) (span : Span)
  | tuple (elements : List Pattern) (span : Span)
  /-- A list that starts with the elements; without `rest` there is nothing after them. -/
  | list (elements : List Pattern) (rest : Option Pattern) (span : Span)
  | either (alternatives : List Pattern) (span : Span)

structure FieldPattern where
  name : String
  pattern : Pattern
  span : Span

end

namespace Pattern

instance : Inhabited Pattern := ⟨wild {}⟩

def span : Pattern → Span
  | wild span => span
  | var name => name.span
  | literal _ span => span
  | constructor _ _ span => span
  | record _ span => span
  | tuple _ span => span
  | list _ _ span => span
  | either _ span => span

mutual

def same : Pattern → Pattern → Bool
  | wild _, wild _ => true
  | var name, var name' => name.name == name'.name
  | literal value _, literal value' _ => value.same value'
  | constructor name args _, constructor name' args' _ =>
    name.name == name'.name && sameList args args'
  | record fields _, record fields' _ => sameFields fields fields'
  | tuple elements _, tuple elements' _ => sameList elements elements'
  | list elements none _, list elements' none _ => sameList elements elements'
  | list elements (some rest) _, list elements' (some rest') _ =>
    sameList elements elements' && rest.same rest'
  | either alternatives _, either alternatives' _ => sameList alternatives alternatives'
  | _, _ => false

def sameList : List Pattern → List Pattern → Bool
  | [], [] => true
  | p :: ps, q :: qs => p.same q && sameList ps qs
  | _, _ => false

def sameFields : List FieldPattern → List FieldPattern → Bool
  | [], [] => true
  | ⟨name, p, _⟩ :: ps, ⟨name', q, _⟩ :: qs => name == name' && p.same q && sameFields ps qs
  | _, _ => false

end

end Pattern

end Polytype
