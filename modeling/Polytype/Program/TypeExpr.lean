import Polytype.Program.Span

namespace Polytype

inductive TypeExpr where
  | named (name : String) (args : List TypeExpr) (span : Span)
  | var (name : String) (span : Span)
  | func (params : List TypeExpr) (result : TypeExpr) (span : Span)
  | record (fields : List (String × TypeExpr)) (span : Span)
  | tuple (elements : List TypeExpr) (span : Span)
deriving Inhabited

namespace TypeExpr

def span : TypeExpr → Span
  | named _ _ span => span
  | var _ span => span
  | func _ _ span => span
  | record _ span => span
  | tuple _ span => span

mutual

def same : TypeExpr → TypeExpr → Bool
  | named name args _, named name' args' _ => name == name' && sameList args args'
  | var name _, var name' _ => name == name'
  | func params result _, func params' result' _ =>
    sameList params params' && result.same result'
  | record fields _, record fields' _ => sameFields fields fields'
  | tuple elements _, tuple elements' _ => sameList elements elements'
  | _, _ => false

def sameList : List TypeExpr → List TypeExpr → Bool
  | [], [] => true
  | t :: ts, u :: us => t.same u && sameList ts us
  | _, _ => false

def sameFields : List (String × TypeExpr) → List (String × TypeExpr) → Bool
  | [], [] => true
  | (name, t) :: ts, (name', u) :: us => name == name' && t.same u && sameFields ts us
  | _, _ => false

end

def sameOption : Option TypeExpr → Option TypeExpr → Bool
  | none, none => true
  | some t, some u => t.same u
  | _, _ => false

end TypeExpr

end Polytype
