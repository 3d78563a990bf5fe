import Polytype.Ty.Basic
import Polytype.Text.Separated

namespace Polytype

open Text

namespace Ty

mutual

def renderWith (showVar : Nat → String) : Ty → String
  | var v => showVar v.id
  | const name => name
  | app head args =>
    head.renderWith showVar ++ "<" ++ commas (renderListWith showVar args) ++ ">"
  | func params result =>
    "(" ++ commas (renderListWith showVar params) ++ ") -> " ++ result.renderWith showVar
  | record fields => braced (renderFieldsWith showVar fields)
  | tuple elements => "(" ++ commas (renderListWith showVar elements) ++ ")"

def renderListWith (showVar : Nat → String) : List Ty → List String
  | [] => []
  | t :: ts => t.renderWith showVar :: renderListWith showVar ts

def renderFieldsWith (showVar : Nat → String) : List (String × Ty) → List String
  | [] => []
  | (name, t) :: rest => (name ++ ": " ++ t.renderWith showVar) :: renderFieldsWith showVar rest

end

end Ty

def TypeVar.render (v : TypeVar) : String :=
  "'t" ++ toString v.id

def Ty.render (t : Ty) : String :=
  t.renderWith fun id => "'t" ++ toString id

end Polytype
