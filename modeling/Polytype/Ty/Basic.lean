namespace Polytype

/-- A type variable: its identity and the level it belongs to. -/
structure TypeVar where
  id : Nat
  level : Nat
deriving DecidableEq, Inhabited

inductive Ty where
  | var (v : TypeVar)
  | const (name : String)
  | app (head : Ty) (args : List Ty)
  | func (params : List Ty) (result : Ty)
  | record (fields : List (String × Ty))
  | tuple (elements : List Ty)
deriving Inhabited

namespace TypeVar

/-- Adds a variable to a set of variables in ascending order of ids. A variable that is already
there keeps its level. -/
def insert (v : TypeVar) : List TypeVar → List TypeVar
  | [] => [v]
  | w :: rest =>
    if v.id < w.id then v :: w :: rest
    else if v.id = w.id then w :: rest
    else w :: insert v rest

/-- The set of the variables of a list, in ascending order of ids. The first occurrence of a
variable gives its level. -/
def setOf (vs : List TypeVar) : List TypeVar :=
  vs.foldl (fun set v => v.insert set) []

end TypeVar

namespace Ty

/-! ## The types of the language -/

abbrev int : Ty := const "Int"

abbrev float : Ty := const "Float"

abbrev string : Ty := const "String"

abbrev bool : Ty := const "Bool"

abbrev unit : Ty := const "Unit"

abbrev list (element : Ty) : Ty := app (const "List") [element]

abbrev ref (content : Ty) : Ty := app (const "Ref") [content]

def named (name : String) (args : List Ty) : Ty :=
  if args.isEmpty then const name else app (const name) args

def headName? : Ty → Option String
  | const name => some name
  | app head _ => head.headName?
  | _ => none

def args : Ty → List Ty
  | app _ args => args
  | _ => []

def isNamed (t : Ty) (name : String) : Bool :=
  t.headName? == some name

def listElement? : Ty → Option Ty
  | app head [element] => if head.isNamed "List" then some element else none
  | _ => none

/-! ## Variables of a type -/

mutual

def mapVars (f : TypeVar → Ty) : Ty → Ty
  | var v => f v
  | const name => const name
  | app head args => app (head.mapVars f) (mapVarsList f args)
  | func params result => func (mapVarsList f params) (result.mapVars f)
  | record fields => record (mapVarsFields f fields)
  | tuple elements => tuple (mapVarsList f elements)

def mapVarsList (f : TypeVar → Ty) : List Ty → List Ty
  | [] => []
  | t :: ts => t.mapVars f :: mapVarsList f ts

def mapVarsFields (f : TypeVar → Ty) : List (String × Ty) → List (String × Ty)
  | [] => []
  | (name, t) :: rest => (name, t.mapVars f) :: mapVarsFields f rest

end

mutual

def vars : Ty → List TypeVar
  | var v => [v]
  | const _ => []
  | app head args => head.vars ++ varsList args
  | func params result => varsList params ++ result.vars
  | record fields => varsFields fields
  | tuple elements => varsList elements

def varsList : List Ty → List TypeVar
  | [] => []
  | t :: ts => t.vars ++ varsList ts

def varsFields : List (String × Ty) → List TypeVar
  | [] => []
  | (_, t) :: rest => t.vars ++ varsFields rest

end

/-- The set of variables of a type, in ascending order of ids. The leftmost occurrence of a
variable gives its level. -/
def freeVars (t : Ty) : List TypeVar :=
  TypeVar.setOf t.vars

def mentions (t : Ty) (id : Nat) : Bool :=
  t.vars.any (·.id == id)

/-! ## Comparison, size and function types inside a type -/

mutual

def same : Ty → Ty → Bool
  | var v, var w => v.id == w.id
  | const a, const b => a == b
  | app head args, app head' args' => head.same head' && sameList args args'
  | func params result, func params' result' => sameList params params' && result.same result'
  | record fields, record fields' => sameFields fields fields'
  | tuple elements, tuple elements' => sameList elements elements'
  | _, _ => false

def sameList : List Ty → List Ty → Bool
  | [], [] => true
  | t :: ts, u :: us => t.same u && sameList ts us
  | _, _ => false

def sameFields : List (String × Ty) → List (String × Ty) → Bool
  | [], [] => true
  | (name, t) :: ts, (name', u) :: us => name == name' && t.same u && sameFields ts us
  | _, _ => false

end

mutual

def size : Ty → Nat
  | var _ => 1
  | const _ => 1
  | app head args => 1 + head.size + sizeList args
  | func params result => 1 + sizeList params + result.size
  | record fields => 1 + sizeFields fields
  | tuple elements => 1 + sizeList elements

def sizeList : List Ty → Nat
  | [] => 0
  | t :: ts => t.size + sizeList ts

def sizeFields : List (String × Ty) → Nat
  | [] => 0
  | (_, t) :: rest => t.size + sizeFields rest

end

mutual

def hasFunction : Ty → Bool
  | var _ => false
  | const _ => false
  | app head args => head.hasFunction || hasFunctionList args
  | func _ _ => true
  | record fields => hasFunctionFields fields
  | tuple elements => hasFunctionList elements

def hasFunctionList : List Ty → Bool
  | [] => false
  | t :: ts => t.hasFunction || hasFunctionList ts

def hasFunctionFields : List (String × Ty) → Bool
  | [] => false
  | (_, t) :: rest => t.hasFunction || hasFunctionFields rest

end

end Ty

end Polytype
