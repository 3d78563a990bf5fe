import Polytype.Subst.Basic

namespace Polytype

structure Alternative where
  name : String
  args : List Ty
deriving Inhabited

inductive Body where
  | abstract
  | synonym (target : Ty)
  | record (fields : List (String × Ty))
  | variant (alternatives : List Alternative)
deriving Inhabited

structure Definition where
  name : String
  params : List TypeVar
  body : Body
deriving Inhabited

/-- A constructor as a value: the type it belongs to, that type's parameters, and the types of its
arguments and of what it builds. -/
structure Constructor where
  name : String
  typeName : String
  params : List TypeVar
  args : List Ty
  result : Ty
deriving Inhabited

namespace Constructor

def arity (c : Constructor) : Nat := c.args.length

def scheme (c : Constructor) : Scheme :=
  ⟨c.params, if c.args.isEmpty then c.result else .func c.args c.result⟩

def same (c d : Constructor) : Bool :=
  c.name == d.name && c.typeName == d.typeName && c.params.map (·.id) == d.params.map (·.id)
    && Ty.sameList c.args d.args && c.result.same d.result

end Constructor

namespace Body

def target? : Body → Option Ty
  | synonym target => some target
  | record fields => some (.record fields)
  | abstract => none
  | variant _ => none

def sameAlternatives : List Alternative → List Alternative → Bool
  | [], [] => true
  | a :: as, b :: bs => a.name == b.name && Ty.sameList a.args b.args && sameAlternatives as bs
  | _, _ => false

def same : Body → Body → Bool
  | abstract, abstract => true
  | synonym target, synonym target' => target.same target'
  | record fields, record fields' => Ty.sameFields fields fields'
  | variant alternatives, variant alternatives' => sameAlternatives alternatives alternatives'
  | _, _ => false

end Body

namespace Definition

def selfType (d : Definition) : Ty :=
  .named d.name (d.params.map .var)

def instantiate (d : Definition) (args : List Ty) (t : Ty) : Ty :=
  (Subst.ofPairs (d.params.zip args)).apply t

def constructors (d : Definition) : List Constructor :=
  match d.body with
  | .variant alternatives =>
    alternatives.map fun a => ⟨a.name, d.name, d.params, a.args, d.selfType⟩
  | _ => []

def same (d e : Definition) : Bool :=
  d.name == e.name && d.params.map (·.id) == e.params.map (·.id) && d.body.same e.body

end Definition

end Polytype
