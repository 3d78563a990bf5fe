import Polytype.Coverage.Search
import Polytype.Env.Prelude
import Mathlib.Algebra.Group.Int.Defs
import Mathlib.Data.List.Forall2

namespace Polytype

/-- A value, as far as patterns can tell. -/
inductive Value where
  | int (value : Int)
  | float (value : Double)
  | string (value : String)
  | bool (value : Bool)
  | unit
  | constructor (name : String) (args : List Value)
  | tuple (elements : List Value)
  | nil
  | cons (head tail : Value)
  | record (fields : List (String × Value))
  | atom (id : Nat)
deriving Inhabited

def Value.view : Value → Option (Head × List Value)
  | int value => some (.int value, [])
  | float value => some (.float value, [])
  | string value => some (.string value, [])
  | bool value => some (.bool value, [])
  | unit => some (.unit, [])
  | constructor name args => some (.variant name, args)
  | tuple elements => some (.tuple elements.length, elements)
  | nil => some (.nil, [])
  | cons head tail => some (.cons, [head, tail])
  | record _ => none
  | atom _ => none

namespace Pat

mutual

/-- Whether a value matches a pattern. -/
def accepts : Pat → Value → Bool
  | any, _ => true
  | node head args, v =>
    match v.view with
    | some (other, parts) => other = head && acceptsAll args parts
    | none => false
  | record fields, .record parts => acceptsFields fields parts
  | record _, _ => false
  | either alternatives, v => acceptsSome alternatives v

def acceptsAll : List Pat → List Value → Bool
  | [], [] => true
  | p :: ps, v :: vs => p.accepts v && acceptsAll ps vs
  | _, _ => false

def acceptsFields : List (String × Pat) → List (String × Value) → Bool
  | [], _ => true
  | (name, p) :: rest, parts =>
    (match Assoc.get? parts name with
      | some v => p.accepts v
      | none => false) && acceptsFields rest parts

def acceptsSome : List Pat → Value → Bool
  | [], _ => false
  | p :: ps, v => p.accepts v || acceptsSome ps v

end

end Pat

namespace Coverage

/-- The values of the type `t`, which is no name of another type, can have the head, and then have
parts of the given types. Integers have 64 bits. -/
inductive Built (env : Env) (t : Ty) : Head → List Ty → Prop where
  | int {value : Int} (named : t.isNamed "Int") (low : -2 ^ 63 ≤ value) (high : value < 2 ^ 63) :
    Built env t (.int value) []
  | float {value : Double} (named : t.isNamed "Float") : Built env t (.float value) []
  | string {value : String} (named : t.isNamed "String") : Built env t (.string value) []
  | bool {value : Bool} (named : t.isNamed "Bool") : Built env t (.bool value) []
  | unit (named : t.isNamed "Unit") : Built env t .unit []
  | nil (named : t.isNamed "List") : Built env t .nil []
  | cons {element : Ty} (named : t.isNamed "List") (he : t.listElement?.getD unknown = element) :
    Built env t .cons [element, .list element]
  | tuple {types : List Ty} (ht : t = .tuple types) : Built env t (.tuple types.length) types
  | variant {alternatives : List Alternative} {a : Alternative}
    (halts : env.alternatives t = some alternatives) (mem : a ∈ alternatives) :
    Built env t (.variant a.name) a.args

def Transparent (env : Env) (t : Ty) : Prop :=
  (∃ types, t = .tuple types) ∨ (env.recordFields t).isSome ∨ (env.alternatives t).isSome ∨
    ∃ name ∈ ["Int", "Float", "String", "Bool", "Unit", "List"], t.isNamed name

/-- The values of a type. A record may have more fields than its type declares. -/
inductive HasType (env : Env) : Value → Ty → Prop where
  | built {v : Value} {t : Ty} {head : Head} {parts : List Value} {types : List Ty}
    (view : v.view = some (head, parts)) (built : Built env (env.unfold t) head types)
    (typed : List.Forall₂ (HasType env) parts types) : HasType env v t
  | record {fields : List (String × Value)} {declared : List (String × Ty)} {t : Ty}
    (hfields : env.recordFields (env.unfold t) = some declared)
    (present : ∀ name type, Assoc.get? declared name = some type →
      (Assoc.get? fields name).isSome)
    (typed : ∀ name type part, Assoc.get? declared name = some type →
      Assoc.get? fields name = some part → HasType env part type) :
    HasType env (.record fields) t
  | atom {id : Nat} {t : Ty} (h : ¬ Transparent env (env.unfold t)) : HasType env (.atom id) t

/-- The patterns that can be matched with the values of a type. -/
inductive WellTyped (env : Env) : Pat → Ty → Prop where
  | any {t : Ty} : WellTyped env .any t
  | node {head : Head} {args : List Pat} {types : List Ty} {t : Ty}
    (built : Built env (env.unfold t) head types)
    (typed : List.Forall₂ (WellTyped env) args types) : WellTyped env (.node head args) t
  | record {fields : List (String × Pat)} {declared : List (String × Ty)} {t : Ty}
    (hfields : env.recordFields (env.unfold t) = some declared)
    (distinct : (Assoc.keys fields).Nodup)
    (present : ∀ field ∈ fields, (Assoc.get? declared field.1).isSome)
    (typed : ∀ field ∈ fields, ∀ type, Assoc.get? declared field.1 = some type →
      WellTyped env field.2 type) :
    WellTyped env (.record fields) t
  | either {alternatives : List Pat} {t : Ty} (typed : ∀ p ∈ alternatives, WellTyped env p t) :
    WellTyped env (.either alternatives) t

/-- Environments that keep the prelude's types, and in which the constructors of a variant have
different names. -/
structure Regular (env : Env) : Prop where
  builtin : ∀ d ∈ Prelude.definitions, env.definition? d.name = some d
  distinct : ∀ name d alternatives, env.definition? name = some d →
    d.body = .variant alternatives → (alternatives.map (·.name)).Nodup

end Coverage

end Polytype
