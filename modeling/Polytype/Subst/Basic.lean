import Polytype.Assoc
import Polytype.Scheme

/-!
# Substitutions

A substitution knows three things about type variables: the type a variable is bound to, the level
an unbound variable has been lowered to, and the fields recorded for an unbound variable that
stands for a record of which only some fields are known yet.

`Subst.apply` replaces bound variables until none is left. A chain of bindings without a cycle
visits each binding at most once, so following as many steps as there are bindings reaches its end.
-/

namespace Polytype

/-- What is known about type variables. -/
structure Subst where
  /-- The bindings. -/
  types : Assoc Nat Ty := []
  /-- The levels of variables that were lowered. -/
  levels : Assoc Nat Nat := []
  /-- The recorded fields of variables that stand for open records. -/
  records : Assoc Nat (List (String × Ty)) := []
deriving Inhabited

namespace Subst

def empty : Subst := {}

def single (v : TypeVar) (t : Ty) : Subst := { types := [(v.id, t)] }

def isVar (t : Ty) (id : Nat) : Bool :=
  match t with
  | .var w => w.id == id
  | _ => false

/-- Binds every variable of a list of pairs to its type. A variable paired with itself stays
unbound, and of two pairs with one variable the later wins. -/
def ofPairs (pairs : List (TypeVar × Ty)) : Subst where
  types := Assoc.ofList
    ((pairs.filter fun pair => !isVar pair.2 pair.1.id).map fun pair => (pair.1.id, pair.2))

def size (s : Subst) : Nat := s.types.length

def lookup (s : Subst) (v : TypeVar) : Option Ty := s.types.get? v.id

def isBound (s : Subst) (id : Nat) : Bool := s.types.contains id

def relevel (s : Subst) (v : TypeVar) : TypeVar :=
  match s.levels.get? v.id with
  | some level => { v with level := min level v.level }
  | none => v

def resolve (s : Subst) : Nat → TypeVar → Ty
  | 0, v => .var (s.relevel v)
  | steps + 1, v =>
    match s.types.get? v.id with
    | some t => t.mapVars (s.resolve steps)
    | none => .var (s.relevel v)

def apply (s : Subst) (t : Ty) : Ty :=
  t.mapVars (s.resolve s.size)

def applyFields (s : Subst) (fields : List (String × Ty)) : List (String × Ty) :=
  Assoc.mapValues s.apply fields

def applyScheme (s : Subst) (σ : Scheme) : Scheme :=
  let unquantified := { s with types := s.types.filterKeys fun id => !σ.binds id }
  ⟨σ.vars, unquantified.apply σ.ty⟩

def lowest (levels newer : Assoc Nat Nat) : Assoc Nat Nat :=
  newer.foldl (fun acc entry =>
    acc.insert entry.1 (match acc.get? entry.1 with
      | some level => min level entry.2
      | none => entry.2)) levels

def mergeRecords (records newer : Assoc Nat (List (String × Ty))) :
    Assoc Nat (List (String × Ty)) :=
  newer.foldl (fun acc entry =>
    acc.insert entry.1 (Assoc.insertAll ((acc.get? entry.1).getD []) entry.2)) records

/-- The substitution that acts like `older` followed by `newer`. Bindings of `newer` win, a
variable that is bound loses the fields `older` recorded for it. -/
def compose (newer older : Subst) : Subst :=
  let types := (older.types.mapValues newer.apply).insertAll newer.types
  { types
    levels := lowest older.levels newer.levels
    records := mergeRecords
      ((older.records.filterKeys fun id => !types.contains id).mapValues newer.applyFields)
      newer.records }

def same (s t : Subst) : Bool :=
  s.types.sameBy Ty.same t.types && s.levels == t.levels
    && s.records.sameBy Ty.sameFields t.records

end Subst

end Polytype
