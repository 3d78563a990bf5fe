import Polytype.Subst.OpenRecord
import Polytype.Clash

namespace Polytype

inductive Goal where
  /-- The actual type fits the expected one; `exact` forbids additional record fields. -/
  | fits (exact : Bool) (expected actual : Ty)
  /-- The variable has the field, with a type that fits `t`. -/
  | carries (v : TypeVar) (field : String) (t : Ty)
  /-- No substitution meets this goal. -/
  | impossible (clash : Clash)
deriving Inhabited

/-- Goals under a substitution, with the number of named types that may still be replaced by
their definition. -/
structure Problem where
  subst : Subst
  expansions : Nat
  goals : List Goal
deriving Inhabited

namespace Goal

def refresh (s : Subst) : Goal → Goal
  | fits exact expected actual => fits exact (s.apply expected) (s.apply actual)
  | goal => goal

def fitsAll (exact : Bool) (expected actual : List Ty) : List Goal :=
  List.zipWith (fits exact) expected actual

def extraField? (fields others : List (String × Ty)) : Option String :=
  (Assoc.keys fields).find? fun name => !Assoc.contains others name

/-- Every wanted field is provided with a type that fits; the goals end at the first field that is
not. If the fit is exact, there is no other field. `expected` and `actual` are the whole records. -/
def fitsFields (exact : Bool) (expected actual : List (String × Ty)) :
    List (String × Ty) → List Goal
  | [] =>
    if exact then
      match extraField? actual expected with
      | some extra => [impossible (.missingField extra (.record actual) (.record expected))]
      | none => []
    else []
  | (name, wanted) :: rest =>
    match Assoc.get? actual name with
    | some provided => fits exact wanted provided :: fitsFields exact expected actual rest
    | none => [impossible (.missingField name (.record expected) (.record actual))]

def demands (t : Ty) (required : List (String × Ty)) : List Goal :=
  match t with
  | .var w => required.map fun field => carries w field.1 field.2
  | t => [fits false (.record required) t]

end Goal

namespace Problem

open Goal

inductive Outcome where
  | failed (clash : Clash)
  | continued (problem : Problem)
deriving Inhabited

def split (p : Problem) (goals rest : List Goal) : Outcome :=
  .continued { p with goals := goals ++ rest }

def resume (p : Problem) (s : Subst) (goals rest : List Goal) : Outcome :=
  .continued { p with subst := s, goals := (goals ++ rest).map (refresh s) }

/-- Lets a variable become a type, which then has to have the fields recorded for the variable. A
variable inside its own type has no finite solution, and neither has one that is bound already and
still not replaced. -/
def assign (p : Problem) (v : TypeVar) (t : Ty) (rest : List Goal) : Outcome :=
  if t.mentions v.id || p.subst.isBound v.id then .failed (.infinite v t)
  else
    p.resume (p.subst.bind v t) (((p.subst.recordShape v).map (demands t)).getD []) rest

def expand (definition : Ty → Option Ty) (p : Problem) (exact : Bool) (expected actual : Ty)
    (rest : List Goal) : Outcome :=
  match p.expansions with
  | 0 => .failed (.mismatch expected actual)
  | left + 1 =>
    let spent := { p with expansions := left }
    match definition expected with
    | some t => spent.split [fits exact (p.subst.apply t) actual] rest
    | none =>
      match definition actual with
      | some t => spent.split [fits exact expected (p.subst.apply t)] rest
      | none => .failed (.mismatch expected actual)

def pairwise (p : Problem) (expected actual : Ty) (expectedParts actualParts : List Ty)
    (goals rest : List Goal) : Outcome :=
  if expectedParts.length = actualParts.length then p.split goals rest
  else .failed (.arity expected actual expectedParts.length actualParts.length)

def meet (definition : Ty → Option Ty) (p : Problem) (goal : Goal) (rest : List Goal) : Outcome :=
  match goal with
  | .impossible clash => .failed clash
  | .carries v field t =>
    match (p.subst.recordShape v).bind fun shape => Assoc.get? shape field with
    | some known => p.split [fits false known (p.subst.apply t)] rest
    | none => p.resume (p.subst.requireField v field t) [] rest
  | .fits exact expected actual =>
    match expected, actual with
    | .var v, .var w => if v.id = w.id then p.split [] rest else p.assign v actual rest
    | .var v, _ => p.assign v actual rest
    | _, .var v => p.assign v expected rest
    | .const a, .const b =>
      if a = b then p.split [] rest else p.expand definition exact expected actual rest
    | .app head args, .app head' args' =>
      if head.same head' then
        p.pairwise expected actual args args'
          (fitsAll (exact || head.isNamed "Ref") args args') rest
      else p.expand definition exact expected actual rest
    | .func params result, .func params' result' =>
      p.pairwise expected actual params params'
        (fitsAll exact params' params ++ [fits exact result result']) rest
    | .tuple elements, .tuple elements' =>
      p.pairwise expected actual elements elements' (fitsAll exact elements elements') rest
    | .record fields, .record fields' => p.split (fitsFields exact fields fields' fields) rest
    | _, _ => p.expand definition exact expected actual rest

end Problem

end Polytype
