import Polytype.Subst.Reachable

namespace Polytype.Subst

def recordShape (s : Subst) (v : TypeVar) : Option (List (String × Ty)) :=
  if s.isBound v.id then none else (s.records.get? v.id).map s.applyFields

def knownField (s : Subst) (v : TypeVar) (field : String) : Option Ty :=
  ((s.records.get? v.id).bind fun fields => Assoc.get? fields field).map s.apply

/-- Records that a variable has a field of type `t`. The field lives at the level of the
variable. -/
def requireField (s : Subst) (v : TypeVar) (field : String) (t : Ty) : Subst :=
  let level := match s.apply (.var v) with
    | .var current => current.level
    | _ => v.level
  let lowered := s.lower t level
  let fields := (lowered.records.get? v.id).getD []
  { lowered with records := lowered.records.insert v.id (Assoc.insert fields field t) }

/-- Replaces every variable with recorded fields by its shape. `records` holds the fields of the
variables that are not being replaced already. -/
def expandShapes (s : Subst) (records : Assoc Nat (List (String × Ty))) (t : Ty) : Ty :=
  t.mapVars fun v =>
    match _h : records.get? v.id with
    | none => .var v
    | some fields =>
      .record (fields.map fun field =>
        (field.1, s.expandShapes (records.erase v.id) (s.apply field.2)))
termination_by records.length
decreasing_by exact Assoc.length_erase_lt _h

def applyShapes (s : Subst) (t : Ty) : Ty :=
  s.expandShapes s.records (s.apply t)

end Polytype.Subst
