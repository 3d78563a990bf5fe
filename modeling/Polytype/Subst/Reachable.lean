import Polytype.Subst.Basic

namespace Polytype.Subst

def fieldVars (s : Subst) (fields : List (String × Ty)) : List TypeVar :=
  fields.flatMap fun field => (s.apply field.2).freeVars

/-- Visits the pending variables, the first one first, and then what their fields lead to.
`records` holds the recorded fields of the variables not visited yet, and `seen` the variables
visited so far. -/
def visit (s : Subst) (records : Assoc Nat (List (String × Ty))) (seen : List TypeVar)
    (pending : List TypeVar) : List TypeVar :=
  match pending with
  | [] => seen
  | v :: rest =>
    if seen.any (·.id == v.id) then s.visit records seen rest
    else
      match _h : records.get? v.id with
      | none => s.visit records (v :: seen) rest
      | some fields =>
        s.visit (records.erase v.id) (v :: seen) ((s.fieldVars fields).reverse ++ rest)
termination_by (records.length, pending.length)
decreasing_by
  · exact Prod.Lex.right _ (Nat.lt_succ_self _)
  · exact Prod.Lex.right _ (Nat.lt_succ_self _)
  · exact Prod.Lex.left _ _ (Assoc.length_erase_lt _h)

/-- The variables reachable from a type. Where a variable is met at several levels, the one met
first counts. -/
def reachable (s : Subst) (t : Ty) : List TypeVar :=
  s.visit s.records [] (s.apply t).freeVars.reverse

def loweredLevels (s : Subst) (t : Ty) (level : Nat) : Assoc Nat Nat :=
  Assoc.ofList (((s.reachable t).filter fun v => level < v.level).map fun v => (v.id, level))

/-- Binds a variable to a type, lowers what the type leads to, and forgets the fields recorded for
the variable. -/
def bind (s : Subst) (v : TypeVar) (t : Ty) : Subst :=
  let binding : Subst := { types := [(v.id, t)], levels := s.loweredLevels t v.level }
  let bound := binding.compose s
  { bound with records := bound.records.erase v.id }

def lower (s : Subst) (t : Ty) (level : Nat) : Subst :=
  let levels := s.loweredLevels t level
  if levels.isEmpty then s else compose { levels } s

end Polytype.Subst
