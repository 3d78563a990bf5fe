import Polytype.Unification.Measure

namespace Polytype

def Problem.solve (definition : Ty → Option Ty) (p : Problem) : Except Clash Subst :=
  match _hp : p.goals with
  | [] => .ok p.subst
  | goal :: rest =>
    match _h : p.meet definition goal rest with
    | .failed clash => .error clash
    | .continued q => q.solve definition
termination_by p.measure
decreasing_by exact meet_below _hp _h

def expansionLimit : Nat := 256

def unify (definition : Ty → Option Ty) (expected actual : Ty) (s : Subst) : Except Clash Subst :=
  Problem.solve definition
    { subst := s
      expansions := expansionLimit
      goals := [.fits false (s.apply expected) (s.apply actual)] }

abbrev unifyPlain : Ty → Ty → Subst → Except Clash Subst := unify fun _ => none

end Polytype
