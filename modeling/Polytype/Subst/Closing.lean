import Polytype.Clash
import Polytype.Subst.Mention

namespace Polytype

/-- A variable together with the record it becomes. -/
structure Closing where
  v : TypeVar
  record : Ty
deriving Inhabited

namespace Subst

def openRecord? (s : Subst) (t : Ty) (level : Nat) : Option (TypeVar × List (String × Ty)) :=
  ((s.apply t).freeVars.filter fun v => level < v.level).findSome? fun v =>
    (s.recordShape v).map fun fields => (v, fields)

theorem records_of_openRecord? {s : Subst} {t : Ty} {level : Nat} {v : TypeVar}
    {shape : List (String × Ty)} (h : s.openRecord? t level = some (v, shape)) :
    ∃ fields, s.records.get? v.id = some fields := by
  obtain ⟨w, -, hw⟩ := List.exists_of_findSome?_eq_some h
  obtain ⟨fields, hf, heq⟩ := Option.map_eq_some_iff.1 hw
  obtain ⟨rfl, rfl⟩ := Prod.mk.inj heq
  unfold recordShape at hf
  split at hf
  · simp at hf
  · obtain ⟨given, hg, -⟩ := Option.map_eq_some_iff.1 hf
    exact ⟨given, hg⟩

/-- Closes the open records of a type above a level. Tells which were closed, and the substitution
that results, or why one could not be closed. -/
def closeRecords (s : Subst) (t : Ty) (level : Nat) : List Closing × Except Clash Subst :=
  match _h : s.openRecord? t level with
  | none => ([], .ok s)
  | some (v, fields) =>
    if (Ty.record fields).mentions v.id then ([], .error (.infinite v (.record fields)))
    else
      let (closed, result) := (s.bind v (.record fields)).closeRecords t level
      (⟨v, .record fields⟩ :: closed, result)
termination_by s.records.length
decreasing_by
  obtain ⟨fields, h⟩ := records_of_openRecord? _h
  exact length_records_bind_lt h

end Subst

end Polytype
