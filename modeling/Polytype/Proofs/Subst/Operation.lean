import Polytype.Env.Alias
import Polytype.Proofs.Subst.Evolution

namespace Polytype.Subst

open Ty

inductive Operation where
  | unify (env : Env) (expected actual : Ty)
  | requireField (v : TypeVar) (field : String) (t : Ty)
  /-- Asks for a field, which gets the type `fresh` if it is not recorded yet. -/
  | fieldOf (v : TypeVar) (field : String) (fresh : Ty)
  | lower (t : Ty) (level : Nat)
  | closeRecords (t : Ty) (level : Nat)

def Operation.run (s : Subst) : Operation → Subst
  | unify env expected actual =>
    match Polytype.unify env.expand expected actual s with
    | .ok s' => s'
    | .error _ => s
  | requireField v field t => s.requireField v field t
  | fieldOf v field fresh =>
    match s.knownField v field with
    | some _ => s
    | none => s.requireField v field fresh
  | lower t level => s.lower t level
  | closeRecords t level =>
    match (s.closeRecords t level).2 with
    | .ok s' => s'
    | .error _ => s

/-- What an operation can come to: nothing, if it fails or asks for a field that is recorded, or a
change of the substitution. -/
inductive Operation.Outcome (s : Subst) : Operation → Subst → Prop
  | unchanged {operation} : Outcome s operation s
  | unified {env expected actual s'} : Polytype.unify env.expand expected actual s = .ok s' →
      Outcome s (unify env expected actual) s'
  | required {v field t} : Outcome s (requireField v field t) (s.requireField v field t)
  | asked {v field fresh} : Outcome s (fieldOf v field fresh) (s.requireField v field fresh)
  | lowered {t level} : Outcome s (lower t level) (s.lower t level)
  | closed {t level s'} : (s.closeRecords t level).2 = .ok s' → Outcome s (closeRecords t level) s'

theorem Operation.outcome_run (s : Subst) (operation : Operation) :
    operation.Outcome s (operation.run s) := by
  cases operation with
  | requireField => exact .required
  | lower => exact .lowered
  | unify env expected actual =>
    simp only [run]
    split
    · exact .unified ‹_›
    · exact .unchanged
  | fieldOf v field fresh =>
    simp only [run]
    split
    · exact .unchanged
    · exact .asked
  | closeRecords t level =>
    simp only [run]
    split
    · exact .closed ‹_›
    · exact .unchanged

/-- The substitution that operations build from the empty one. -/
def built (operations : List Operation) : Subst :=
  operations.foldl Operation.run .empty

/-! ## Resolved substitutions -/

theorem hereditary_true {lo : Nat → Nat} : Hereditary anyId lo fun _ => True := by
  constructor <;> intros <;> trivial

theorem Evolves.extends {definition : Ty → Option Ty} {inputs : List Ty} {s s' : Subst}
    (h : Evolves definition inputs s s') (hs : s.Resolved) : s.Extends anyId (fun _ => True) s' :=
  h.extension hereditary_true (fun _ _ _ _ => trivial) (levelsAbove_zero s') hs
    ⟨fun _ _ => trivial, fun _ _ _ => trivial⟩ fun _ _ => trivial

theorem Resolved.extends_outcome {s s' : Subst} (hs : s.Resolved) {operation : Operation}
    (h : operation.Outcome s s') : s.Extends anyId (fun _ => True) s' := by
  cases h with
  | unchanged => exact .refl hs ⟨fun _ _ => trivial, fun _ _ _ => trivial⟩
  | unified h => exact (evolves_unify h).extends hs
  | required | asked => exact (@evolves_requireField (fun _ => none) s _ _ _).extends hs
  | lowered => exact (@evolves_lower (fun _ => none) s _ _).extends hs
  | closed h => exact (@evolves_closeRecords (fun _ => none) _ _ _ _ h).extends hs

theorem Resolved.run {s : Subst} (hs : s.Resolved) (operation : Operation) :
    (operation.run s).Resolved := (hs.extends_outcome (operation.outcome_run s)).resolved

theorem resolved_built (operations : List Operation) : (built operations).Resolved := by
  unfold built
  have start : Subst.empty.Resolved := fun _ _ h => by simp [Subst.empty] at h
  generalize Subst.empty = s at start
  induction operations generalizing s with
  | nil => exact start
  | cons operation operations ih => exact ih _ (start.run operation)

/-! ## Applying a resolved substitution -/

theorem relevel_relevel (s : Subst) (v : TypeVar) : s.relevel (s.relevel v) = s.relevel v := by
  cases h : s.levels.get? v.id with
  | none => simp [relevel, h]
  | some level =>
    have lowered : s.relevel v = { v with level := min level v.level } := by simp [relevel, h]
    rw [lowered]
    simp [relevel, h]

theorem Resolved.resolve_of_le {s : Subst} (hs : s.Resolved) {steps : Nat} (h : s.size ≤ steps)
    (v : TypeVar) : s.resolve steps v = s.resolve s.size v := by
  rw [hs.resolve]
  cases ht : s.types.get? v.id with
  | none => exact resolve_unbound (isBound_eq_false.2 ht) steps
  | some t =>
    have nonempty : 0 < s.size := List.length_pos_of_mem (Assoc.mem_of_get? ht)
    obtain ⟨fewer, rfl⟩ : ∃ fewer, steps = fewer + 1 := ⟨steps - 1, by omega⟩
    simp only [Subst.resolve, ht]
    exact mapVars_congr fun w hw => resolve_unbound (within_iff.1 (hs _ _ ht) w hw) fewer

theorem Resolved.apply_apply {s : Subst} (hs : s.Resolved) (t : Ty) :
    s.apply (s.apply t) = s.apply t := by
  have unchanged : ∀ w ∈ (s.apply t).vars, s.resolve s.size w = .var w := by
    intro w hw
    obtain ⟨x, rfl, unbound, -⟩ := hs.mem_vars_apply hw
    rw [resolve_unbound (by simpa using unbound), relevel_relevel]
  calc s.apply (s.apply t) = (s.apply t).mapVars .var := mapVars_congr unchanged
    _ = s.apply t := mapVars_var _

/-- Whatever is built from the empty substitution is resolved. Applying it leaves no bound variable,
however far bindings are followed, and applying it again changes nothing. -/
theorem apply_built (operations : List Operation) :
    let s := built operations
    s.Resolved ∧ ∀ t, s.Settled (s.apply t) ∧ s.apply (s.apply t) = s.apply t ∧
      ∀ steps, s.size ≤ steps → t.mapVars (s.resolve steps) = s.apply t := by
  intro s
  have hs : s.Resolved := resolved_built operations
  refine ⟨hs, fun t => ⟨hs.settled_apply t, hs.apply_apply t, fun steps h => ?_⟩⟩
  exact mapVars_congr fun v _ => hs.resolve_of_le h v

end Polytype.Subst
