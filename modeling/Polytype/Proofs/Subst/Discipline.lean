import Mathlib.Data.List.Permutation
import Polytype.Proofs.Subst.LevelOrder
import Polytype.Proofs.Subst.Operation

namespace Polytype

open Ty

namespace Subst

variable {birth : Nat → Nat}

/-- All types that an operation works on have their variables at the levels they were created
at. -/
def Operation.Born (birth : Nat → Nat) : Operation → Prop
  | unify env expected actual => env.Born birth ∧ expected.Born birth ∧ actual.Born birth
  | requireField v _ t => (Ty.var v).Born birth ∧ t.Born birth
  | fieldOf v _ fresh => (Ty.var v).Born birth ∧ fresh.Born birth
  | lower t _ => t.Born birth
  | closeRecords t _ => t.Born birth

theorem Disciplined.outcome {s s' : Subst} (hd : s.Disciplined birth) {operation : Operation}
    (born : operation.Born birth) (h : operation.Outcome s s') : s'.Disciplined birth := by
  cases h with
  | unchanged => exact hd
  | unified h => exact (disciplined_unify born.1.expand h hd born.2.1.between born.2.2.between).1
  | required | asked => exact hd.requireField (everywhere_var.1 born.1.between) born.2.between
  | lowered => exact hd.lower born.between
  | closed h => exact hd.closeRecords born.between h

theorem disciplined_built {operations : List Operation}
    (h : ∀ operation ∈ operations, operation.Born birth) :
    (built operations).Disciplined birth := by
  unfold built
  have start := disciplined_empty birth
  generalize Subst.empty = s at start
  induction operations generalizing s with
  | nil => exact start
  | cons operation operations ih =>
    obtain ⟨first, others⟩ := List.forall_mem_cons.1 h
    exact ih others _ (start.outcome first (operation.outcome_run s))

theorem Disciplined.reached {s : Subst} (hd : s.Disciplined birth) {x y : Nat}
    (h : s.Reached (fun id => (s.apply (.var ⟨x, birth x⟩)).mentions id = true) y) :
    s.level birth y ≤ s.level birth x := by
  induction h with
  | start h =>
    refine hd.types ?_
    rwa [← mentions_erase, hd.resolved.erase_apply, subst_var] at h
  | field _ unbound hfields hf hmem ih =>
    exact Nat.le_trans (hd.records unbound ⟨_, hfields, _, hf, hmem⟩) ih

/-- After a unification nothing that can be reached from a variable is above the level that the
variable had before, and every variable of an applied type occurs at its level. -/
theorem level_le_of_reached {operations : List Operation}
    (born : ∀ operation ∈ operations, operation.Born birth) {env : Env} {expected actual : Ty}
    (inputs : (Operation.unify env expected actual).Born birth) {s' : Subst}
    (h : unify env.expand expected actual (built operations) = .ok s') :
    (∀ x y, s'.Reached (fun id => (s'.apply (.var ⟨x, birth x⟩)).mentions id = true) y →
      s'.level birth y ≤ (built operations).level birth x) ∧
    ∀ t : Ty, t.Born birth →
      (∀ v ∈ ((built operations).apply t).vars, v.level = (built operations).level birth v.id) ∧
      ∀ v ∈ (s'.apply t).vars, v.level = s'.level birth v.id := by
  have hd := disciplined_built born
  obtain ⟨hd', hle⟩ :=
    disciplined_unify inputs.1.expand h hd inputs.2.1.between inputs.2.2.between
  refine ⟨fun x y hy => Nat.le_trans (hd'.reached hy) (hle x), fun t ht => ⟨?_, ?_⟩⟩
  · exact allVars_iff.1 (hd.current_apply ht.between).1
  · exact allVars_iff.1 (hd'.current_apply ht.between).1

/-- The variable `2` was created at level 6. It is recorded for `1`, which becomes what `0` stands
for, and so it goes down to the level of `0`. -/
theorem level_le_of_reached_field :
    let birth : Nat → Nat := fun id => [1, 4, 6].getD id 0
    let s := built [.requireField ⟨1, 4⟩ "x" (.list (.var ⟨2, 6⟩))]
    let s' : Subst :=
      { types := [(0, .var ⟨1, 4⟩)]
        levels := [(1, 1), (2, 1)]
        records := [(1, [("x", .list (.var ⟨2, 1⟩))])] }
    unify Env.empty.expand (.var ⟨0, 1⟩) (.var ⟨1, 4⟩) s = .ok s' ∧
      s'.Reached (fun id => (s'.apply (.var ⟨0, 1⟩)).mentions id = true) 2 ∧
      s'.level birth 2 ≤ s.level birth 0 := by
  intro birth s s'
  have h : unify Env.empty.expand (.var ⟨0, 1⟩) (.var ⟨1, 4⟩) s = .ok s' := by
    simp only [s, s']
    cbv
  have start : s'.Reached (fun id => (s'.apply (.var ⟨0, 1⟩)).mentions id = true) 1 :=
    .start (by decide)
  have reached : s'.Reached (fun id => (s'.apply (.var ⟨0, 1⟩)).mentions id = true) 2 :=
    start.field rfl rfl List.mem_cons_self (by decide)
  have born (v : TypeVar) (hv : v.level = birth v.id) : (Ty.var v).Born birth := .var hv
  have recorded : ∀ operation ∈ [Operation.requireField ⟨1, 4⟩ "x" (.list (.var ⟨2, 6⟩))],
      operation.Born birth := by
    simp only [List.mem_singleton, forall_eq]
    exact ⟨born _ rfl, .app trivial (.const trivial) (by simpa using born ⟨2, 6⟩ rfl)⟩
  have inputs : (Operation.unify .empty (.var ⟨0, 1⟩) (.var ⟨1, 4⟩)).Born birth :=
    ⟨fun entry hentry => by simp [Env.empty] at hentry, born _ rfl, born _ rfl⟩
  exact ⟨h, reached, (level_le_of_reached recorded inputs h).1 0 2 reached⟩

end Subst

end Polytype
