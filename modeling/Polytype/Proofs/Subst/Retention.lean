import Polytype.Proofs.Subst.Operation

namespace Polytype.Subst

def Records (s : Subst) (id : Nat) (field : String) : Prop :=
  ∃ fields, s.records.get? id = some fields ∧ field ∈ Assoc.keys fields

def Retains (s s' : Subst) : Prop :=
  ∀ id, s'.isBound id = false →
    s.isBound id = false ∧ ∀ field, s.Records id field → s'.Records id field

variable {s s' : Subst}

theorem Retains.refl (s : Subst) : s.Retains s := fun _ unbound => ⟨unbound, fun _ h => h⟩

theorem Retains.trans {s'' : Subst} (h : s.Retains s') (h' : s'.Retains s'') : s.Retains s'' := by
  intro id unbound
  obtain ⟨unbound', kept'⟩ := h' id unbound
  obtain ⟨unbound'', kept⟩ := h id unbound'
  exact ⟨unbound'', fun field recorded => kept' field (kept field recorded)⟩

theorem Records.mapped {id : Nat} {field : String} (h : s.Records id field) (θ : Subst)
    (same : s'.records.get? id = (s.records.get? id).map θ.applyFields) : s'.Records id field := by
  obtain ⟨fields, hfields, hfield⟩ := h
  refine ⟨θ.applyFields fields, by rw [same, hfields, Option.map_some], ?_⟩
  simpa [applyFields, Assoc.keys, Assoc.mapValues] using hfield

/-! ## One operation -/

theorem retains_bind (s : Subst) (v : TypeVar) (t : Ty) : s.Retains (s.bind v t) := by
  intro id unbound
  simp only [isBound_bind, Bool.or_eq_false_iff, beq_eq_false_iff_ne] at unbound
  refine ⟨unbound.2, fun field recorded => recorded.mapped (s.binding v t) ?_⟩
  rw [get?_records_bind, if_neg (by simp [unbound])]

theorem retains_lower (s : Subst) (t : Ty) (level : Nat) : s.Retains (s.lower t level) := by
  intro id unbound
  rw [isBound_lower] at unbound
  obtain ⟨levels, -, lowered⟩ := exists_lower s t level
  exact ⟨unbound, fun field recorded => recorded.mapped { levels } ((lowered id).2.1 unbound)⟩

theorem records_requireField (s : Subst) (v : TypeVar) (field : String) (t : Ty) :
    (s.requireField v field t).Records v.id field := by
  obtain ⟨level, -, -, hrecords⟩ := exists_requireField s v field t
  exact ⟨_, by rw [hrecords, if_pos rfl], Assoc.mem_keys_insert.2 (.inl rfl)⟩

theorem retains_requireField (s : Subst) (v : TypeVar) (field : String) (t : Ty) :
    s.Retains (s.requireField v field t) := by
  obtain ⟨level, -, -, hrecords⟩ := exists_requireField s v field t
  intro id unbound
  rw [isBound_requireField] at unbound
  refine ⟨unbound, fun other recorded => ?_⟩
  obtain ⟨fields, hfields, hother⟩ :=
    (retains_lower s t level id ((isBound_lower s t level id).trans unbound)).2 other recorded
  by_cases hid : v.id = id
  · subst hid
    refine ⟨_, by rw [hrecords, if_pos rfl], ?_⟩
    rw [hfields]
    exact Assoc.mem_keys_insert.2 (.inr hother)
  · exact ⟨fields, by rw [hrecords, if_neg hid, hfields], hother⟩

theorem retains_of_moves {goal : Goal} {new : List Goal} (h : Moves s goal s' new) :
    s.Retains s' := by
  cases h with
  | expected | actual => exact retains_bind s _ _
  | record => exact retains_requireField s _ _ _

theorem retains_unify {definition : Ty → Option Ty} {expected actual : Ty}
    (h : unify definition expected actual s = .ok s') : s.Retains s' :=
  Problem.solve_induction (motive := fun s _ => s.Retains s') (.refl s')
    (fun _ later => later) (fun move later => (retains_of_moves move).trans later) h

theorem retains_closeRecords {t : Ty} {level : Nat} (h : (s.closeRecords t level).2 = .ok s') :
    s.Retains s' := by
  fun_induction closeRecords s t level with
  | case1 s hopen =>
    cases h
    exact .refl _
  | case2 => simp at h
  | case3 s v fields hopen mentions closed result hrec ih =>
    exact (retains_bind s v _).trans (ih (by simpa [hrec] using h))

theorem retains_outcome {operation : Operation} (h : operation.Outcome s s') : s.Retains s' := by
  cases h with
  | unchanged => exact .refl s
  | unified h => exact retains_unify h
  | required | asked => exact retains_requireField s _ _ _
  | lowered => exact retains_lower s _ _
  | closed h => exact retains_closeRecords h

end Polytype.Subst
