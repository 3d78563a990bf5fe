import Polytype.Proofs.Subst.LevelOrder

namespace Polytype

open Ty Goal

theorem Ty.Within.mono {C D : Nat → Prop} (h : ∀ id, C id → D id) {t : Ty} (ht : Within C t) :
    Within D t :=
  within_iff.2 fun v hv => h _ (within_iff.1 ht v hv)

namespace Subst

/-- All variables that the substitution mentions belong to `C`. -/
structure MentionsOnly (C : Nat → Prop) (s : Subst) : Prop where
  types : ∀ entry ∈ s.types, C entry.1 ∧ Ty.Within C entry.2
  levels : ∀ entry ∈ s.levels, C entry.1
  records : ∀ entry ∈ s.records, C entry.1 ∧ ∀ field ∈ entry.2, Ty.Within C field.2

section

variable {C : Nat → Prop} {s : Subst} (hs : s.MentionsOnly C)

include hs

theorem MentionsOnly.mono {D : Nat → Prop} (h : ∀ id, C id → D id) : s.MentionsOnly D where
  types entry he := ⟨h _ (hs.types entry he).1, (hs.types entry he).2.mono h⟩
  levels entry he := h _ (hs.levels entry he)
  records entry he :=
    ⟨h _ (hs.records entry he).1, fun field hf => ((hs.records entry he).2 field hf).mono h⟩

/-! ## Reading -/

theorem MentionsOnly.keeps : s.Keeps C (Ty.Within C) where
  types _ ht := (hs.types _ (Assoc.mem_of_get? ht)).2
  records _ _ hf := .record trivial (hs.records _ (Assoc.mem_of_get? hf)).2

theorem MentionsOnly.apply {t : Ty} (ht : Ty.Within C t) : Ty.Within C (s.apply t) :=
  hs.keeps.apply (hereditary_within C) (levelsAbove_zero s) ht

theorem MentionsOnly.applyFields {fields : List (String × Ty)}
    (hfields : ∀ field ∈ fields, Ty.Within C field.2) :
    ∀ field ∈ s.applyFields fields, Ty.Within C field.2 := by
  intro field hf
  obtain ⟨given, hgiven, rfl⟩ := List.mem_map.1 hf
  exact hs.apply (hfields given hgiven)

theorem MentionsOnly.recordShape {v : TypeVar} {shape : List (String × Ty)}
    (h : s.recordShape v = some shape) : Ty.Within C (.record shape) := by
  unfold Subst.recordShape at h
  split at h
  · simp at h
  · obtain ⟨fields, hf, rfl⟩ := Option.map_eq_some_iff.1 h
    exact .record trivial (hs.applyFields (hs.records _ (Assoc.mem_of_get? hf)).2)

theorem MentionsOnly.knownField {v : TypeVar} {field : String} {t : Ty}
    (h : s.knownField v field = some t) : Ty.Within C t := by
  unfold Subst.knownField at h
  obtain ⟨u, hu, rfl⟩ := Option.map_eq_some_iff.1 h
  obtain ⟨fields, hf, hu⟩ := Option.bind_eq_some_iff.1 hu
  exact hs.apply ((hs.records _ (Assoc.mem_of_get? hf)).2 _ (Assoc.mem_of_get? hu))

theorem MentionsOnly.reachable {t : Ty} (ht : Ty.Within C t) : ∀ v ∈ s.reachable t, C v.id :=
  forall_reachable (fun _ hfields field hf => within_iff.1
    (hs.apply ((hs.records _ (Assoc.mem_of_get? hfields)).2 field hf))) (within_iff.1 (hs.apply ht))

theorem MentionsOnly.loweredLevels {t : Ty} (ht : Ty.Within C t) (level : Nat) :
    ∀ entry ∈ s.loweredLevels t level, C entry.1 := by
  intro entry he
  obtain ⟨-, v, hv, hid, -⟩ := mem_loweredLevels he
  exact hid ▸ hs.reachable ht v hv

/-! ## Changing -/

omit hs in
theorem mem_lowest {levels newer : Assoc Nat Nat} {entry : Nat × Nat}
    (h : entry ∈ lowest levels newer) :
    (∃ old ∈ levels, old.1 = entry.1) ∨ ∃ new ∈ newer, new.1 = entry.1 := by
  induction newer generalizing levels with
  | nil => exact .inl ⟨entry, h, rfl⟩
  | cons first newer ih =>
    rw [lowest_cons] at h
    rcases ih h with ⟨old, hold, hid⟩ | ⟨new, hnew, hid⟩
    · rcases Assoc.mem_of_mem_insert hold with rfl | hold
      · exact .inr ⟨first, List.mem_cons_self, hid⟩
      · exact .inl ⟨old, hold, hid⟩
    · exact .inr ⟨new, List.mem_cons_of_mem _ hnew, hid⟩

theorem MentionsOnly.compose {newer : Subst} (hnewer : newer.MentionsOnly C)
    (hn : newer.records = []) : (newer.compose s).MentionsOnly C where
  types entry he := by
    rcases Assoc.mem_of_mem_insertAll he with he | he
    · exact hnewer.types entry he
    · obtain ⟨given, hgiven, rfl⟩ := List.mem_map.1 he
      exact ⟨(hs.types given hgiven).1, hnewer.apply (hs.types given hgiven).2⟩
  levels entry he := by
    rcases mem_lowest he with ⟨old, hold, hid⟩ | ⟨new, hnew, hid⟩
    · exact hid ▸ hs.levels old hold
    · exact hid ▸ hnewer.levels new hnew
  records entry he := by
    rw [compose_records hn] at he
    obtain ⟨given, hgiven, rfl⟩ := List.mem_map.1 he
    have kept := hs.records given (List.mem_filter.1 hgiven).1
    exact ⟨kept.1, hnewer.applyFields kept.2⟩

theorem MentionsOnly.bind {v : TypeVar} {t : Ty} (hv : C v.id) (ht : Ty.Within C t) :
    (s.bind v t).MentionsOnly C := by
  have front : (s.binding v t).MentionsOnly C := by
    refine ⟨fun entry he => ?_, hs.loweredLevels ht v.level, fun entry he => by simp [binding] at he⟩
    obtain rfl := List.mem_singleton.1 he
    exact ⟨hv, ht⟩
  have composed : ((s.binding v t).compose s).MentionsOnly C := hs.compose front rfl
  exact ⟨composed.types, composed.levels,
    fun entry he => composed.records entry (List.mem_filter.1 he).1⟩

theorem MentionsOnly.lower {t : Ty} (ht : Ty.Within C t) (level : Nat) :
    (s.lower t level).MentionsOnly C := by
  unfold Subst.lower
  dsimp only
  split
  · exact hs
  · refine hs.compose ⟨by simp, hs.loweredLevels ht level, by simp⟩ rfl

theorem MentionsOnly.requireField {v : TypeVar} (hv : C v.id) (field : String) {t : Ty}
    (ht : Ty.Within C t) : (s.requireField v field t).MentionsOnly C := by
  obtain ⟨level, heq⟩ : ∃ level, s.requireField v field t =
      { s.lower t level with
        records := (s.lower t level).records.insert v.id
          (Assoc.insert (((s.lower t level).records.get? v.id).getD []) field t) } := ⟨_, rfl⟩
  have lowered := hs.lower ht level
  rw [heq]
  refine ⟨lowered.types, lowered.levels, fun entry he => ?_⟩
  rcases Assoc.mem_of_mem_insert he with rfl | he
  · refine ⟨hv, fun given hgiven => ?_⟩
    rcases Assoc.mem_of_mem_insert hgiven with rfl | hgiven
    · exact ht
    · cases hf : (s.lower t level).records.get? v.id with
      | none => simp [hf] at hgiven
      | some fields =>
        exact (lowered.records _ (Assoc.mem_of_get? hf)).2 given (by simpa [hf] using hgiven)
  · exact lowered.records entry he

theorem MentionsOnly.closeRecords {t : Ty} (ht : Ty.Within C t) {level : Nat} {s' : Subst}
    (h : (s.closeRecords t level).2 = .ok s') : s'.MentionsOnly C := by
  fun_induction Subst.closeRecords s t level with
  | case1 s hopen =>
    cases h
    exact hs
  | case2 => simp at h
  | case3 s v fields hopen _ closed result hrec ih =>
    obtain ⟨hv, hshape⟩ := openRecord?_spec hopen
    refine ih (hs.bind (within_iff.1 (hs.apply ht) v hv) ?_) (by simpa [hrec] using h)
    exact hs.recordShape hshape

end

end Subst

/-! ## Unification -/

/-- All variables that the goal mentions belong to `C`. -/
abbrev Goal.MentionsOnly (C : Nat → Prop) : Goal → Prop := Goal.Over (Ty.Within C) (Ty.Within C)

section

variable {C : Nat → Prop} {definition : Ty → Option Ty} {s : Subst} (hs : s.MentionsOnly C)

include hs

theorem Goal.MentionsOnly.refresh {goal : Goal} (h : goal.MentionsOnly C) :
    (goal.refresh s).MentionsOnly C := by
  cases goal with
  | fits exact expected actual => exact ⟨hs.apply h.1, hs.apply h.2⟩
  | carries | impossible => exact h

theorem Moves.mentionsOnly {goal : Goal} {s' : Subst} {new : List Goal} (h : Moves s goal s' new)
    (hgoal : goal.MentionsOnly C) : s'.MentionsOnly C ∧ ∀ g ∈ new, g.MentionsOnly C := by
  have assigned {v : TypeVar} {t : Ty} (hv : Ty.Within C (.var v)) (ht : Ty.Within C t) :
      (s.bind v t).MentionsOnly C ∧
        ∀ g ∈ ((s.recordShape v).map (demands t)).getD [], g.MentionsOnly C := by
    have hC : Hereditary C anyLevel (Ty.Within C) := hereditary_within C
    exact ⟨hs.bind (everywhere_var.1 hv) ht,
      over_demanded hC ht ht fun _ hshape => ⟨hs.recordShape hshape, hs.recordShape hshape⟩⟩
  cases h with
  | expected => exact assigned hgoal.1 hgoal.2
  | actual => exact assigned hgoal.2 hgoal.1
  | record =>
    have ht := (everywhere_record.1 hgoal.2).2 _ List.mem_cons_self
    exact ⟨hs.requireField (everywhere_var.1 hgoal.1) _ ht, by simp⟩

theorem Subst.MentionsOnly.unify
    (hdef : ∀ t t', Ty.Within C t → definition t = some t' → Ty.Within C t') {expected actual : Ty}
    (hexpected : Ty.Within C expected) (hactual : Ty.Within C actual) {s' : Subst}
    (h : unify definition expected actual s = .ok s') : s'.MentionsOnly C := by
  refine Problem.solve_induction
    (motive := fun s goals => s.MentionsOnly C → (∀ g ∈ goals, g.MentionsOnly C) →
      s'.MentionsOnly C)
    (fun hs _ => hs) ?split ?move h hs ?start
  case split =>
    intro s goal new rest hsplit later hs hgoals
    obtain ⟨hgoal, hrest⟩ := List.forall_mem_cons.1 hgoals
    have hC : Hereditary C anyLevel (Ty.Within C) := hereditary_within C
    refine later hs (List.forall_mem_append.2 ⟨?_, hrest⟩)
    refine hsplit.over hC (fun v shape _ hshape => hs.recordShape hshape)
      (fun field t ht => ?_) (fun t t' ht heq => hs.apply (hdef t t' ht heq)) hgoal
    exact hs.apply ((everywhere_record.1 ht).2 _ List.mem_cons_self)
  case move =>
    intro s goal s' new rest hmove later hs hgoals
    obtain ⟨hgoal, hrest⟩ := List.forall_mem_cons.1 hgoals
    obtain ⟨hs', hnew⟩ := hmove.mentionsOnly hs hgoal
    refine later hs' (List.forall_mem_map.2 fun g hg => ?_)
    exact (List.forall_mem_append.2 ⟨hnew, hrest⟩ g hg).refresh hs'
  case start =>
    intro g hg
    obtain rfl := List.mem_singleton.1 hg
    exact ⟨hs.apply hexpected, hs.apply hactual⟩

end

end Polytype
