import Polytype.Proofs.Inference.History
import Polytype.Proofs.Subst.Image

namespace Polytype.Subst

open Ty

def Link (s : Subst) (id other : Nat) : Prop :=
  ∃ fields, s.records.get? id = some fields ∧
    ∃ field ∈ fields, (s.apply field.2).mentions other = true

/-! ## The search -/

section Visit

variable {s : Subst} {records : Assoc Nat (List (String × Ty))} {seen pending : List TypeVar}

theorem mem_fieldVars {fields : List (String × Ty)} {field : String × Ty} (hf : field ∈ fields)
    {id : Nat} (h : (s.apply field.2).mentions id = true) : id ∈ (s.fieldVars fields).map (·.id) := by
  obtain ⟨v, hv, hid⟩ := mentions_iff.1 h
  obtain ⟨u, hu, hid'⟩ := exists_mem_freeVars hv
  exact List.mem_map.2 ⟨u, List.mem_flatMap.2 ⟨field, hf, hu⟩, hid'.trans hid⟩

/-- The links of the variables seen so far lead to variables that are seen or pending. At the end
none is pending. -/
theorem visit_closed
    (hrecords : ∀ id, id ∉ seen.map (·.id) → records.get? id = s.records.get? id)
    (hseen : ∀ id ∈ seen.map (·.id), ∀ other, s.Link id other →
      other ∈ seen.map (·.id) ∨ other ∈ pending.map (·.id)) :
    (∀ id, id ∈ seen.map (·.id) ∨ id ∈ pending.map (·.id) →
      id ∈ (s.visit records seen pending).map (·.id)) ∧
    ∀ id ∈ (s.visit records seen pending).map (·.id), ∀ other, s.Link id other →
      other ∈ (s.visit records seen pending).map (·.id) := by
  fun_induction visit s records seen pending with
  | case1 records seen =>
    refine ⟨fun id h => by simpa using h, fun id hid other link => ?_⟩
    simpa using hseen id hid other link
  | case2 records seen v rest again ih =>
    -- A variable that has been seen need not be pending any more.
    have known : v.id ∈ seen.map (·.id) := by simpa using again
    have drop {id : Nat} (h : id ∈ seen.map (·.id) ∨ id ∈ (v :: rest).map (·.id)) :
        id ∈ seen.map (·.id) ∨ id ∈ rest.map (·.id) := by
      rcases h with h | h
      · exact .inl h
      · rcases List.mem_cons.1 h with rfl | h
        · exact .inl known
        · exact .inr h
    obtain ⟨found, closed⟩ := ih hrecords fun id hid other link => drop (hseen id hid other link)
    exact ⟨fun id h => found id (drop h), closed⟩
  | case3 records seen v rest new hnone ih =>
    have move {id : Nat} (h : id ∈ seen.map (·.id) ∨ id ∈ (v :: rest).map (·.id)) :
        id ∈ (v :: seen).map (·.id) ∨ id ∈ rest.map (·.id) := by
      simp only [List.map_cons, List.mem_cons] at h ⊢
      tauto
    have fresh : v.id ∉ seen.map (·.id) := by simpa using new
    obtain ⟨found, closed⟩ := ih
      (fun id hid => hrecords id fun h => hid (List.mem_cons_of_mem _ h))
      (fun id hid other link => by
        rcases List.mem_cons.1 hid with rfl | hid
        · obtain ⟨fields, hfields, -⟩ := link
          rw [← hrecords _ fresh, hnone] at hfields
          simp at hfields
        · exact move (hseen id hid other link))
    exact ⟨fun id h => found id (move h), closed⟩
  | case4 records seen v rest new fields hfields ih =>
    -- The variables of its fields become pending, and its record is dropped for the rest.
    have fresh : v.id ∉ seen.map (·.id) := by simpa using new
    have move {id : Nat} (h : id ∈ seen.map (·.id) ∨ id ∈ (v :: rest).map (·.id)) :
        id ∈ (v :: seen).map (·.id) ∨
          id ∈ ((s.fieldVars fields).reverse ++ rest).map (·.id) := by
      simp only [List.map_cons, List.mem_cons, List.map_append, List.mem_append] at h ⊢
      tauto
    obtain ⟨found, closed⟩ := ih
      (fun id hid => by
        simp only [List.map_cons, List.mem_cons, not_or] at hid
        rw [Assoc.get?_erase, if_neg fun heq => hid.1 heq.symm]
        exact hrecords id hid.2)
      (fun id hid other link => by
        rcases List.mem_cons.1 hid with rfl | hid
        · obtain ⟨given, hgiven, field, hf, hmem⟩ := link
          rw [← hrecords _ fresh, hfields] at hgiven
          cases hgiven
          refine .inr ?_
          rw [List.map_append, List.map_reverse]
          exact List.mem_append_left _ (List.mem_reverse.2 (mem_fieldVars hf hmem))
        · exact move (hseen id hid other link))
    exact ⟨fun id h => found id (move h), closed⟩

end Visit

section Reachable

variable {s : Subst} {t : Ty}

theorem reachable_closed : (∀ id, (s.apply t).mentions id = true →
      id ∈ (s.reachable t).map (·.id)) ∧
    ∀ id ∈ (s.reachable t).map (·.id), ∀ other, s.Link id other →
      other ∈ (s.reachable t).map (·.id) := by
  obtain ⟨found, closed⟩ := @visit_closed s s.records [] (s.apply t).freeVars.reverse
    (fun _ _ => rfl) (by simp)
  refine ⟨fun id h => found id (.inr ?_), closed⟩
  obtain ⟨v, hv, hid⟩ := mentions_iff.1 h
  obtain ⟨u, hu, hid'⟩ := exists_mem_freeVars hv
  exact List.mem_map.2 ⟨u, List.mem_reverse.2 hu, hid'.trans hid⟩

theorem Resolved.unbound_reachable (hs : s.Resolved) {id : Nat}
    (h : id ∈ (s.reachable t).map (·.id)) : s.isBound id = false := by
  obtain ⟨v, hv, rfl⟩ := List.mem_map.1 h
  have unbound (u : Ty) : ∀ w ∈ (s.apply u).vars, s.isBound w.id = false :=
    within_iff.1 (hs.settled_apply u)
  exact forall_reachable (fun _ _ field _ => unbound field.2) (unbound t) v hv

end Reachable

/-! ## Levels -/

/-- The level of a variable that was created at the level `birth id`. -/
def level (s : Subst) (birth : Nat → Nat) (id : Nat) : Nat := (s.relevel ⟨id, birth id⟩).level

def Between (birth : Nat → Nat) (s : Subst) (v : TypeVar) : Prop :=
  s.level birth v.id ≤ v.level ∧ v.level ≤ birth v.id

section Level

variable {birth : Nat → Nat} {s s' : Subst} {id l : Nat}

theorem level_of_none (h : s.levels.get? id = none) : s.level birth id = birth id := by
  simp [level, relevel, h]

theorem level_of_some (h : s.levels.get? id = some l) :
    s.level birth id = min l (birth id) := by
  simp [level, relevel, h]

theorem level_le_birth : s.level birth id ≤ birth id := by
  cases h : s.levels.get? id with
  | none => exact Nat.le_of_eq (level_of_none h)
  | some l =>
    rw [level_of_some h]
    exact Nat.min_le_right _ _

theorem levelsAbove_level : s.LevelsAbove (s.level birth) := fun id l h => by
  rw [level_of_some h]
  exact Nat.min_le_left _ _

theorem hereditary_between : Hereditary anyId (s.level birth) (AllVars (s.Between birth)) :=
  hereditary_allVars (fun _ _ => trivial) fun _ _ h hlo hl => ⟨hlo, Nat.le_trans hl h.2⟩

theorem Between.relevel {v : TypeVar} (h : s.Between birth v) :
    s.relevel v = ⟨v.id, s.level birth v.id⟩ := by
  obtain ⟨id, l⟩ := v
  have lower : s.level birth id ≤ l := h.1
  have upper : l ≤ birth id := h.2
  cases hl : s.levels.get? id with
  | none =>
    rw [level_of_none hl] at lower ⊢
    simp [Subst.relevel, hl, Nat.le_antisymm upper lower]
  | some entry =>
    rw [level_of_some hl] at lower ⊢
    simp only [Subst.relevel, hl, TypeVar.mk.injEq, true_and]
    omega

end Level

/-! ## Levels after lowering -/

theorem mem_loweredLevels_of_lt {s : Subst} {t : Ty} {n : Nat} {v : TypeVar}
    (hv : v ∈ s.reachable t) (h : n < v.level) : (v.id, n) ∈ s.loweredLevels t n := by
  cases hget : (s.loweredLevels t n).get? v.id with
  | none =>
    refine absurd rfl ((Assoc.get?_insertAll_eq_none.1 hget).2 (v.id, n) ?_)
    exact List.mem_map.2 ⟨v, List.mem_filter.2 ⟨hv, by simpa using h⟩, rfl⟩
  | some l =>
    have mem := Assoc.mem_of_get? hget
    obtain rfl : l = n := (mem_loweredLevels mem).1
    exact mem

section Lowered

variable {birth : Nat → Nat} {s s' : Subst} {t : Ty} {n id : Nat}
  (hlevels : s'.levels = lowest s.levels (s.loweredLevels t n))

include hlevels in
theorem level_le_of_lowest : s'.level birth id ≤ s.level birth id := by
  cases h : s.levels.get? id with
  | none =>
    rw [level_of_none h]
    exact level_le_birth
  | some l =>
    obtain ⟨l', hle, hget⟩ := @lowest_le s.levels (s.loweredLevels t n) id l h
    rw [← hlevels] at hget
    rw [level_of_some h, level_of_some hget]
    omega

include hlevels in
theorem level_le_of_reachable (hs : s.Resolved)
    (keeps : s.Keeps anyId (AllVars (s.Between birth))) (ht : AllVars (s.Between birth) t)
    (h : id ∈ (s.reachable t).map (·.id)) : s'.level birth id ≤ n := by
  obtain ⟨v, hv, rfl⟩ := List.mem_map.1 h
  have between : s.Between birth v :=
    everywhere_var.1 (keeps.reachable hereditary_between levelsAbove_level hs ht v hv)
  by_cases hlt : n < v.level
  · obtain ⟨l, hle, hget⟩ := @lowest_le_newer s.levels _ _ (mem_loweredLevels_of_lt hv hlt)
    rw [← hlevels] at hget
    rw [level_of_some hget]
    exact Nat.le_trans (Nat.min_le_left _ _) hle
  · exact Nat.le_trans (level_le_of_lowest hlevels)
      (Nat.le_trans between.1 (Nat.le_of_not_lt hlt))

include hlevels in
theorem level_cases : s'.level birth id = s.level birth id ∨
    id ∈ (s.reachable t).map (·.id) ∧ s'.level birth id = n := by
  cases h : s'.levels.get? id with
  | none =>
    have none : s.levels.get? id = none := by
      cases hold : s.levels.get? id with
      | none => rfl
      | some l =>
        obtain ⟨l', -, hget⟩ := @lowest_le s.levels (s.loweredLevels t n) id l hold
        rw [← hlevels, h] at hget
        simp at hget
    exact .inl ((level_of_none h).trans (level_of_none none).symm)
  | some l =>
    have origin := h
    rw [hlevels] at origin
    rcases lowest_origin origin with hold | new
    · exact .inl ((level_of_some h).trans (level_of_some hold).symm)
    · obtain ⟨rfl, v, hv, hid, -⟩ := mem_loweredLevels new
      have upper : s'.level birth id ≤ s.level birth id := level_le_of_lowest hlevels
      have birthCap : s.level birth id ≤ birth id := level_le_birth
      rw [level_of_some h] at upper ⊢
      by_cases hle : birth id ≤ l
      · left
        omega
      · exact .inr ⟨List.mem_map.2 ⟨v, hv, hid⟩, by omega⟩

end Lowered

end Polytype.Subst
