import Polytype.Subst.OpenRecord

namespace Polytype.Subst

def LevelsAbove (lo : Nat → Nat) (s : Subst) : Prop :=
  ∀ id l, s.levels.get? id = some l → lo id ≤ l

theorem levelsAbove_zero (s : Subst) : s.LevelsAbove fun _ => 0 := fun _ _ _ => Nat.zero_le _

def lowerTo (levels : Assoc Nat Nat) (entry : Nat × Nat) : Assoc Nat Nat :=
  levels.insert entry.1 (match levels.get? entry.1 with
    | some level => min level entry.2
    | none => entry.2)

theorem lowest_cons (levels : Assoc Nat Nat) (entry : Nat × Nat) (newer : Assoc Nat Nat) :
    lowest levels (entry :: newer) = lowest (lowerTo levels entry) newer := rfl

theorem lowerTo_le {levels : Assoc Nat Nat} {entry : Nat × Nat} {id l : Nat}
    (h : levels.get? id = some l) : ∃ l' ≤ l, (lowerTo levels entry).get? id = some l' := by
  unfold lowerTo
  rw [Assoc.get?_insert]
  by_cases hid : entry.1 = id
  · subst hid
    exact ⟨min l entry.2, Nat.min_le_left _ _, by simp [h]⟩
  · exact ⟨l, Nat.le_refl l, by simp [hid, h]⟩

theorem lowerTo_self (levels : Assoc Nat Nat) (entry : Nat × Nat) :
    ∃ l' ≤ entry.2, (lowerTo levels entry).get? entry.1 = some l' := by
  unfold lowerTo
  rw [Assoc.get?_insert_self]
  cases h : levels.get? entry.1 with
  | none => exact ⟨entry.2, Nat.le_refl _, by simp⟩
  | some l => exact ⟨min l entry.2, Nat.min_le_right _ _, by simp⟩

theorem lowerTo_origin {levels : Assoc Nat Nat} {entry : Nat × Nat} {id l : Nat}
    (h : (lowerTo levels entry).get? id = some l) :
    levels.get? id = some l ∨ (id, l) = entry := by
  obtain ⟨key, level⟩ := entry
  unfold lowerTo at h
  rw [Assoc.get?_insert] at h
  by_cases hid : key = id
  · subst hid
    cases hl : levels.get? key with
    | none => simp_all
    | some old =>
      simp only [hl, if_true, Option.some.injEq] at h
      by_cases hle : old ≤ level
      · left
        rw [← h, Nat.min_eq_left hle]
      · right
        rw [← h, Nat.min_eq_right (Nat.le_of_not_le hle)]
  · simp only [hid, if_false] at h
    exact .inl h

theorem lowest_le {levels newer : Assoc Nat Nat} {id l : Nat} (h : levels.get? id = some l) :
    ∃ l' ≤ l, (lowest levels newer).get? id = some l' := by
  induction newer generalizing levels l with
  | nil => exact ⟨l, Nat.le_refl l, h⟩
  | cons entry newer ih =>
    rw [lowest_cons]
    obtain ⟨m, hm, hget⟩ := @lowerTo_le levels entry id l h
    obtain ⟨l', hl', hget'⟩ := ih hget
    exact ⟨l', Nat.le_trans hl' hm, hget'⟩

theorem lowest_le_newer {levels newer : Assoc Nat Nat} {entry : Nat × Nat} (h : entry ∈ newer) :
    ∃ l' ≤ entry.2, (lowest levels newer).get? entry.1 = some l' := by
  induction newer generalizing levels with
  | nil => simp at h
  | cons first newer ih =>
    rw [lowest_cons]
    rcases List.mem_cons.1 h with rfl | h
    · obtain ⟨m, hm, hget⟩ := lowerTo_self levels entry
      obtain ⟨l', hl', hget'⟩ := @lowest_le _ newer _ _ hget
      exact ⟨l', Nat.le_trans hl' hm, hget'⟩
    · exact ih h

theorem lowest_origin {levels newer : Assoc Nat Nat} {id l : Nat}
    (h : (lowest levels newer).get? id = some l) : levels.get? id = some l ∨ (id, l) ∈ newer := by
  induction newer generalizing levels with
  | nil => exact .inl h
  | cons entry newer ih =>
    rw [lowest_cons] at h
    rcases ih h with h | h
    · rcases lowerTo_origin h with h | rfl
      · exact .inl h
      · exact .inr List.mem_cons_self
    · exact .inr (List.mem_cons_of_mem _ h)

theorem mem_loweredLevels {s : Subst} {t : Ty} {level : Nat} {entry : Nat × Nat}
    (h : entry ∈ s.loweredLevels t level) :
    entry.2 = level ∧ ∃ v ∈ s.reachable t, v.id = entry.1 ∧ level < v.level := by
  rcases Assoc.mem_of_mem_insertAll h with h | h
  · obtain ⟨v, hv, rfl⟩ := List.mem_map.1 h
    obtain ⟨hreach, hlt⟩ := List.mem_filter.1 hv
    exact ⟨rfl, v, hreach, rfl, by simpa using hlt⟩
  · simp at h

theorem lower_levels (s : Subst) (t : Ty) (level : Nat) :
    (s.lower t level).levels = lowest s.levels (s.loweredLevels t level) := by
  simp only [lower]
  split
  · rename_i h
    rw [List.isEmpty_iff.1 h]
    rfl
  · rfl

theorem LevelsAbove.of_lowest {lo : Nat → Nat} {levels newer : Assoc Nat Nat}
    (h : ∀ id l, (lowest levels newer).get? id = some l → lo id ≤ l) :
    (∀ id l, levels.get? id = some l → lo id ≤ l) ∧ ∀ entry ∈ newer, lo entry.1 ≤ entry.2 := by
  refine ⟨fun id l hl => ?_, fun entry he => ?_⟩
  · obtain ⟨l', hle, hget⟩ := @lowest_le levels newer id l hl
    exact Nat.le_trans (h id l' hget) hle
  · obtain ⟨l', hle, hget⟩ := @lowest_le_newer levels newer entry he
    exact Nat.le_trans (h _ l' hget) hle

end Polytype.Subst
