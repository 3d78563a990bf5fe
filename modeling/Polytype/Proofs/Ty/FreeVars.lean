import Polytype.Ty.Lemmas

namespace Polytype

namespace TypeVar

theorem mem_insert {v w : TypeVar} {set : List TypeVar} (h : w ∈ v.insert set) :
    w = v ∨ w ∈ set := by
  induction set with
  | nil => simpa [insert] using h
  | cons u rest ih =>
    unfold insert at h
    split at h
    · simpa using h
    · split at h
      · exact .inr h
      · rcases List.mem_cons.1 h with rfl | h
        · exact .inr List.mem_cons_self
        · exact (ih h).imp_right (List.mem_cons_of_mem _)

theorem exists_mem_insert {v w : TypeVar} {set : List TypeVar} (h : w = v ∨ w ∈ set) :
    ∃ u ∈ v.insert set, u.id = w.id := by
  induction set with
  | nil =>
    obtain rfl : w = v := by simpa using h
    exact ⟨w, by simp [insert], rfl⟩
  | cons u rest ih =>
    unfold insert
    split
    · exact ⟨w, by simpa using h, rfl⟩
    · split
      · rename_i hid
        rcases h with rfl | h
        · exact ⟨u, List.mem_cons_self, hid.symm⟩
        · exact ⟨w, h, rfl⟩
      · rcases h with rfl | h
        · obtain ⟨x, hx, hid⟩ := ih (.inl rfl)
          exact ⟨x, List.mem_cons_of_mem _ hx, hid⟩
        · rcases List.mem_cons.1 h with rfl | h
          · exact ⟨w, List.mem_cons_self, rfl⟩
          · obtain ⟨x, hx, hid⟩ := ih (.inr h)
            exact ⟨x, List.mem_cons_of_mem _ hx, hid⟩

theorem mem_foldl_insert {vs set : List TypeVar} {w : TypeVar}
    (h : w ∈ vs.foldl (fun set v => v.insert set) set) : w ∈ vs ∨ w ∈ set := by
  induction vs generalizing set with
  | nil => exact .inr h
  | cons v vs ih =>
    rcases ih h with h | h
    · exact .inl (List.mem_cons_of_mem _ h)
    · rcases mem_insert h with rfl | h
      · exact .inl List.mem_cons_self
      · exact .inr h

theorem exists_mem_foldl_insert {vs set : List TypeVar} {w : TypeVar} (h : w ∈ vs ∨ w ∈ set) :
    ∃ u ∈ vs.foldl (fun set v => v.insert set) set, u.id = w.id := by
  induction vs generalizing set w with
  | nil => exact ⟨w, by simpa using h, rfl⟩
  | cons v vs ih =>
    rcases h with h | h
    · rcases List.mem_cons.1 h with rfl | h
      · obtain ⟨x, hx, hid⟩ := @exists_mem_insert w w set (.inl rfl)
        obtain ⟨u, hu, hid'⟩ := ih (.inr hx)
        exact ⟨u, hu, hid'.trans hid⟩
      · exact ih (.inl h)
    · obtain ⟨x, hx, hid⟩ := exists_mem_insert (v := v) (.inr h)
      obtain ⟨u, hu, hid'⟩ := ih (.inr hx)
      exact ⟨u, hu, hid'.trans hid⟩

theorem mem_of_mem_setOf {vs : List TypeVar} {v : TypeVar} (h : v ∈ setOf vs) : v ∈ vs := by
  rcases mem_foldl_insert h with h | h
  · exact h
  · simp at h

theorem exists_mem_setOf {vs : List TypeVar} {v : TypeVar} (h : v ∈ vs) :
    ∃ u ∈ setOf vs, u.id = v.id :=
  exists_mem_foldl_insert (.inl h)

theorem pairwise_insert {v : TypeVar} {set : List TypeVar}
    (h : set.Pairwise fun u w => u.id < w.id) : (v.insert set).Pairwise fun u w => u.id < w.id := by
  induction set with
  | nil => exact List.pairwise_singleton _ _
  | cons u rest ih =>
    obtain ⟨hu, hrest⟩ := List.pairwise_cons.1 h
    unfold insert
    split
    · rename_i hlt
      refine .cons (fun w hw => ?_) h
      rcases List.mem_cons.1 hw with rfl | hw
      · exact hlt
      · exact Nat.lt_trans hlt (hu w hw)
    · split
      · exact h
      · refine .cons (fun w hw => ?_) (ih hrest)
        rcases mem_insert hw with rfl | hw
        · omega
        · exact hu w hw

theorem pairwise_foldl_insert (vs : List TypeVar) {set : List TypeVar}
    (h : set.Pairwise fun u w => u.id < w.id) :
    (vs.foldl (fun set v => v.insert set) set).Pairwise fun u w => u.id < w.id := by
  induction vs generalizing set with
  | nil => exact h
  | cons v vs ih => exact ih (pairwise_insert h)

end TypeVar

namespace Ty

theorem mem_vars_of_mem_freeVars {t : Ty} {v : TypeVar} (h : v ∈ t.freeVars) : v ∈ t.vars :=
  TypeVar.mem_of_mem_setOf h

theorem nodup_freeVars (t : Ty) : (t.freeVars.map (·.id)).Nodup :=
  List.pairwise_map.2 ((TypeVar.pairwise_foldl_insert t.vars .nil).imp Nat.ne_of_lt)

theorem exists_mem_freeVars {t : Ty} {v : TypeVar} (h : v ∈ t.vars) :
    ∃ u ∈ t.freeVars, u.id = v.id :=
  TypeVar.exists_mem_setOf h

end Ty

end Polytype
