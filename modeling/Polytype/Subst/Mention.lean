import Polytype.Ty.Lemmas
import Polytype.Subst.OpenRecord

namespace Polytype

def Ty.ids (t : Ty) : List Nat := t.vars.map (·.id)

namespace Subst

def ids (s : Subst) : List Nat :=
  (s.types.flatMap fun entry => entry.2.ids)
    ++ s.records.flatMap fun entry => entry.2.flatMap fun field => field.2.ids

theorem mem_ids {s : Subst} {id : Nat} :
    id ∈ s.ids ↔ (∃ entry ∈ s.types, id ∈ entry.2.ids) ∨
      ∃ entry ∈ s.records, ∃ field ∈ entry.2, id ∈ field.2.ids := by
  simp [ids, List.mem_flatMap]

theorem mem_ids_of_types {s : Subst} {entry : Nat × Ty} {id : Nat} (h : entry ∈ s.types)
    (hid : id ∈ entry.2.ids) : id ∈ s.ids :=
  mem_ids.2 (.inl ⟨entry, h, hid⟩)

theorem mem_ids_of_records {s : Subst} {entry : Nat × List (String × Ty)} {field : String × Ty}
    {id : Nat} (h : entry ∈ s.records) (hf : field ∈ entry.2) (hid : id ∈ field.2.ids) :
    id ∈ s.ids :=
  mem_ids.2 (.inr ⟨entry, h, field, hf, hid⟩)

/-! ## Application -/

theorem mem_ids_mapVars {f : TypeVar → Ty} {t : Ty} {id : Nat} :
    id ∈ (t.mapVars f).ids ↔ ∃ v ∈ t.vars, id ∈ (f v).ids := by
  simp only [Ty.ids, List.mem_map, Ty.mem_vars_mapVars]
  exact ⟨fun ⟨w, ⟨v, hv, hw⟩, hid⟩ => ⟨v, hv, w, hw, hid⟩,
    fun ⟨v, hv, w, hw, hid⟩ => ⟨w, ⟨v, hv, hw⟩, hid⟩⟩

@[simp] theorem relevel_id (s : Subst) (v : TypeVar) : (s.relevel v).id = v.id := by
  unfold relevel
  split <;> rfl

theorem mem_ids_resolve {s : Subst} {steps : Nat} {v : TypeVar} {id : Nat}
    (h : id ∈ (s.resolve steps v).ids) :
    id = v.id ∨ ∃ entry ∈ s.types, id ∈ entry.2.ids := by
  induction steps generalizing v with
  | zero => exact .inl (by simpa [resolve, Ty.ids, Ty.vars] using h)
  | succ steps ih =>
    unfold resolve at h
    split at h
    · rename_i t ht
      obtain ⟨w, hw, hid⟩ := mem_ids_mapVars.1 h
      rcases ih hid with rfl | bound
      · exact .inr ⟨_, Assoc.mem_of_get? ht, List.mem_map_of_mem hw⟩
      · exact .inr bound
    · exact .inl (by simpa [Ty.ids, Ty.vars] using h)

theorem mem_ids_apply {s : Subst} {t : Ty} {id : Nat} (h : id ∈ (s.apply t).ids) :
    id ∈ t.ids ∨ ∃ entry ∈ s.types, id ∈ entry.2.ids := by
  obtain ⟨v, hv, hid⟩ := mem_ids_mapVars.1 h
  rcases mem_ids_resolve hid with rfl | bound
  · exact .inl (List.mem_map_of_mem hv)
  · exact .inr bound

theorem mem_ids_applyFields {s : Subst} {fields : List (String × Ty)} {field : String × Ty}
    {id : Nat} (hf : field ∈ s.applyFields fields) (hid : id ∈ field.2.ids) :
    (∃ member ∈ fields, id ∈ member.2.ids) ∨ ∃ entry ∈ s.types, id ∈ entry.2.ids := by
  obtain ⟨given, hg, rfl⟩ := List.mem_map.1 hf
  exact (mem_ids_apply hid).imp_left fun h => ⟨given, hg, h⟩

/-! ## Operations that record no field -/

theorem compose_records {newer older : Subst} (h : newer.records = []) :
    (newer.compose older).records =
      (older.records.filterKeys fun id => !(newer.compose older).isBound id).mapValues
        newer.applyFields := by
  simp only [compose, h]
  rfl

theorem mem_ids_compose {newer older : Subst} {id : Nat} (hn : newer.records = [])
    (h : id ∈ (newer.compose older).ids) : id ∈ newer.ids ∨ id ∈ older.ids := by
  rcases mem_ids.1 h with ⟨entry, he, hid⟩ | ⟨entry, he, field, hf, hid⟩
  · rcases Assoc.mem_of_mem_insertAll he with he | he
    · exact .inl (mem_ids_of_types he hid)
    · obtain ⟨given, hg, rfl⟩ := List.mem_map.1 he
      rcases mem_ids_apply hid with hid | ⟨bound, hb, hid⟩
      · exact .inr (mem_ids_of_types hg hid)
      · exact .inl (mem_ids_of_types hb hid)
  · rw [compose_records hn] at he
    obtain ⟨given, hg, rfl⟩ := List.mem_map.1 he
    rcases mem_ids_applyFields hf hid with ⟨member, ho, hid⟩ | ⟨bound, hb, hid⟩
    · exact .inr (mem_ids_of_records (List.mem_filter.1 hg).1 ho hid)
    · exact .inl (mem_ids_of_types hb hid)

theorem mem_ids_bind {s : Subst} {v : TypeVar} {t : Ty} {id : Nat} (h : id ∈ (s.bind v t).ids) :
    id ∈ t.ids ∨ id ∈ s.ids := by
  let binding : Subst := { types := [(v.id, t)], levels := s.loweredLevels t v.level }
  have composed : id ∈ (binding.compose s).ids := by
    rcases mem_ids.1 h with ⟨entry, he, hid⟩ | ⟨entry, he, field, hf, hid⟩
    · exact mem_ids_of_types he hid
    · exact mem_ids_of_records (List.mem_filter.1 he).1 hf hid
  have records : binding.records = [] := rfl
  rcases mem_ids_compose records composed with hid | hid
  · exact .inl (by simpa [ids, binding] using hid)
  · exact .inr hid

theorem mem_ids_lower {s : Subst} {t : Ty} {level id : Nat} (h : id ∈ (s.lower t level).ids) :
    id ∈ s.ids := by
  simp only [lower] at h
  split at h
  · exact h
  · rcases mem_ids_compose rfl h with hid | hid
    · simp [ids] at hid
    · exact hid

@[simp] theorem isBound_bind (s : Subst) (v : TypeVar) (t : Ty) (id : Nat) :
    (s.bind v t).isBound id = (v.id == id || s.isBound id) := by
  by_cases h : v.id = id <;>
    simp [bind, compose, isBound, Assoc.contains, Assoc.insertAll, Assoc.get?_insert, h]

@[simp] theorem isBound_lower (s : Subst) (t : Ty) (level id : Nat) :
    (s.lower t level).isBound id = s.isBound id := by
  simp only [lower]
  split
  · rfl
  · simp [compose, isBound, Assoc.contains, Assoc.insertAll]

theorem length_records_bind_lt {s : Subst} {v : TypeVar} {t : Ty} {fields : List (String × Ty)}
    (h : s.records.get? v.id = some fields) :
    (s.bind v t).records.length < s.records.length := by
  let binding : Subst := { types := [(v.id, t)], levels := s.loweredLevels t v.level }
  have bound : (binding.compose s).isBound v.id = true := by
    simp [binding, compose, isBound, Assoc.contains, Assoc.insertAll]
  calc (s.bind v t).records.length
      ≤ (binding.compose s).records.length := List.length_filter_le _ _
    _ = (s.records.filterKeys fun id => !(binding.compose s).isBound id).length := by
        have records : binding.records = [] := rfl
        simp [compose_records records, Assoc.mapValues]
    _ < s.records.length := List.length_filter_lt_length_iff_exists.2
        ⟨_, Assoc.mem_of_get? h, by simp [bound]⟩

/-! ## Recording a field -/

theorem mem_ids_recordShape {s : Subst} {v : TypeVar} {fields : List (String × Ty)}
    {field : String × Ty} {id : Nat} (h : s.recordShape v = some fields) (hf : field ∈ fields)
    (hid : id ∈ field.2.ids) : id ∈ s.ids := by
  unfold recordShape at h
  split at h
  · simp at h
  · obtain ⟨given, hg, rfl⟩ := Option.map_eq_some_iff.1 h
    rcases mem_ids_applyFields hf hid with ⟨member, ho, hid⟩ | ⟨bound, hb, hid⟩
    · exact mem_ids_of_records (Assoc.mem_of_get? hg) ho hid
    · exact mem_ids_of_types hb hid

@[simp] theorem isBound_requireField (s : Subst) (v : TypeVar) (field : String) (t : Ty)
    (id : Nat) : (s.requireField v field t).isBound id = s.isBound id :=
  isBound_lower s t _ id

theorem mem_ids_requireField {s : Subst} {v : TypeVar} {field : String} {t : Ty} {id : Nat}
    (h : id ∈ (s.requireField v field t).ids) : id ∈ t.ids ∨ id ∈ s.ids := by
  rcases mem_ids.1 h with ⟨entry, he, hid⟩ | ⟨entry, he, given, hg, hid⟩
  · exact .inr (mem_ids_lower (mem_ids_of_types he hid))
  · rcases Assoc.mem_of_mem_insert he with rfl | he
    · rcases Assoc.mem_of_mem_insert hg with rfl | hg
      · exact .inl hid
      · generalize hl : s.lower t _ = lowered at hg
        cases hr : lowered.records.get? v.id with
        | none => simp [hr] at hg
        | some fields =>
          rw [hr] at hg
          subst hl
          exact .inr (mem_ids_lower (mem_ids_of_records (Assoc.mem_of_get? hr) hg hid))
    · exact .inr (mem_ids_lower (mem_ids_of_records he hg hid))

end Subst

end Polytype
