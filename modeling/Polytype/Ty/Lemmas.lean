import Polytype.Ty.Basic

namespace Polytype.Ty

theorem induct {P : Ty → Prop} (var : ∀ v, P (var v)) (const : ∀ name, P (const name))
    (app : ∀ head args, P head → (∀ t ∈ args, P t) → P (app head args))
    (func : ∀ params result, (∀ t ∈ params, P t) → P result → P (func params result))
    (record : ∀ fields, (∀ field ∈ fields, P field.2) → P (record fields))
    (tuple : ∀ elements, (∀ t ∈ elements, P t) → P (tuple elements)) (t : Ty) : P t := by
  refine @Ty.rec P (fun ts => ∀ t ∈ ts, P t) (fun fields => ∀ field ∈ fields, P field.2)
    (fun field => P field.2) var const app func record tuple (by simp) ?_ (by simp) ?_
    (fun _ _ h => h) t
  · intro t ts ht hts u hu
    rcases List.mem_cons.1 hu with rfl | hu
    · exact ht
    · exact hts u hu
  · intro field fields hfield hfields other hother
    rcases List.mem_cons.1 hother with rfl | hother
    · exact hfield
    · exact hfields other hother

/-! ## The versions for lists -/

theorem mapVarsList_eq (f : TypeVar → Ty) (ts : List Ty) :
    mapVarsList f ts = ts.map (mapVars f) := by
  induction ts with
  | nil => rfl
  | cons t ts ih => simp [mapVarsList, ih]

theorem mapVarsFields_eq (f : TypeVar → Ty) (fields : List (String × Ty)) :
    mapVarsFields f fields = fields.map fun field => (field.1, field.2.mapVars f) := by
  induction fields with
  | nil => rfl
  | cons field rest ih => simp [mapVarsFields, ih]

theorem varsList_eq (ts : List Ty) : varsList ts = ts.flatMap vars := by
  induction ts with
  | nil => rfl
  | cons t ts ih => simp [varsList, ih]

theorem varsFields_eq (fields : List (String × Ty)) :
    varsFields fields = fields.flatMap fun field => field.2.vars := by
  induction fields with
  | nil => rfl
  | cons field rest ih => simp [varsFields, ih]

/-! ## Variables and sizes -/

theorem mem_vars_mapVars {f : TypeVar → Ty} {t : Ty} {w : TypeVar} :
    w ∈ (t.mapVars f).vars ↔ ∃ v ∈ t.vars, w ∈ (f v).vars := by
  induction t using induct with
  | var v => simp [mapVars, vars]
  | const name => simp [mapVars, vars]
  | app head args ihHead ihArgs =>
    simp only [mapVars, vars, mapVarsList_eq, varsList_eq, List.mem_append, List.mem_flatMap,
      List.mem_map, ihHead]
    constructor
    · rintro (⟨v, hv, hw⟩ | ⟨_, ⟨t, ht, rfl⟩, hw⟩)
      · exact ⟨v, .inl hv, hw⟩
      · obtain ⟨v, hv, hw⟩ := (ihArgs t ht).1 hw
        exact ⟨v, .inr ⟨t, ht, hv⟩, hw⟩
    · rintro ⟨v, hv | ⟨t, ht, hv⟩, hw⟩
      · exact .inl ⟨v, hv, hw⟩
      · exact .inr ⟨_, ⟨t, ht, rfl⟩, (ihArgs t ht).2 ⟨v, hv, hw⟩⟩
  | func params result ihParams ihResult =>
    simp only [mapVars, vars, mapVarsList_eq, varsList_eq, List.mem_append, List.mem_flatMap,
      List.mem_map, ihResult]
    constructor
    · rintro (⟨_, ⟨t, ht, rfl⟩, hw⟩ | ⟨v, hv, hw⟩)
      · obtain ⟨v, hv, hw⟩ := (ihParams t ht).1 hw
        exact ⟨v, .inl ⟨t, ht, hv⟩, hw⟩
      · exact ⟨v, .inr hv, hw⟩
    · rintro ⟨v, ⟨t, ht, hv⟩ | hv, hw⟩
      · exact .inl ⟨_, ⟨t, ht, rfl⟩, (ihParams t ht).2 ⟨v, hv, hw⟩⟩
      · exact .inr ⟨v, hv, hw⟩
  | record fields ih =>
    simp only [mapVars, vars, mapVarsFields_eq, varsFields_eq, List.mem_flatMap, List.mem_map]
    constructor
    · rintro ⟨_, ⟨field, hf, rfl⟩, hw⟩
      obtain ⟨v, hv, hw⟩ := (ih field hf).1 hw
      exact ⟨v, ⟨field, hf, hv⟩, hw⟩
    · rintro ⟨v, ⟨field, hf, hv⟩, hw⟩
      exact ⟨_, ⟨field, hf, rfl⟩, (ih field hf).2 ⟨v, hv, hw⟩⟩
  | tuple elements ih =>
    simp only [mapVars, vars, mapVarsList_eq, varsList_eq, List.mem_flatMap, List.mem_map]
    constructor
    · rintro ⟨_, ⟨t, ht, rfl⟩, hw⟩
      obtain ⟨v, hv, hw⟩ := (ih t ht).1 hw
      exact ⟨v, ⟨t, ht, hv⟩, hw⟩
    · rintro ⟨v, ⟨t, ht, hv⟩, hw⟩
      exact ⟨_, ⟨t, ht, rfl⟩, (ih t ht).2 ⟨v, hv, hw⟩⟩

theorem size_pos (t : Ty) : 0 < t.size := by
  cases t <;> simp only [size] <;> omega

theorem size_le_sizeFields {fields : List (String × Ty)} {field : String × Ty}
    (h : field ∈ fields) : field.2.size ≤ sizeFields fields := by
  induction fields with
  | nil => simp at h
  | cons head rest ih =>
    obtain ⟨name, t⟩ := head
    rcases List.mem_cons.1 h with rfl | h
    · exact Nat.le_add_right _ _
    · exact Nat.le_trans (ih h) (Nat.le_add_left _ _)

end Polytype.Ty
