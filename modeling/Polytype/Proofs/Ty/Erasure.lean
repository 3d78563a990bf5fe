import Polytype.Ty.Lemmas
import Mathlib.Data.List.Forall2

namespace Polytype.Ty

/-! ## Replacing variables -/

theorem mapVars_congr {f g : TypeVar → Ty} {t : Ty} (h : ∀ v ∈ t.vars, f v = g v) :
    t.mapVars f = t.mapVars g := by
  induction t using induct with
  | var v => exact h v (by simp [vars])
  | const name => rfl
  | app head args ihHead ihArgs =>
    simp only [vars, varsList_eq, List.mem_append, List.mem_flatMap] at h
    simp only [mapVars, mapVarsList_eq]
    rw [ihHead fun v hv => h v (.inl hv),
      List.map_congr_left fun t ht => ihArgs t ht fun v hv => h v (.inr ⟨t, ht, hv⟩)]
  | func params result ihParams ihResult =>
    simp only [vars, varsList_eq, List.mem_append, List.mem_flatMap] at h
    simp only [mapVars, mapVarsList_eq]
    rw [ihResult fun v hv => h v (.inr hv),
      List.map_congr_left fun t ht => ihParams t ht fun v hv => h v (.inl ⟨t, ht, hv⟩)]
  | record fields ih =>
    simp only [vars, varsFields_eq, List.mem_flatMap] at h
    simp only [mapVars, mapVarsFields_eq]
    congr 1
    apply List.map_congr_left
    intro field hf
    rw [ih field hf fun v hv => h v ⟨field, hf, hv⟩]
  | tuple elements ih =>
    simp only [vars, varsList_eq, List.mem_flatMap] at h
    simp only [mapVars, mapVarsList_eq]
    rw [List.map_congr_left fun t ht => ih t ht fun v hv => h v ⟨t, ht, hv⟩]

theorem mapVars_mapVars (f g : TypeVar → Ty) (t : Ty) :
    (t.mapVars f).mapVars g = t.mapVars fun v => (f v).mapVars g := by
  induction t using induct with
  | var v => rfl
  | const name => rfl
  | app head args ihHead ihArgs =>
    simp only [mapVars, mapVarsList_eq, List.map_map, Function.comp_def]
    rw [ihHead, List.map_congr_left ihArgs]
  | func params result ihParams ihResult =>
    simp only [mapVars, mapVarsList_eq, List.map_map, Function.comp_def]
    rw [ihResult, List.map_congr_left ihParams]
  | record fields ih =>
    simp only [mapVars, mapVarsFields_eq, List.map_map]
    congr 1
    apply List.map_congr_left
    intro field hf
    simp only [Function.comp_apply]
    rw [ih field hf]
  | tuple elements ih =>
    simp only [mapVars, mapVarsList_eq, List.map_map, Function.comp_def]
    rw [List.map_congr_left ih]

theorem mapVars_var (t : Ty) : t.mapVars var = t := by
  induction t using induct with
  | var v => rfl
  | const name => rfl
  | app head args ihHead ihArgs =>
    simp only [mapVars, mapVarsList_eq, ihHead]
    rw [List.map_congr_left ihArgs, List.map_id']
  | func params result ihParams ihResult =>
    simp only [mapVars, mapVarsList_eq, ihResult]
    rw [List.map_congr_left ihParams, List.map_id']
  | record fields ih =>
    simp only [mapVars, mapVarsFields_eq]
    congr 1
    calc fields.map (fun field => (field.1, field.2.mapVars var))
        = fields.map fun field => field :=
          List.map_congr_left fun field hf => by rw [ih field hf]
      _ = fields := List.map_id' _
  | tuple elements ih =>
    simp only [mapVars, mapVarsList_eq]
    rw [List.map_congr_left ih, List.map_id']

/-- Replaces every variable by what its id stands for. -/
def subst (θ : Nat → Ty) (t : Ty) : Ty := t.mapVars fun v => θ v.id

abbrev ofId (id : Nat) : Ty := var ⟨id, 0⟩

/-- Puts every variable at level zero. -/
def erase (t : Ty) : Ty := t.subst ofId

section Subst

variable (θ η : Nat → Ty)

@[simp] theorem subst_var (v : TypeVar) : (var v).subst θ = θ v.id := rfl

@[simp] theorem subst_const (name : String) : (const name).subst θ = const name := rfl

@[simp] theorem subst_app (head : Ty) (args : List Ty) :
    (app head args).subst θ = app (head.subst θ) (args.map (subst θ)) := by
  simp only [subst, mapVars, mapVarsList_eq]
  rfl

@[simp] theorem subst_func (params : List Ty) (result : Ty) :
    (func params result).subst θ = func (params.map (subst θ)) (result.subst θ) := by
  simp only [subst, mapVars, mapVarsList_eq]
  rfl

@[simp] theorem subst_record (fields : List (String × Ty)) :
    (record fields).subst θ = record (fields.map fun field => (field.1, field.2.subst θ)) := by
  simp only [subst, mapVars, mapVarsFields_eq]

@[simp] theorem subst_tuple (elements : List Ty) :
    (tuple elements).subst θ = tuple (elements.map (subst θ)) := by
  simp only [subst, mapVars, mapVarsList_eq]
  rfl

theorem subst_mapVars (f : TypeVar → Ty) (t : Ty) :
    (t.mapVars f).subst θ = t.mapVars fun v => (f v).subst θ :=
  mapVars_mapVars f _ t

theorem subst_subst (t : Ty) : (t.subst θ).subst η = t.subst fun id => (θ id).subst η :=
  mapVars_mapVars _ _ t

@[simp] theorem subst_erase (t : Ty) : t.erase.subst θ = t.subst θ := subst_subst _ _ t

theorem erase_subst (t : Ty) : (t.subst θ).erase = t.subst fun id => (θ id).erase :=
  subst_subst _ _ t

@[simp] theorem erase_var (v : TypeVar) : (var v).erase = ofId v.id := rfl

@[simp] theorem erase_const (name : String) : (const name).erase = const name := rfl

@[simp] theorem erase_app (head : Ty) (args : List Ty) :
    (app head args).erase = app head.erase (args.map erase) := subst_app ofId head args

@[simp] theorem erase_func (params : List Ty) (result : Ty) :
    (func params result).erase = func (params.map erase) result.erase :=
  subst_func ofId params result

@[simp] theorem erase_record (fields : List (String × Ty)) :
    (record fields).erase = record (fields.map fun field => (field.1, field.2.erase)) :=
  subst_record ofId fields

@[simp] theorem erase_tuple (elements : List Ty) :
    (tuple elements).erase = tuple (elements.map erase) := subst_tuple ofId elements

@[simp] theorem erase_erase (t : Ty) : t.erase.erase = t.erase := subst_erase ofId t

variable {θ η}

theorem subst_congr {t : Ty} (h : ∀ v ∈ t.vars, θ v.id = η v.id) : t.subst θ = t.subst η :=
  mapVars_congr h

theorem subst_eq_of_erase {t u : Ty} (h : t.erase = u.erase) : t.subst θ = u.subst θ := by
  rw [← subst_erase, h, subst_erase]

theorem mem_vars_subst {t : Ty} {w : TypeVar} :
    w ∈ (t.subst θ).vars ↔ ∃ v ∈ t.vars, w ∈ (θ v.id).vars :=
  mem_vars_mapVars

theorem mentions_iff {t : Ty} {id : Nat} : t.mentions id = true ↔ ∃ v ∈ t.vars, v.id = id := by
  simp [mentions]

theorem mentions_subst {t : Ty} {id : Nat} :
    (t.subst θ).mentions id = true ↔ ∃ v ∈ t.vars, (θ v.id).mentions id = true := by
  simp only [mentions_iff, mem_vars_subst]
  constructor
  · rintro ⟨w, ⟨v, hv, hw⟩, hid⟩
    exact ⟨v, hv, w, hw, hid⟩
  · rintro ⟨v, hv, w, hw, hid⟩
    exact ⟨w, ⟨v, hv, hw⟩, hid⟩

theorem mentions_var {v : TypeVar} {id : Nat} : (var v).mentions id = true ↔ v.id = id := by
  simp [mentions_iff, vars]

theorem mentions_erase {t : Ty} {id : Nat} : t.erase.mentions id = true ↔ t.mentions id = true := by
  unfold erase
  rw [mentions_subst, mentions_iff]
  simp only [mentions_var]

end Subst

/-! ## Heads and arguments -/

theorem headName?_erase (t : Ty) : t.erase.headName? = t.headName? := by
  induction t using induct with
  | var v => rfl
  | const name => rfl
  | app head args ih _ => simpa [headName?] using ih
  | func | record | tuple => simp [headName?]

theorem isNamed_erase (t : Ty) (name : String) : t.erase.isNamed name = t.isNamed name := by
  unfold isNamed
  rw [headName?_erase]

theorem mem_vars_of_args {t u : Ty} (hu : u ∈ t.args) {v : TypeVar} (hv : v ∈ u.vars) :
    v ∈ t.vars := by
  cases t with
  | app head args =>
    simp only [vars, varsList_eq, List.mem_append, List.mem_flatMap]
    exact .inr ⟨u, hu, hv⟩
  | _ => simp [args] at hu

/-! ## Equality up to levels -/

theorem sameList_iff {ts us : List Ty} (ih : ∀ t ∈ ts, ∀ u, t.same u = true ↔ t.erase = u.erase) :
    sameList ts us = true ↔ ts.map erase = us.map erase := by
  induction ts generalizing us with
  | nil => cases us <;> simp [sameList]
  | cons t ts ihList =>
    cases us with
    | nil => simp [sameList]
    | cons u us =>
      have := @ihList us fun t ht => ih t (List.mem_cons_of_mem _ ht)
      simp [sameList, ih t List.mem_cons_self, this]

theorem sameFields_iff {fields others : List (String × Ty)}
    (ih : ∀ field ∈ fields, ∀ u, field.2.same u = true ↔ field.2.erase = u.erase) :
    sameFields fields others = true ↔
      fields.map (fun field => (field.1, field.2.erase)) =
        others.map fun field => (field.1, field.2.erase) := by
  induction fields generalizing others with
  | nil => cases others <;> simp [sameFields]
  | cons field fields ihFields =>
    cases others with
    | nil => simp [sameFields]
    | cons other others =>
      have := @ihFields others fun field hf => ih field (List.mem_cons_of_mem _ hf)
      simp [sameFields, ih field List.mem_cons_self, this]

theorem same_iff {t u : Ty} : t.same u = true ↔ t.erase = u.erase := by
  induction t using induct generalizing u with
  | var v => cases u <;> simp [same]
  | const name => cases u <;> simp [same]
  | app head args ihHead ihArgs =>
    have lists := fun us => @sameList_iff args us fun t ht u => ihArgs t ht
    cases u <;> simp [same, ihHead, lists]
  | func params result ihParams ihResult =>
    have lists := fun us => @sameList_iff params us fun t ht u => ihParams t ht
    cases u <;> simp [same, ihResult, lists]
  | record fields ih =>
    have lists := fun us => @sameFields_iff fields us fun field hf u => ih field hf
    cases u <;> simp [same, lists]
  | tuple elements ih =>
    have lists := fun us => @sameList_iff elements us fun t ht u => ih t ht
    cases u <;> simp [same, lists]

/-! ## Sizes -/

theorem size_le_sizeList {ts : List Ty} {t : Ty} (h : t ∈ ts) : t.size ≤ sizeList ts := by
  induction ts with
  | nil => simp at h
  | cons u us ih =>
    simp only [sizeList]
    rcases List.mem_cons.1 h with rfl | h
    · omega
    · have := ih h
      omega

theorem eq_var_or_size_lt {θ : Nat → Ty} {t : Ty} {v : TypeVar} (h : v ∈ t.vars) :
    t = var v ∨ (θ v.id).size < (t.subst θ).size := by
  have le {t : Ty} (h : t = var v ∨ (θ v.id).size < (t.subst θ).size) :
      (θ v.id).size ≤ (t.subst θ).size := by
    rcases h with rfl | h
    · exact Nat.le_refl _
    · exact Nat.le_of_lt h
  have members {ts : List Ty}
      (ih : ∀ t ∈ ts, v ∈ t.vars → t = var v ∨ (θ v.id).size < (t.subst θ).size)
      (h : ∃ t ∈ ts, v ∈ t.vars) : (θ v.id).size ≤ sizeList (ts.map (subst θ)) := by
    obtain ⟨t, ht, hv⟩ := h
    exact Nat.le_trans (le (ih t ht hv)) (size_le_sizeList (List.mem_map_of_mem ht))
  induction t using induct with
  | var w =>
    obtain rfl : v = w := by simpa [vars] using h
    exact .inl rfl
  | const name => simp [vars] at h
  | app head args ihHead ihArgs =>
    simp only [vars, varsList_eq, List.mem_append, List.mem_flatMap] at h
    simp only [subst_app, size]
    rcases h with h | h
    · have := le (ihHead h)
      omega
    · have := members ihArgs h
      omega
  | func params result ihParams ihResult =>
    simp only [vars, varsList_eq, List.mem_append, List.mem_flatMap] at h
    simp only [subst_func, size]
    rcases h with h | h
    · have := members ihParams h
      omega
    · have := le (ihResult h)
      omega
  | record fields ih =>
    simp only [vars, varsFields_eq, List.mem_flatMap] at h
    obtain ⟨field, hf, hv⟩ := h
    have part := le (ih field hf hv)
    have whole : (field.2.subst θ).size ≤ _ := size_le_sizeFields
      (List.mem_map_of_mem (f := fun field : String × Ty => (field.1, field.2.subst θ)) hf)
    simp only [subst_record, size]
    omega
  | tuple elements ih =>
    simp only [vars, varsList_eq, List.mem_flatMap] at h
    have := members ih h
    simp only [subst_tuple, size]
    omega

theorem size_replaced_le {θ : Nat → Ty} {t : Ty} {v : TypeVar} (h : v ∈ t.vars) :
    (θ v.id).size ≤ (t.subst θ).size := by
  rcases eq_var_or_size_lt h with rfl | h
  · exact Nat.le_refl _
  · exact Nat.le_of_lt h

end Polytype.Ty
