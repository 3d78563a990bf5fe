import Polytype.Proofs.Subst.Level
import Polytype.Proofs.Ty.FreeVars
import Polytype.Proofs.Ty.Hereditary
import Polytype.Subst.Mention

namespace Polytype.Subst

open Ty

abbrev Settled (s : Subst) : Ty → Prop := Within fun id => s.isBound id = false

/-- No bound variable occurs in a bound type. -/
def Resolved (s : Subst) : Prop := ∀ id t, s.types.get? id = some t → s.Settled t

/-- What a variable stands for, without levels. -/
def image (s : Subst) (id : Nat) : Ty := ((s.types.get? id).map erase).getD (ofId id)

def Solves (θ : Nat → Ty) (s : Subst) : Prop := ∀ id, (s.image id).subst θ = θ id

/-- The bindings of the variables in `C`, and the fields recorded for the unbound ones, have the
property `P`. -/
structure Keeps (s : Subst) (C : Nat → Prop) (P : Ty → Prop) : Prop where
  types : ∀ {id t}, C id → s.types.get? id = some t → P t
  records : ∀ {id fields}, C id → s.isBound id = false → s.records.get? id = some fields →
    P (.record fields)

def Stale (s : Subst) (C : Nat → Prop) (P : Ty → Prop) : Prop :=
  ∀ id fields, C id → s.isBound id = true → s.records.get? id = some fields → P (.record fields)

/-! ## The operations on bindings and recorded fields -/

theorem isBound_eq_false {s : Subst} {id : Nat} : s.isBound id = false ↔ s.types.get? id = none := by
  simp [isBound, Assoc.contains]

theorem apply_record (s : Subst) (fields : List (String × Ty)) :
    s.apply (.record fields) = .record (s.applyFields fields) := by
  simp only [apply, mapVars, mapVarsFields_eq, applyFields, Assoc.mapValues]

/-- The substitution that `bind` puts in front. -/
def binding (s : Subst) (v : TypeVar) (t : Ty) : Subst where
  types := [(v.id, t)]
  levels := s.loweredLevels t v.level

theorem get?_types_binding (s : Subst) (v : TypeVar) (t : Ty) (id : Nat) :
    (s.binding v t).types.get? id = if v.id = id then some t else none := rfl

theorem get?_types_bind (s : Subst) (v : TypeVar) (t : Ty) (id : Nat) :
    (s.bind v t).types.get? id =
      if v.id = id then some t else (s.types.get? id).map (s.binding v t).apply := by
  simp only [bind, compose, Assoc.insertAll, List.foldl_cons, List.foldl_nil, Assoc.get?_insert,
    Assoc.get?_mapValues]
  rfl

theorem get?_records_bind (s : Subst) (v : TypeVar) (t : Ty) (id : Nat) :
    (s.bind v t).records.get? id =
      if v.id = id ∨ s.isBound id = true then none
      else (s.records.get? id).map (s.binding v t).applyFields := by
  have composed : (s.bind v t).records = ((s.binding v t).compose s).records.erase v.id := rfl
  have bound (id : Nat) : ((s.binding v t).compose s).isBound id = (v.id == id || s.isBound id) :=
    isBound_bind s v t id
  rw [composed, Assoc.get?_erase, compose_records rfl, Assoc.get?_mapValues,
    Assoc.get?_filterKeys, bound]
  by_cases hv : v.id = id <;> cases hs : s.isBound id <;> simp [hv]

theorem exists_lower (s : Subst) (t : Ty) (level : Nat) :
    ∃ levels : Assoc Nat Nat, (∀ entry ∈ levels, entry ∈ s.loweredLevels t level) ∧ ∀ id,
      (s.lower t level).types.get? id = (s.types.get? id).map (apply { levels }) ∧
      (s.isBound id = false →
        (s.lower t level).records.get? id = (s.records.get? id).map (applyFields { levels })) ∧
      (s.records.get? id = none → (s.lower t level).records.get? id = none) := by
  by_cases hempty : (s.loweredLevels t level).isEmpty = true
  · refine ⟨[], by simp, fun id => ?_⟩
    have unchanged : s.lower t level = s := by simp [lower, hempty]
    have apply_nil : apply {} = fun t => t := by
      funext t
      exact mapVars_var t
    have fields_nil : applyFields {} = fun fields => fields := by
      funext fields
      simp [applyFields, apply_nil, Assoc.mapValues]
    simp [unchanged, apply_nil, fields_nil]
  · refine ⟨s.loweredLevels t level, fun _ h => h, fun id => ?_⟩
    have lowered : s.lower t level = compose { levels := s.loweredLevels t level } s := by
      simp [lower, hempty]
    have bound := isBound_lower s t level id
    rw [lowered] at bound
    rw [lowered, compose_records rfl, Assoc.get?_mapValues, Assoc.get?_filterKeys, bound]
    exact ⟨by simp [compose, Assoc.insertAll], fun hid => by simp [hid], fun hnone => by simp [hnone]⟩

theorem get?_records_lower {s : Subst} {t : Ty} {level id : Nat} {fields : List (String × Ty)}
    (bound : s.isBound id = true) (h : (s.lower t level).records.get? id = some fields) :
    s.records.get? id = some fields := by
  by_cases hempty : (s.loweredLevels t level).isEmpty = true
  · simpa [lower, hempty] using h
  · have lowered : s.lower t level = compose { levels := s.loweredLevels t level } s := by
      simp [lower, hempty]
    have bound' := isBound_lower s t level id
    rw [lowered] at bound' h
    rw [compose_records rfl, Assoc.get?_mapValues, Assoc.get?_filterKeys, bound', bound] at h
    simp at h

theorem exists_requireField (s : Subst) (v : TypeVar) (field : String) (t : Ty) :
    ∃ level, (s.requireField v field t).types = (s.lower t level).types ∧
      (s.requireField v field t).levels = (s.lower t level).levels ∧ ∀ id,
        (s.requireField v field t).records.get? id =
          if v.id = id then
            some (Assoc.insert (((s.lower t level).records.get? v.id).getD []) field t)
          else (s.lower t level).records.get? id :=
  ⟨_, rfl, rfl, fun _ => Assoc.get?_insert _ _ _ _⟩

/-! ## Resolved substitutions -/

theorem resolve_unbound {s : Subst} {v : TypeVar} (h : s.isBound v.id = false) (steps : Nat) :
    s.resolve steps v = .var (s.relevel v) := by
  cases steps with
  | zero => rfl
  | succ steps => simp [resolve, isBound_eq_false.1 h]

theorem Resolved.resolve {s : Subst} (hs : s.Resolved) (v : TypeVar) :
    s.resolve s.size v = match s.types.get? v.id with
      | some t => t.mapVars fun w => .var (s.relevel w)
      | none => .var (s.relevel v) := by
  unfold size
  cases hlength : s.types.length with
  | zero => simp [List.eq_nil_of_length_eq_zero hlength, Subst.resolve]
  | succ steps =>
    unfold Subst.resolve
    cases ht : s.types.get? v.id with
    | none => rfl
    | some t => exact mapVars_congr fun w hw => resolve_unbound (within_iff.1 (hs _ _ ht) w hw) steps

theorem Resolved.erase_apply {s : Subst} (hs : s.Resolved) (t : Ty) :
    (s.apply t).erase = t.subst s.image := by
  unfold apply erase
  rw [subst_mapVars]
  refine mapVars_congr fun v _ => ?_
  rw [hs.resolve, image]
  cases ht : s.types.get? v.id with
  | none => simp
  | some u =>
    simp only [Option.map_some, Option.getD_some]
    rw [subst_mapVars]
    exact mapVars_congr fun w _ => by simp

/-- The variables of an applied type are releveled variables that occur in the type or in a binding
of one of its variables. -/
theorem Resolved.mem_vars_apply {s : Subst} (hs : s.Resolved) {t : Ty} {w : TypeVar}
    (hw : w ∈ (s.apply t).vars) : ∃ x, w = s.relevel x ∧ s.isBound x.id = false ∧
      (x ∈ t.vars ∨ ∃ v ∈ t.vars, ∃ u, s.types.get? v.id = some u ∧ x ∈ u.vars) := by
  obtain ⟨v, hv, hw⟩ := mem_vars_mapVars.1 hw
  rw [hs.resolve] at hw
  cases ht : s.types.get? v.id with
  | none =>
    obtain rfl : w = s.relevel v := by simpa [ht, vars] using hw
    exact ⟨v, rfl, isBound_eq_false.2 ht, .inl hv⟩
  | some u =>
    simp only [ht] at hw
    obtain ⟨x, hx, hw⟩ := mem_vars_mapVars.1 hw
    obtain rfl : w = s.relevel x := by simpa [vars] using hw
    exact ⟨x, rfl, within_iff.1 (hs _ _ ht) x hx, .inr ⟨v, hv, u, ht, hx⟩⟩

theorem Resolved.settled_apply {s : Subst} (hs : s.Resolved) (t : Ty) : s.Settled (s.apply t) := by
  refine within_iff.2 fun w hw => ?_
  obtain ⟨x, rfl, unbound, -⟩ := hs.mem_vars_apply hw
  simpa using unbound

theorem Resolved.mentions_apply {s : Subst} (hs : s.Resolved) {t : Ty} {id : Nat} :
    (s.apply t).mentions id = true ↔ ∃ v ∈ t.vars, (s.image v.id).mentions id = true := by
  rw [← mentions_erase, hs.erase_apply, mentions_subst]

theorem image_unbound {s : Subst} {id : Nat} (h : s.isBound id = false) : s.image id = ofId id := by
  simp [image, isBound_eq_false.1 h]

theorem image_bound {s : Subst} {id : Nat} {t : Ty} (h : s.types.get? id = some t) :
    s.image id = t.erase := by
  simp [image, h]

theorem Settled.subst_image {s : Subst} {t : Ty} (h : s.Settled t) : t.subst s.image = t.erase :=
  subst_congr fun v hv => image_unbound (within_iff.1 h v hv)

theorem Resolved.image_idem {s : Subst} (hs : s.Resolved) : Solves s.image s := by
  intro id
  cases ht : s.types.get? id with
  | none =>
    rw [image_unbound (isBound_eq_false.2 ht), subst_var, image_unbound (isBound_eq_false.2 ht)]
  | some t => rw [image_bound ht, subst_erase, (hs _ _ ht).subst_image]

/-! ## Binding a variable -/

def replace (id : Nat) (t : Ty) (other : Nat) : Ty := if id = other then t.erase else ofId other

section Bind

variable {s : Subst} {v : TypeVar} {t : Ty}

theorem resolved_binding (fresh : t.mentions v.id = false) : (s.binding v t).Resolved := by
  intro id u hu
  rw [get?_types_binding] at hu
  split at hu
  · cases hu
    refine within_iff.2 fun w hw => ?_
    have hne : ¬v.id = w.id := fun heq => by
      simp only [mentions, List.any_eq_false, beq_iff_eq] at fresh
      exact fresh w hw heq.symm
    rw [isBound_eq_false, get?_types_binding, if_neg hne]
  · simp at hu

theorem image_binding (id : Nat) : (s.binding v t).image id = replace v.id t id := by
  unfold image replace
  rw [get?_types_binding]
  split <;> rfl

theorem image_bind (fresh : t.mentions v.id = false) (unbound : s.isBound v.id = false)
    (id : Nat) : (s.bind v t).image id = (s.image id).subst (replace v.id t) := by
  by_cases hid : v.id = id
  · subst hid
    rw [image_unbound unbound, image_bound (by rw [get?_types_bind, if_pos rfl])]
    simp [replace]
  · cases hu : s.types.get? id with
    | none =>
      rw [image_unbound (isBound_eq_false.2 hu), image_unbound]
      · simp [replace, hid]
      · simp [hid, isBound_eq_false.2 hu]
    | some u =>
      have bound : (s.bind v t).types.get? id = some ((s.binding v t).apply u) := by
        rw [get?_types_bind, if_neg hid, hu]
        rfl
      rw [image_bound bound, image_bound hu, (resolved_binding fresh).erase_apply, subst_erase]
      exact subst_congr fun w _ => image_binding w.id

theorem resolved_bind (hs : s.Resolved) (ht : s.Settled t) (fresh : t.mentions v.id = false) :
    (s.bind v t).Resolved := by
  have away : ∀ w ∈ t.vars, (s.bind v t).isBound w.id = false := by
    intro w hw
    simp only [mentions, List.any_eq_false, beq_iff_eq] at fresh
    simpa [within_iff.1 ht w hw] using fun heq => fresh w hw heq.symm
  intro id u hu
  rw [get?_types_bind] at hu
  split at hu
  · cases hu
    exact within_iff.2 away
  · obtain ⟨given, hgiven, rfl⟩ := Option.map_eq_some_iff.1 hu
    refine within_iff.2 fun w hw => ?_
    obtain ⟨x, hx, hw⟩ := mem_vars_mapVars.1 hw
    rw [(resolved_binding fresh).resolve, get?_types_binding] at hw
    split at hw
    · rename_i hsome
      split at hsome
      · cases hsome
        obtain ⟨y, hy, hw⟩ := mem_vars_mapVars.1 hw
        obtain rfl : w = _ := by simpa [vars] using hw
        simpa using away y hy
      · simp at hsome
    · rename_i hnone
      have hne : ¬v.id = x.id := fun heq => by simp [heq] at hnone
      obtain rfl : w = _ := by simpa [vars] using hw
      simpa [hne] using within_iff.1 (hs _ _ hgiven) x hx

theorem Resolved.solves_bind (hs : s.Resolved) (fresh : t.mentions v.id = false)
    (unbound : s.isBound v.id = false) : Solves (s.bind v t).image s := by
  intro id
  rw [image_bind fresh unbound]
  have settled : ∀ w ∈ (s.image id).vars, s.isBound w.id = false := by
    intro w hw
    cases hu : s.types.get? id with
    | none =>
      rw [image_unbound (isBound_eq_false.2 hu)] at hw
      obtain rfl : w = _ := by simpa [vars] using hw
      exact isBound_eq_false.2 hu
    | some u =>
      rw [image_bound hu] at hw
      obtain ⟨x, hx, hw⟩ := mem_vars_subst.1 hw
      obtain rfl : w = _ := by simpa [vars] using hw
      exact within_iff.1 (hs _ _ hu) x hx
  refine subst_congr fun w hw => ?_
  rw [image_bind fresh unbound, image_unbound (settled w hw), subst_var]

end Bind

/-! ## Reachable variables -/

section Reachable

variable {s : Subst} {P : TypeVar → Prop}
  (next : ∀ {v fields}, P v → s.records.get? v.id = some fields →
    ∀ field ∈ fields, ∀ w ∈ (s.apply field.2).vars, P w)

include next

theorem forall_visit {records : Assoc Nat (List (String × Ty))} {seen pending : List TypeVar}
    (hrecords : ∀ id fields, records.get? id = some fields → s.records.get? id = some fields)
    (hseen : ∀ v ∈ seen, P v) (hpending : ∀ v ∈ pending, P v) :
    ∀ v ∈ s.visit records seen pending, P v := by
  fun_induction Subst.visit s records seen pending with
  | case1 => exact hseen
  | case2 records seen v rest _ ih => exact ih hrecords hseen (List.forall_mem_cons.1 hpending).2
  | case3 records seen v rest _ _ ih =>
    obtain ⟨hv, hrest⟩ := List.forall_mem_cons.1 hpending
    exact ih hrecords (List.forall_mem_cons.2 ⟨hv, hseen⟩) hrest
  | case4 records seen v rest _ fields hfields ih =>
    obtain ⟨hv, hrest⟩ := List.forall_mem_cons.1 hpending
    refine ih (fun id given hg => ?_) (List.forall_mem_cons.2 ⟨hv, hseen⟩)
      (List.forall_mem_append.2 ⟨fun w hw => ?_, hrest⟩)
    · rw [Assoc.get?_erase] at hg
      split at hg
      · simp at hg
      · exact hrecords id given hg
    · obtain ⟨field, hf, hw⟩ := List.mem_flatMap.1 (List.mem_reverse.1 hw)
      exact next hv (hrecords _ _ hfields) field hf w (mem_vars_of_mem_freeVars hw)

/-- What holds of the variables of a type, and of the variables of the fields with each variable,
holds of everything reachable. -/
theorem forall_reachable {t : Ty} (occurs : ∀ v ∈ (s.apply t).vars, P v) :
    ∀ v ∈ s.reachable t, P v :=
  forall_visit next (fun _ _ h => h) (by simp) fun v hv =>
    occurs v (mem_vars_of_mem_freeVars (List.mem_reverse.1 hv))

end Reachable

/-! ## Hereditary properties -/

theorem Keeps.mono {s : Subst} {C : Nat → Prop} {P Q : Ty → Prop} (hs : s.Keeps C P)
    (h : ∀ t, P t → Q t) : s.Keeps C Q :=
  ⟨fun hid ht => h _ (hs.types hid ht), fun hid hu hf => h _ (hs.records hid hu hf)⟩

section Keeps

variable {C : Nat → Prop} {lo : Nat → Nat} {P : Ty → Prop} (hP : Hereditary C lo P) {s : Subst}
  (hs : s.Keeps C P) (hlo : s.LevelsAbove lo)

include hP hlo in
theorem relevel_property {v : TypeVar} (hv : P (.var v)) : P (.var (s.relevel v)) := by
  unfold relevel
  split
  · rename_i level hlevel
    by_cases hle : level ≤ v.level
    · rw [Nat.min_eq_left hle]
      exact hP.lower hv (hlo _ _ hlevel) hle
    · rw [Nat.min_eq_right (Nat.le_of_not_le hle)]
      exact hv
  · exact hv

include hP hs hlo in
theorem Keeps.resolve {v : TypeVar} (steps : Nat) (hv : P (.var v)) : P (s.resolve steps v) := by
  induction steps generalizing v with
  | zero => exact relevel_property hP hlo hv
  | succ steps ih =>
    unfold Subst.resolve
    split
    · rename_i t ht
      have bound := hs.types (hP.ids hv) ht
      exact hP.mapVars bound fun w hw => ih (hP.vars bound hw)
    · exact relevel_property hP hlo hv

include hP hs hlo in
theorem Keeps.apply {t : Ty} (ht : P t) : P (s.apply t) :=
  hP.mapVars ht fun _ hv => hs.resolve hP hlo _ (hP.vars ht hv)

include hP hs hlo in
theorem Keeps.applyFields {fields : List (String × Ty)} (h : P (.record fields)) :
    P (.record (s.applyFields fields)) := by
  rw [← apply_record]
  exact hs.apply hP hlo h

include hP hs hlo in
theorem Keeps.recordShape {v : TypeVar} {shape : List (String × Ty)} (hv : P (.var v))
    (h : s.recordShape v = some shape) : P (.record shape) := by
  unfold Subst.recordShape at h
  split at h
  · simp at h
  · rename_i unbound
    obtain ⟨fields, hf, rfl⟩ := Option.map_eq_some_iff.1 h
    exact hs.applyFields hP hlo
      (hs.records (hP.ids hv) (Bool.eq_false_iff.2 unbound) hf)

include hP hs hlo in
theorem Keeps.reachable (resolved : s.Resolved) {t : Ty} (ht : P t) :
    ∀ v ∈ s.reachable t, P (.var v) := by
  have found {u : Ty} (hu : P u) (v : TypeVar) (hv : v ∈ (s.apply u).vars) :
      P (.var v) ∧ s.isBound v.id = false :=
    ⟨hP.vars (hs.apply hP hlo hu) hv, within_iff.1 (resolved.settled_apply u) v hv⟩
  have both := forall_reachable (fun {v fields} hv hfields field hf => found
    (hP.field (hs.records (hP.ids hv.1) hv.2 hfields) field hf)) (found ht)
  exact fun v hv => (both v hv).1

theorem keeps_binding {v : TypeVar} {t : Ty} (ht : P t) : (s.binding v t).Keeps C P where
  types {id u} _ h := by
    rw [get?_types_binding] at h
    split at h
    · cases h
      exact ht
    · simp at h
  records _ _ h := by simp [binding] at h

theorem keeps_levels (levels : Assoc Nat Nat) : Keeps { levels } C P where
  types _ h := by simp at h
  records _ _ h := by simp at h

theorem levelsAbove_of_mem {levels : Assoc Nat Nat} (h : ∀ entry ∈ levels, lo entry.1 ≤ entry.2) :
    LevelsAbove lo { levels } :=
  fun _ _ hl => h _ (Assoc.mem_of_get? hl)

include hP hs in
theorem Keeps.bind {v : TypeVar} {t : Ty} (ht : P t) (hlo : (s.bind v t).LevelsAbove lo) :
    (s.bind v t).Keeps C P := by
  have above : (s.binding v t).LevelsAbove lo :=
    levelsAbove_of_mem (LevelsAbove.of_lowest hlo).2
  have keeps : (s.binding v t).Keeps C P := keeps_binding ht
  refine ⟨fun {id u} hid h => ?_, fun {id fields} hid unbound h => ?_⟩
  · rw [get?_types_bind] at h
    split at h
    · cases h
      exact ht
    · obtain ⟨given, hgiven, rfl⟩ := Option.map_eq_some_iff.1 h
      exact keeps.apply hP above (hs.types hid hgiven)
  · rw [get?_records_bind] at h
    split at h
    · simp at h
    · rename_i hfree
      obtain ⟨given, hgiven, rfl⟩ := Option.map_eq_some_iff.1 h
      simp only [not_or, Bool.not_eq_true] at hfree
      exact keeps.applyFields hP above (hs.records hid hfree.2 hgiven)

include hP hs in
theorem Keeps.lower (t : Ty) (level : Nat) (hlo : (s.lower t level).LevelsAbove lo) :
    (s.lower t level).Keeps C P := by
  obtain ⟨levels, hlevels, h⟩ := exists_lower s t level
  have above : LevelsAbove lo { levels } := by
    refine levelsAbove_of_mem fun entry he => ?_
    unfold LevelsAbove at hlo
    rw [lower_levels] at hlo
    exact (LevelsAbove.of_lowest hlo).2 entry (hlevels entry he)
  have keeps : Keeps { levels } C P := keeps_levels levels
  refine ⟨fun {id u} hid hu => ?_, fun {id fields} hid unbound hf => ?_⟩
  · rw [(h id).1] at hu
    obtain ⟨given, hgiven, rfl⟩ := Option.map_eq_some_iff.1 hu
    exact keeps.apply hP above (hs.types hid hgiven)
  · rw [isBound_lower] at unbound
    rw [(h id).2.1 unbound] at hf
    obtain ⟨given, hgiven, rfl⟩ := Option.map_eq_some_iff.1 hf
    exact keeps.applyFields hP above (hs.records hid unbound hgiven)

include hP hs in
theorem Keeps.requireField {v : TypeVar} {field : String} {t : Ty}
    (ht : P (.record [(field, t)])) (hlo : (s.requireField v field t).LevelsAbove lo) :
    (s.requireField v field t).Keeps C P := by
  obtain ⟨level, htypes, hlevels, h⟩ := exists_requireField s v field t
  have kept : (s.lower t level).Keeps C P := by
    refine hs.lower hP t level fun id l hl => hlo id l ?_
    rw [hlevels]
    exact hl
  refine ⟨fun {id u} hid hu => ?_, fun {id fields} hid unbound hf => ?_⟩
  · rw [htypes] at hu
    exact kept.types hid hu
  · rw [isBound_requireField, ← isBound_lower s t level] at unbound
    rw [h] at hf
    split at hf
    · rename_i heq
      subst heq
      cases hf
      cases hr : (s.lower t level).records.get? v.id with
      | none => exact ht
      | some known => exact hP.insert (kept.records hid unbound hr) ht
    · exact kept.records hid unbound hf

end Keeps

theorem Stale.lower {s : Subst} {C : Nat → Prop} {P : Ty → Prop} (h : s.Stale C P) (t : Ty)
    (level : Nat) : (s.lower t level).Stale C P := by
  intro id fields hid bound hf
  rw [isBound_lower] at bound
  exact h id fields hid bound (get?_records_lower bound hf)

theorem Stale.requireField {s : Subst} {C D : Nat → Prop} {lo : Nat → Nat} {P : Ty → Prop}
    (h : s.Stale C P) (hP : Hereditary D lo P) {v : TypeVar} {field : String} {t : Ty}
    (ht : P (.record [(field, t)])) : (s.requireField v field t).Stale C P := by
  obtain ⟨level, -, -, hrecords⟩ := exists_requireField s v field t
  intro id fields hid bound hf
  rw [isBound_requireField, ← isBound_lower s t level] at bound
  rw [hrecords] at hf
  split at hf
  · rename_i heq
    subst heq
    cases hf
    cases hr : (s.lower t level).records.get? v.id with
    | none => exact ht
    | some known => exact hP.insert (h.lower t level _ known hid bound hr) ht
  · exact h.lower t level id fields hid bound hf

theorem Keeps.within_image {C : Nat → Prop} {s : Subst} (hs : s.Keeps C (Within C)) {id : Nat}
    (hid : C id) : Within C (s.image id) := by
  cases ht : s.types.get? id with
  | none =>
    rw [image_unbound (isBound_eq_false.2 ht)]
    exact .var hid
  | some t =>
    rw [image_bound ht]
    refine within_iff.2 fun w hw => ?_
    obtain ⟨v, hv, hid⟩ := mentions_iff.1 (mentions_erase.1 (mentions_iff.2 ⟨w, hw, rfl⟩))
    exact hid ▸ within_iff.1 (hs.types ‹C id› ht) v hv

/-! ## Lowering and recording a field -/

theorem image_lower (s : Subst) (t : Ty) (level : Nat) : (s.lower t level).image = s.image := by
  obtain ⟨levels, -, h⟩ := exists_lower s t level
  funext id
  have resolved : Resolved { levels } := fun _ _ h => by simp at h
  have same (u : Ty) : (apply { levels } u).erase = u.erase := by
    rw [resolved.erase_apply]
    exact subst_congr fun w _ => rfl
  simp [image, h, Option.map_map, Function.comp_def, same]

theorem resolved_lower {s : Subst} (hs : s.Resolved) (t : Ty) (level : Nat) :
    (s.lower t level).Resolved := by
  obtain ⟨levels, -, h⟩ := exists_lower s t level
  intro id u hu
  rw [(h id).1] at hu
  obtain ⟨given, hgiven, rfl⟩ := Option.map_eq_some_iff.1 hu
  refine (keeps_levels levels).apply (hereditary_within _) (levelsAbove_zero _) ?_
  exact within_iff.2 fun w hw => by simpa using within_iff.1 (hs _ _ hgiven) w hw

theorem image_requireField (s : Subst) (v : TypeVar) (field : String) (t : Ty) :
    (s.requireField v field t).image = s.image := by
  obtain ⟨level, htypes, -⟩ := exists_requireField s v field t
  rw [← image_lower s t level]
  funext id
  simp [image, htypes]

theorem resolved_requireField {s : Subst} (hs : s.Resolved) (v : TypeVar) (field : String)
    (t : Ty) : (s.requireField v field t).Resolved := by
  obtain ⟨level, htypes, -⟩ := exists_requireField s v field t
  intro id u hu
  rw [htypes] at hu
  have := resolved_lower hs t level id u hu
  exact within_iff.2 fun w hw => by simpa using within_iff.1 this w hw

/-! ## Solutions -/

theorem Solves.trans {θ : Nat → Ty} {s s' : Subst} (h : Solves θ s') (h' : Solves s'.image s) :
    Solves θ s := by
  intro id
  calc (s.image id).subst θ
      = (s.image id).subst fun j => (s'.image j).subst θ := subst_congr fun w _ => (h w.id).symm
    _ = ((s.image id).subst s'.image).subst θ := (subst_subst _ _ _).symm
    _ = (s'.image id).subst θ := by rw [h' id]
    _ = θ id := h id

theorem Solves.bound {θ : Nat → Ty} {s : Subst} {v : TypeVar} {t : Ty}
    (h : Solves θ (s.bind v t)) : θ v.id = t.subst θ := by
  have := h v.id
  rwa [image_bound (by rw [get?_types_bind, if_pos rfl]), subst_erase, eq_comm] at this

theorem Solves.subst_apply {θ : Nat → Ty} {s : Subst} (h : Solves θ s) (hs : s.Resolved) (t : Ty) :
    (s.apply t).subst θ = t.subst θ := by
  rw [← subst_erase, hs.erase_apply, subst_subst]
  exact subst_congr fun w _ => h w.id

end Polytype.Subst
