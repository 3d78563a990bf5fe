import Polytype.Proofs.Assoc
import Polytype.Proofs.Subst.Image

namespace Polytype.Subst

open Ty

section

variable {params : List TypeVar} {types : List Ty}

theorem relevel_ofPairs (pairs : List (TypeVar × Ty)) (v : TypeVar) :
    (ofPairs pairs).relevel v = v := rfl

theorem mem_of_get?_ofPairs {pairs : List (TypeVar × Ty)} {id : Nat} {t : Ty}
    (h : (ofPairs pairs).types.get? id = some t) : ∃ pair ∈ pairs, pair.1.id = id ∧ pair.2 = t := by
  rcases Assoc.mem_of_mem_insertAll (Assoc.mem_of_get? h) with h | h
  · obtain ⟨pair, hpair, heq⟩ := List.mem_map.1 h
    obtain ⟨rfl, rfl⟩ := Prod.mk.inj heq
    exact ⟨pair, (List.mem_filter.1 hpair).1, rfl, rfl⟩
  · simp at h

theorem isVar_of_get?_ofPairs {pairs : List (TypeVar × Ty)} {id : Nat}
    (h : (ofPairs pairs).types.get? id = none) {pair : TypeVar × Ty} (hpair : pair ∈ pairs)
    (hid : pair.1.id = id) : isVar pair.2 id = true := by
  by_cases hvar : isVar pair.2 id = true
  · exact hvar
  · refine absurd hid ((Assoc.get?_insertAll_eq_none.1 h).2 (pair.1.id, pair.2) ?_)
    exact List.mem_map.2 ⟨pair, List.mem_filter.2 ⟨hpair, by simpa [hid] using hvar⟩, rfl⟩

theorem mentions_of_isVar {t : Ty} {id : Nat} (h : isVar t id = true) : t.mentions id = true := by
  cases t with
  | var v => exact mentions_var.2 (by simpa [isVar] using h)
  | _ => simp [isVar] at h

theorem exists_pair (hlength : params.length = types.length) {p : TypeVar} (hp : p ∈ params) :
    ∃ t ∈ types, (p, t) ∈ params.zip types := by
  induction params generalizing types with
  | nil => simp at hp
  | cons first params ih =>
    cases types with
    | nil => simp at hlength
    | cons t types =>
      rcases List.mem_cons.1 hp with rfl | hp
      · exact ⟨t, List.mem_cons_self, List.mem_cons_self⟩
      · obtain ⟨u, hu, hpair⟩ := ih (by simpa using hlength) hp
        exact ⟨u, List.mem_cons_of_mem _ hu, List.mem_cons_of_mem _ hpair⟩

theorem mentions_of_instance (hlength : params.length = types.length) {t : Ty}
    (closed : ∀ v ∈ t.vars, ∃ p ∈ params, p.id = v.id) {id : Nat}
    (h : ((ofPairs (params.zip types)).apply t).mentions id = true) :
    ∃ u ∈ types, u.mentions id = true := by
  let D : Nat → Prop := fun id => ∃ u ∈ types, u.mentions id = true
  have hD : Hereditary D anyLevel (Within D) := hereditary_within D
  have keeps : (ofPairs (params.zip types)).Keeps D (Within D) := by
    refine ⟨fun {id u} _ hu => ?_, fun _ _ hf => by simp [ofPairs] at hf⟩
    obtain ⟨pair, hpair, -, rfl⟩ := mem_of_get?_ofPairs hu
    exact within_iff.2 fun v hv =>
      ⟨pair.2, (List.of_mem_zip hpair).2, mentions_iff.2 ⟨v, hv, rfl⟩⟩
  -- A parameter may be unbound all the same, if it is given itself as an argument.
  have resolved : ∀ steps, ∀ v ∈ t.vars, steps ≠ 0 ∨ (ofPairs (params.zip types)).types = [] →
      Within D ((ofPairs (params.zip types)).resolve steps v) := by
    intro steps v hv hsteps
    cases hget : (ofPairs (params.zip types)).types.get? v.id with
    | some u =>
      cases steps with
      | zero => simp [hsteps.resolve_left (by simp)] at hget
      | succ steps =>
        obtain ⟨pair, hpair, -, rfl⟩ := mem_of_get?_ofPairs hget
        simp only [resolve, hget]
        have hu : Within D pair.2 := within_iff.2 fun v hv =>
          ⟨pair.2, (List.of_mem_zip hpair).2, mentions_iff.2 ⟨v, hv, rfl⟩⟩
        exact hD.mapVars hu fun w hw =>
          keeps.resolve hD (levelsAbove_zero _) steps (hD.vars hu hw)
    | none =>
      rw [resolve_unbound (isBound_eq_false.2 hget), relevel_ofPairs]
      obtain ⟨p, hp, hid⟩ := closed v hv
      obtain ⟨u, hu, hpair⟩ := exists_pair hlength hp
      exact .var ⟨u, hu, mentions_of_isVar (isVar_of_get?_ofPairs hget hpair hid)⟩
  obtain ⟨w, hw, rfl⟩ := mentions_iff.1 h
  obtain ⟨v, hv, hw⟩ := mem_vars_mapVars.1 hw
  refine within_iff.1 (resolved _ v hv ?_) w hw
  cases hempty : (ofPairs (params.zip types)).types with
  | nil => exact .inr rfl
  | cons entry rest => exact .inl (by simp [size, hempty])

theorem within_instance {C : Nat → Prop} {t u : Ty} (hlength : params.length = t.args.length)
    (closed : ∀ v ∈ u.vars, ∃ p ∈ params, p.id = v.id) (ht : Within C t) :
    Within C ((ofPairs (params.zip t.args)).apply u) := by
  refine within_iff.2 fun v hv => ?_
  obtain ⟨a, ha, hmem⟩ := mentions_of_instance hlength closed (mentions_iff.2 ⟨v, hv, rfl⟩)
  obtain ⟨w, hw, hid⟩ := mentions_iff.1 hmem
  exact hid ▸ within_iff.1 ht w (mem_vars_of_args ha hw)

end

section Apart

variable {params : List TypeVar} {types : List Ty}
  (apart : ∀ p ∈ params, ∀ t ∈ types, t.mentions p.id = false)

include apart in
theorem resolved_ofPairs : (ofPairs (params.zip types)).Resolved := by
  intro id t ht
  obtain ⟨pair, hpair, -, rfl⟩ := mem_of_get?_ofPairs ht
  refine within_iff.2 fun v hv => ?_
  cases hget : (ofPairs (params.zip types)).types.get? v.id with
  | none => exact isBound_eq_false.2 hget
  | some u =>
    obtain ⟨other, hother, hid, -⟩ := mem_of_get?_ofPairs hget
    have := apart _ (List.of_mem_zip hother).1 _ (List.of_mem_zip hpair).2
    rw [hid, mentions_iff.2 ⟨v, hv, rfl⟩] at this
    simp at this

include apart in
theorem apply_ofPairs (t : Ty) :
    (ofPairs (params.zip types)).apply t =
      t.mapVars fun v => ((ofPairs (params.zip types)).types.get? v.id).getD (.var v) := by
  refine mapVars_congr fun v _ => ?_
  rw [(resolved_ofPairs apart).resolve]
  cases (ofPairs (params.zip types)).types.get? v.id with
  | none => rfl
  | some u => exact mapVars_var u

include apart in
theorem mem_vars_instance (hlength : params.length = types.length) {t : Ty} {w : TypeVar}
    (h : w ∈ ((ofPairs (params.zip types)).apply t).vars) :
    (∃ u ∈ types, w ∈ u.vars) ∨ w ∈ t.vars ∧ ∀ p ∈ params, p.id ≠ w.id := by
  rw [apply_ofPairs apart] at h
  obtain ⟨v, hv, hw⟩ := mem_vars_mapVars.1 h
  cases hget : (ofPairs (params.zip types)).types.get? v.id with
  | some u =>
    obtain ⟨pair, hpair, -, rfl⟩ := mem_of_get?_ofPairs hget
    exact .inl ⟨pair.2, (List.of_mem_zip hpair).2, by simpa [hget] using hw⟩
  | none =>
    obtain rfl : w = v := by simpa [hget, vars] using hw
    refine .inr ⟨hv, fun p hp hid => ?_⟩
    obtain ⟨u, hu, hpair⟩ := exists_pair hlength hp
    have occurs := mentions_of_isVar (isVar_of_get?_ofPairs hget hpair hid)
    simp [hid ▸ apart p hp u hu] at occurs

include apart in
theorem subst_instance (θ : Nat → Ty) (t : Ty) :
    ((ofPairs (params.zip types)).apply t).subst θ =
      t.subst fun id => ((ofPairs (params.zip types)).image id).subst θ := by
  rw [← subst_erase, (resolved_ofPairs apart).erase_apply, subst_subst]

theorem image_ofPairs {id : Nat} (h : ∀ p ∈ params, p.id ≠ id) :
    (ofPairs (params.zip types)).image id = ofId id := by
  refine image_unbound (isBound_eq_false.2 ?_)
  cases hget : (ofPairs (params.zip types)).types.get? id with
  | none => rfl
  | some u =>
    obtain ⟨pair, hpair, hid, -⟩ := mem_of_get?_ofPairs hget
    exact absurd hid (h _ (List.of_mem_zip hpair).1)

end Apart

/-! ## Closed types -/

def filling (params : List TypeVar) (types : List Ty) (id : Nat) : Ty :=
  ((ofPairs (params.zip types)).types.get? id).getD (ofId id)

section Filling

variable {params : List TypeVar} {types : List Ty}
  (apart : ∀ p ∈ params, ∀ t ∈ types, t.mentions p.id = false)

include apart in
theorem exists_filling (hlength : params.length = types.length) {p : TypeVar} (hp : p ∈ params) :
    ∃ t ∈ types, (ofPairs (params.zip types)).types.get? p.id = some t := by
  cases hget : (ofPairs (params.zip types)).types.get? p.id with
  | some t =>
    obtain ⟨pair, hpair, -, rfl⟩ := mem_of_get?_ofPairs hget
    exact ⟨pair.2, (List.of_mem_zip hpair).2, rfl⟩
  | none =>
    obtain ⟨t, ht, hpair⟩ := exists_pair hlength hp
    have occurs := mentions_of_isVar (isVar_of_get?_ofPairs hget hpair rfl)
    simp [apart p hp t ht] at occurs

include apart in
theorem filling_mem (hlength : params.length = types.length) {p : TypeVar} (hp : p ∈ params) :
    filling params types p.id ∈ types := by
  obtain ⟨t, ht, hget⟩ := exists_filling apart hlength hp
  simpa [filling, hget] using ht

include apart in
theorem apply_filling (hlength : params.length = types.length) {t : Ty}
    (closed : ∀ v ∈ t.vars, ∃ p ∈ params, p.id = v.id) :
    (ofPairs (params.zip types)).apply t = t.subst (filling params types) := by
  rw [apply_ofPairs apart]
  refine mapVars_congr fun v hv => ?_
  obtain ⟨p, hp, hid⟩ := closed v hv
  obtain ⟨u, -, hget⟩ := exists_filling apart hlength hp
  rw [hid] at hget
  simp [filling, hget]

include apart in
theorem ofPairs_types : (ofPairs (params.zip types)).types =
    Assoc.ofList ((params.zip types).map fun pair => (pair.1.id, pair.2)) := by
  have all : (params.zip types).filter (fun pair => !isVar pair.2 pair.1.id) =
      params.zip types := by
    refine List.filter_eq_self.2 fun pair hpair => ?_
    obtain ⟨hp, ht⟩ := List.of_mem_zip hpair
    cases hvar : isVar pair.2 pair.1.id with
    | false => rfl
    | true =>
      have occurs := mentions_of_isVar hvar
      simp [apart _ hp _ ht] at occurs
  rw [ofPairs, all]

include apart in
theorem filling_related {types' : List Ty} {R : Ty → Ty → Prop}
    (apart' : ∀ p ∈ params, ∀ t ∈ types', t.mentions p.id = false)
    (h : List.Forall₂ R types types') (hlength : params.length = types.length) {p : TypeVar}
    (hp : p ∈ params) : R (filling params types p.id) (filling params types' p.id) := by
  have zipped : List.Forall₂ (fun entry entry' : Nat × Ty => entry.1 = entry'.1 ∧ R entry.2 entry'.2)
      ((params.zip types).map fun pair => (pair.1.id, pair.2))
      ((params.zip types').map fun pair => (pair.1.id, pair.2)) := by
    clear hp hlength apart apart'
    induction h generalizing params with
    | nil => simp
    | cons hR _ ih =>
      cases params with
      | nil => simp
      | cons p params => exact .cons ⟨rfl, hR⟩ ih
  have related := Assoc.rel_insertAll zipped
    (show ∀ key, Option.Rel R (Assoc.get? [] key) (Assoc.get? [] key) from fun _ => .none) p.id
  obtain ⟨t, -, ht⟩ := exists_filling apart hlength hp
  obtain ⟨t', -, ht'⟩ := exists_filling apart' (hlength.trans h.length_eq) hp
  unfold filling
  rw [ht, ht']
  rw [ofPairs_types apart, Assoc.ofList] at ht
  rw [ofPairs_types apart', Assoc.ofList] at ht'
  rw [ht, ht'] at related
  cases related with
  | some hR => exact hR

end Filling

end Polytype.Subst
