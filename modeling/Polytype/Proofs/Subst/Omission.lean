import Polytype.Proofs.Subst.Evolution

namespace Polytype

open Ty

theorem Ty.within_ne {id : Nat} {t : Ty} : Within (· ≠ id) t ↔ t.mentions id = false := by
  rw [within_iff, Bool.eq_false_iff, ne_eq, mentions_iff]
  simp

namespace Subst

structure Omits (s : Subst) (id : Nat) : Prop where
  unbound : s.isBound id = false
  unrecorded : s.records.get? id = none
  unlowered : s.levels.get? id = none
  types : ∀ {other t}, s.types.get? other = some t → t.mentions id = false
  fields : ∀ {other fields}, s.records.get? other = some fields →
    (Ty.record fields).mentions id = false

theorem omits_empty (id : Nat) : Subst.empty.Omits id :=
  ⟨rfl, rfl, rfl, fun h => by simp [Subst.empty] at h, fun h => by simp [Subst.empty] at h⟩

section Omits

variable {s s' : Subst} {id : Nat}

theorem Omits.keeps (h : s.Omits id) : s.Keeps (· ≠ id) (Within (· ≠ id)) :=
  ⟨fun _ ht => within_ne.2 (h.types ht), fun _ _ hf => within_ne.2 (h.fields hf)⟩

theorem Omits.stale (h : s.Omits id) : s.Stale (· ≠ id) (Within (· ≠ id)) :=
  fun _ _ _ _ hf => within_ne.2 (h.fields hf)

theorem Omits.mentions_apply (h : s.Omits id) {t : Ty} (ht : t.mentions id = false) :
    (s.apply t).mentions id = false :=
  within_ne.1 (h.keeps.apply (hereditary_within _) (levelsAbove_zero s) (within_ne.2 ht))

theorem Evolves.omits {definition : Ty → Option Ty} {inputs : List Ty}
    (h : Evolves definition inputs s s') (resolved : s.Resolved)
    (hdef : ∀ t t', t.mentions id = false → definition t = some t' → t'.mentions id = false)
    (hinputs : ∀ t ∈ inputs, t.mentions id = false) (omits : s.Omits id) : s'.Omits id := by
  have ext := h.extension (hereditary_within (· ≠ id))
    (fun t t' ht heq => within_ne.2 (hdef t t' (within_ne.1 ht) heq)) (levelsAbove_zero s') resolved
    omits.keeps fun t ht => within_ne.2 (hinputs t ht)
  have unbound : s'.isBound id = false := (ext.frame id (by simp)).trans omits.unbound
  have unrecorded := ext.recorded id (by simp) omits.unrecorded
  refine ⟨unbound, unrecorded, ?_, fun {other t} ht => ?_, fun {other fields} hf => ?_⟩
  · cases hl : s'.levels.get? id with
    | none => rfl
    | some l =>
      rcases ext.origin id l hl with hold | ⟨v, hv, hid, -⟩
      · simp [omits.unlowered] at hold
      · exact absurd hid (everywhere_var.1 hv)
  · have hne : other ≠ id := by
      rintro rfl
      simp [isBound_eq_false.1 unbound] at ht
    exact within_ne.1 (ext.keeps.types hne ht)
  · have hne : other ≠ id := by
      rintro rfl
      simp [unrecorded] at hf
    cases hb : s'.isBound other with
    | false => exact within_ne.1 (ext.keeps.records hne hb hf)
    | true => exact within_ne.1 (ext.stale omits.stale other fields hne hb hf)

theorem Disciplined.of_omits {birth birth' : Nat → Nat} (hd : s.Disciplined birth)
    (h : ∀ id, birth' id = birth id ∨ s.Omits id) : s.Disciplined birth' := by
  have level {id : Nat} (heq : birth' id = birth id) : s.level birth' id = s.level birth id := by
    simp only [Subst.level, heq]
  have between {t : Ty} (occurs : ∀ id, t.mentions id = true → birth' id = birth id)
      (ht : AllVars (s.Between birth) t) : AllVars (s.Between birth') t :=
    allVars_iff.2 fun v hv => by
      have heq := occurs v.id (mentions_iff.2 ⟨v, hv, rfl⟩)
      have hv := allVars_iff.1 ht v hv
      exact ⟨(level heq).symm ▸ hv.1, heq.symm ▸ hv.2⟩
  have typed {other id : Nat} {t : Ty} (ht : s.types.get? other = some t)
      (hid : t.mentions id = true) : birth' id = birth id :=
    (h id).resolve_right fun omits => by simp [omits.types ht] at hid
  have recorded {other id : Nat} {fields : List (String × Ty)}
      (hf : s.records.get? other = some fields) (hid : (Ty.record fields).mentions id = true) :
      birth' id = birth id :=
    (h id).resolve_right fun omits => by simp [omits.fields hf] at hid
  refine ⟨hd.resolved, ⟨fun _ ht => between (fun _ => typed ht) (hd.keeps.types trivial ht),
    fun _ hb hf => between (fun _ => recorded hf) (hd.keeps.records trivial hb hf)⟩,
    fun {id other} hmem => ?_, fun {id other} hb link => ?_⟩
  · cases ht : s.types.get? id with
    | none =>
      rw [image_unbound (isBound_eq_false.2 ht)] at hmem
      exact Nat.le_of_eq (congrArg _ (mentions_var.1 hmem).symm)
    | some t =>
      have bound : birth' id = birth id := (h id).resolve_right fun omits => by
        simp [isBound_eq_false.1 omits.unbound] at ht
      have hle := hd.types hmem
      rw [image_bound ht, mentions_erase] at hmem
      rwa [level bound, level (typed ht hmem)]
  · have hle := hd.records hb link
    obtain ⟨fields, hf, field, hfield, hmem⟩ := link
    have known : birth' id = birth id := (h id).resolve_right fun omits => by
      simp [omits.unrecorded] at hf
    -- A variable whose level of birth has changed occurs in no recorded field.
    have occurs : birth' other = birth other := (h other).resolve_right fun omits => by
      have away : Hereditary (· ≠ other) anyLevel (Within (· ≠ other)) := hereditary_within _
      have inside := within_ne.1 (away.field (within_ne.2 (omits.fields hf)) _ hfield)
      simp [omits.mentions_apply inside] at hmem
    rwa [level known, level occurs]

end Omits

end Subst

/-- The variable occurs nowhere at a point in the history: neither in the substitution, nor free in
the environment, nor in a scheme that was found. -/
def Milestone.Omits (id : Nat) : Milestone → Prop
  | solved s => s.Omits id
  | generalized env _ schemes s =>
    s.Omits id ∧ ¬env.Free id ∧ ∀ σ ∈ schemes, σ.ty.mentions id = false

end Polytype
