import Polytype.Proofs.Assoc
import Polytype.Proofs.Subst.Absorption

namespace Polytype

namespace Assoc

variable {α β : Type} {entries : Assoc Nat α}

/-- The entries are in ascending order of keys. -/
def Sorted (entries : Assoc Nat α) : Prop := (keys entries).Pairwise (· < ·)

instance (entries : Assoc Nat α) : Decidable (Sorted entries) :=
  inferInstanceAs (Decidable ((keys entries).Pairwise (· < ·)))

theorem Sorted.nodup (h : Sorted entries) : (keys entries).Nodup := List.Pairwise.imp Nat.ne_of_lt h

theorem Sorted.insert (h : Sorted entries) (key : Nat) (a : α) :
    Sorted (Assoc.insert entries key a) := by
  induction entries with
  | nil => exact List.pairwise_singleton _ _
  | cons entry rest ih =>
    obtain ⟨k, b⟩ := entry
    obtain ⟨first, rest⟩ := List.pairwise_cons.1 h
    unfold Assoc.insert
    split
    · rename_i heq
      exact List.pairwise_cons.2 ⟨heq ▸ first, rest⟩
    split
    · rename_i hlt
      refine List.pairwise_cons.2 ⟨List.forall_mem_cons.2 ⟨hlt, fun other mem => ?_⟩, h⟩
      exact Nat.lt_trans hlt (first other mem)
    · rename_i hne hnlt
      refine List.pairwise_cons.2 ⟨fun other mem => ?_, ih rest⟩
      rcases mem_keys_insert.1 mem with rfl | mem
      · exact Nat.lt_of_le_of_ne (Nat.le_of_not_lt hnlt) (Ne.symm hne)
      · exact first other mem

theorem Sorted.insertAll (h : Sorted entries) (later : List (Nat × α)) :
    Sorted (Assoc.insertAll entries later) := by
  induction later generalizing entries with
  | nil => exact h
  | cons entry later ih => exact ih (h.insert entry.1 entry.2)

theorem Sorted.mapValues (h : Sorted entries) (f : α → β) : Sorted (Assoc.mapValues f entries) := by
  have same : keys (Assoc.mapValues f entries) = keys entries := by
    simp [keys, Assoc.mapValues, Function.comp_def]
  rwa [Sorted, same]

end Assoc

open Ty

namespace Subst

variable {newer older : Subst}

/-- The bindings and the levels are in ascending order of ids, as `insert` keeps them. -/
structure Sorted (s : Subst) : Prop where
  types : s.types.Sorted
  levels : s.levels.Sorted

/-- Both substitutions are resolved, they bind different variables, and no variable in a type bound by
the newer one is bound by the older one. -/
structure TriangularOver (newer older : Subst) : Prop where
  newer_resolved : newer.Resolved
  older_resolved : older.Resolved
  disjoint : ∀ id, newer.isBound id = true → older.isBound id = false
  apart : ∀ id t, newer.types.get? id = some t → older.Settled t

/-! ## What a composition knows -/

section Composition

variable (sorted : newer.Sorted)

include sorted in
theorem get?_types_compose (older : Subst) (id : Nat) :
    (newer.compose older).types.get? id =
      (newer.types.get? id).or ((older.types.get? id).map newer.apply) := by
  rw [← Assoc.get?_mapValues]
  exact Assoc.get?_insertAll_of_nodup sorted.types.nodup _ id

include sorted in
theorem isBound_compose (older : Subst) (id : Nat) :
    (newer.compose older).isBound id = (newer.isBound id || older.isBound id) := by
  unfold isBound Assoc.contains
  rw [get?_types_compose sorted, Option.isSome_or, Option.isSome_map]

theorem get?_lowest {later : Assoc Nat Nat} (distinct : (Assoc.keys later).Nodup)
    (levels : Assoc Nat Nat) (id : Nat) :
    (lowest levels later).get? id = (levels.get? id).merge min (later.get? id) := by
  induction later generalizing levels with
  | nil => exact Option.merge_none_right.symm
  | cons entry later ih =>
    obtain ⟨key, level⟩ := entry
    obtain ⟨fresh, distinct⟩ := List.nodup_cons.1 distinct
    rw [lowest_cons, ih distinct, lowerTo, Assoc.get?_insert, Assoc.get?_cons]
    by_cases h : key = id
    · subst h
      rw [Assoc.get?_eq_none.2 fresh, if_pos rfl, if_pos rfl]
      cases levels.get? key <;> rfl
    · rw [if_neg h, if_neg h]

theorem sorted_lowest {levels : Assoc Nat Nat} (h : levels.Sorted) (later : Assoc Nat Nat) :
    (lowest levels later).Sorted := by
  induction later generalizing levels with
  | nil => exact h
  | cons entry later ih => exact ih (h.insert _ _)

theorem Sorted.compose (newer : Subst) (h : older.Sorted) : (newer.compose older).Sorted :=
  ⟨(h.types.mapValues newer.apply).insertAll newer.types, sorted_lowest h.levels newer.levels⟩

end Composition

/-! ## Triangular substitutions -/

theorem Resolved.within_apply {s : Subst} {C : Nat → Prop} (hs : s.Resolved)
    (bound : ∀ id t, s.types.get? id = some t → Within C t) {t : Ty} (ht : Within C t) :
    Within C (s.apply t) := by
  refine within_iff.2 fun w hw => ?_
  obtain ⟨x, rfl, -, hx | ⟨v, -, u, hu, hx⟩⟩ := hs.mem_vars_apply hw
  · simpa using within_iff.1 ht x hx
  · simpa using within_iff.1 (bound v.id u hu) x hx

theorem settled_compose (sorted : newer.Sorted) {t : Ty} (hnewer : newer.Settled t)
    (holder : older.Settled t) : (newer.compose older).Settled t := by
  refine within_iff.2 fun v hv => ?_
  rw [isBound_compose sorted, within_iff.1 hnewer v hv, within_iff.1 holder v hv]
  rfl

namespace TriangularOver

variable (h : newer.TriangularOver older) (sorted : newer.Sorted)

include h sorted

theorem settled_apply {t : Ty} (ht : older.Settled t) :
    (newer.compose older).Settled (newer.apply t) :=
  settled_compose sorted (h.newer_resolved.settled_apply t) (h.newer_resolved.within_apply h.apart ht)

theorem resolved : (newer.compose older).Resolved := by
  intro id t ht
  rw [get?_types_compose sorted] at ht
  rcases Option.or_eq_some_iff.1 ht with hnewer | ⟨-, holder⟩
  · exact settled_compose sorted (h.newer_resolved id t hnewer) (h.apart id t hnewer)
  · obtain ⟨u, hu, rfl⟩ := Option.map_eq_some_iff.1 holder
    exact h.settled_apply sorted (h.older_resolved id u hu)

theorem image_compose (id : Nat) :
    (newer.compose older).image id = (older.image id).subst newer.image := by
  cases holder : older.types.get? id with
  | none =>
    rw [image_unbound (isBound_eq_false.2 holder), subst_var, image, image,
      get?_types_compose sorted, holder]
    simp
  | some u =>
    -- The older one binds the variable, so the newer one does not.
    have unbound : newer.types.get? id = none := by
      refine isBound_eq_false.1 (Bool.eq_false_iff.2 fun bound => ?_)
      simp [isBound_eq_false.1 (h.disjoint id bound)] at holder
    have bound : (newer.compose older).types.get? id = some (newer.apply u) := by
      rw [get?_types_compose sorted, unbound, holder]
      rfl
    rw [image_bound bound, image_bound holder, h.newer_resolved.erase_apply, subst_erase]

theorem apply_compose (t : Ty) :
    ((newer.compose older).apply t).same (newer.apply (older.apply t)) = true := by
  rw [same_iff]
  calc ((newer.compose older).apply t).erase
      = t.subst (newer.compose older).image := (h.resolved sorted).erase_apply t
    _ = t.subst fun id => (older.image id).subst newer.image :=
        subst_congr fun v _ => h.image_compose sorted v.id
    _ = (t.subst older.image).subst newer.image := (subst_subst _ _ t).symm
    _ = (older.apply t).subst newer.image := by
        rw [← h.older_resolved.erase_apply, subst_erase]
    _ = (newer.apply (older.apply t)).erase := (h.newer_resolved.erase_apply _).symm

theorem absorbs_newer : (newer.compose older).Absorbs newer := by
  refine h.newer_resolved.absorbs_of (h.resolved sorted) (lowers_newer (fun _ h => h) rfl) ?_
  intro v u hu
  refine (h.resolved sorted).apply_bound ?_
  rw [get?_types_compose sorted, hu, Option.some_or]

theorem absorbs_older : (newer.compose older).Absorbs older := by
  refine h.older_resolved.absorbs_of (h.resolved sorted) (lowers_lowest rfl rfl) fun v u hu => ?_
  have unbound : newer.types.get? v.id = none := by
    refine isBound_eq_false.1 (Bool.eq_false_iff.2 fun bound => ?_)
    simp [isBound_eq_false.1 (h.disjoint v.id bound)] at hu
  have bound : (newer.compose older).types.get? v.id = some (newer.apply u) := by
    rw [get?_types_compose sorted, unbound, hu]
    rfl
  rw [(h.resolved sorted).apply_bound bound, h.absorbs_newer sorted u]

end TriangularOver

/-! ## Three substitutions -/

section Three

variable {a b c : Subst} (hab : a.TriangularOver b) (hac : a.TriangularOver c)
  (hbc : b.TriangularOver c) (ha : a.Sorted) (hb : b.Sorted)

include hab hac hbc hb in
theorem TriangularOver.over_compose : a.TriangularOver (b.compose c) where
  newer_resolved := hab.newer_resolved
  older_resolved := hbc.resolved hb
  disjoint id bound := by
    rw [isBound_compose hb, hab.disjoint id bound, hac.disjoint id bound]
    rfl
  apart id t ht := settled_compose hb (hab.apart id t ht) (hac.apart id t ht)

include hab hac hbc ha in
theorem TriangularOver.compose_over : (a.compose b).TriangularOver c where
  newer_resolved := hab.resolved ha
  older_resolved := hac.older_resolved
  disjoint id bound := by
    rw [isBound_compose ha, Bool.or_eq_true] at bound
    exact bound.elim (hac.disjoint id) (hbc.disjoint id)
  apart id t ht := by
    rw [get?_types_compose ha] at ht
    rcases Option.or_eq_some_iff.1 ht with bound | ⟨-, bound⟩
    · exact hac.apart id t bound
    · obtain ⟨u, hu, rfl⟩ := Option.map_eq_some_iff.1 bound
      exact hab.newer_resolved.within_apply hac.apart (hbc.apart id u hu)

include hab ha hb in
theorem types_compose_assoc (id : Nat) :
    Option.Rel (fun t u => t.same u = true) ((a.compose (b.compose c)).types.get? id)
      (((a.compose b).compose c).types.get? id) := by
  have sorted : (a.compose b).Sorted := hb.compose a
  rw [get?_types_compose ha, get?_types_compose hb, get?_types_compose sorted,
    get?_types_compose ha]
  have refl (t : Ty) : t.same t = true := same_iff.2 rfl
  cases a.types.get? id with
  | some t => exact .some (refl t)
  | none =>
    cases b.types.get? id with
    | some t => exact .some (refl _)
    | none =>
      cases c.types.get? id with
      | none => exact .none
      | some t => exact .some (same_iff.2 (same_iff.1 (hab.apply_compose ha t)).symm)

include ha hb in
theorem levels_compose_assoc (id : Nat) :
    (a.compose (b.compose c)).levels.get? id = ((a.compose b).compose c).levels.get? id := by
  calc (a.compose (b.compose c)).levels.get? id
      = ((c.levels.get? id).merge min (b.levels.get? id)).merge min (a.levels.get? id) := by
        rw [← get?_lowest hb.levels.nodup]
        exact get?_lowest ha.levels.nodup _ id
    _ = (c.levels.get? id).merge min ((b.levels.get? id).merge min (a.levels.get? id)) :=
        Std.Associative.assoc _ _ _
    _ = ((a.compose b).compose c).levels.get? id := by
        rw [← get?_lowest ha.levels.nodup]
        exact (get?_lowest (sorted_lowest hb.levels a.levels).nodup _ id).symm

include hab hac hbc ha hb in
theorem apply_compose_assoc (t : Ty) :
    (a.compose (b.compose c)).apply t = ((a.compose b).compose c).apply t := by
  have left := hab.over_compose hac hbc hb
  have right := hab.compose_over hac hbc ha
  have sorted : (a.compose b).Sorted := hb.compose a
  -- What remains of the type once all three have been applied is bound by none of them.
  let remains := a.apply (b.apply (c.apply t))
  have settled : (a.compose (b.compose c)).Settled remains :=
    left.settled_apply ha (hbc.settled_apply hb (hbc.older_resolved.settled_apply t))
  have reads : (a.compose (b.compose c)).apply remains = (a.compose (b.compose c)).apply t := by
    rw [left.absorbs_newer ha, (left.absorbs_older ha).trans (hbc.absorbs_newer hb),
      (left.absorbs_older ha).trans (hbc.absorbs_older hb)]
  have reads' : ((a.compose b).compose c).apply remains = ((a.compose b).compose c).apply t := by
    rw [(right.absorbs_newer sorted).trans (hab.absorbs_newer ha),
      (right.absorbs_newer sorted).trans (hab.absorbs_older ha), right.absorbs_older sorted]
  rw [← reads, ← reads']
  refine mapVars_congr fun v hv => ?_
  have unbound : (a.compose (b.compose c)).isBound v.id = false := within_iff.1 settled v hv
  have unbound' : ((a.compose b).compose c).isBound v.id = false := by
    rwa [isBound_compose sorted, isBound_compose ha, Bool.or_assoc, ← isBound_compose hb,
      ← isBound_compose ha]
  rw [resolve_unbound unbound, resolve_unbound unbound', relevel, relevel,
    levels_compose_assoc ha hb v.id]

end Three

/-- Composition of triangular substitutions is function composition, up to levels. It is associative:
the bindings, the levels and what is made of a type are the same. -/
theorem compose_triangular :
    (∀ newer older : Subst, newer.Sorted → newer.TriangularOver older →
      ∀ t, ((newer.compose older).apply t).same (newer.apply (older.apply t)) = true) ∧
    ∀ a b c : Subst, a.Sorted → b.Sorted →
      a.TriangularOver b → a.TriangularOver c → b.TriangularOver c →
      let left := a.compose (b.compose c)
      let right := (a.compose b).compose c
      (∀ id, Option.Rel (fun t u => t.same u = true) (left.types.get? id) (right.types.get? id)) ∧
      (∀ id, left.levels.get? id = right.levels.get? id) ∧
      ∀ t, left.apply t = right.apply t := by
  refine ⟨fun newer older sorted h => h.apply_compose sorted,
    fun a b c ha hb hab hac hbc => ⟨?_, ?_, ?_⟩⟩
  · exact types_compose_assoc hab ha hb
  · exact levels_compose_assoc ha hb
  · exact apply_compose_assoc hab hac hbc ha hb

/-- The level that the composition gives a variable is lower than the one that both substitutions give
it one after the other. -/
theorem compose_triangular_chain :
    let v (id : Nat) : Ty := .var ⟨id, 5⟩
    let a : Subst := { types := [(3, v 4)] }
    let b : Subst := { types := [(1, .list (v 3))], levels := [(4, 1)] }
    let c : Subst := { types := [(0, .func [v 1] (v 2))] }
    (a.Sorted ∧ b.Sorted ∧ a.TriangularOver b ∧ a.TriangularOver c ∧ b.TriangularOver c) ∧
    (a.compose b).apply (v 3) = .var ⟨4, 1⟩ ∧ a.apply (b.apply (v 3)) = v 4 ∧
    ((a.compose b).apply (v 3)).same (a.apply (b.apply (v 3))) = true ∧
    ∀ t, (a.compose (b.compose c)).apply t = ((a.compose b).compose c).apply t := by
  intro v a b c
  have ha : a.Sorted := ⟨by decide, by decide⟩
  have hb : b.Sorted := ⟨by decide, by decide⟩
  have bound {s : Subst} {key : Nat} {u : Ty} (hs : s.types = [(key, u)]) {C : Nat → Prop}
      (hu : Within C u) : ∀ id t, s.types.get? id = some t → Within C t := by
    intro id t ht
    obtain ⟨-, rfl⟩ : id = key ∧ t = u := by simpa [hs] using Assoc.mem_of_get? ht
    exact hu
  have triangular {s s' : Subst} {key key' : Nat} {u u' : Ty} (hs : s.types = [(key, u)])
      (hs' : s'.types = [(key', u')]) (hu : s.Settled u) (hu' : s'.Settled u') (hne : key ≠ key')
      (apart : s'.Settled u) : s.TriangularOver s' := by
    refine ⟨bound hs hu, bound hs' hu', fun id hid => ?_, bound hs apart⟩
    simp only [isBound, Assoc.contains, hs, hs', Assoc.get?_cons] at hid ⊢
    by_cases h : key = id
    · simp [← h, hne.symm]
    · simp [h] at hid
  have var {s : Subst} {id : Nat} (h : s.isBound id = false) : s.Settled (v id) := .var h
  have hab : a.TriangularOver b := triangular rfl rfl (var rfl)
    (.app trivial (.const trivial) (by simpa using var rfl)) (by decide) (var rfl)
  have hac : a.TriangularOver c := triangular rfl rfl (var rfl)
    (.func trivial (by simpa using var rfl) (var rfl)) (by decide) (var rfl)
  have hbc : b.TriangularOver c := triangular rfl rfl
    (.app trivial (.const trivial) (by simpa using var rfl))
    (.func trivial (by simpa using var rfl) (var rfl)) (by decide)
    (.app trivial (.const trivial) (by simpa using var rfl))
  exact ⟨⟨ha, hb, hab, hac, hbc⟩, rfl, rfl, compose_triangular.1 a b ha hab (v 3),
    (compose_triangular.2 a b c ha hb hab hac hbc).2.2⟩

end Subst

end Polytype
