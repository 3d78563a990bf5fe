import Polytype.Proofs.Subst.Operation

namespace Polytype

open Ty

namespace Subst

variable {s s' s'' : Subst}

def Absorbs (s' s : Subst) : Prop := ∀ t, s'.apply (s.apply t) = s'.apply t

def Lowers (s' s : Subst) : Prop :=
  ∀ id l, s.levels.get? id = some l → ∃ l' ≤ l, s'.levels.get? id = some l'

theorem Resolved.absorbs (hs : s.Resolved) : s.Absorbs s := hs.apply_apply

theorem Absorbs.trans (h : s''.Absorbs s') (h' : s'.Absorbs s) : s''.Absorbs s := by
  intro t
  calc s''.apply (s.apply t) = s''.apply (s'.apply (s.apply t)) := (h _).symm
    _ = s''.apply (s'.apply t) := by rw [h' t]
    _ = s''.apply t := h t

/-! ## Single variables -/

theorem apply_var (s : Subst) (v : TypeVar) : s.apply (.var v) = s.resolve s.size v := rfl

theorem apply_mapVars (s : Subst) (f : TypeVar → Ty) (t : Ty) :
    s.apply (t.mapVars f) = t.mapVars fun v => s.apply (f v) :=
  mapVars_mapVars f _ t

theorem apply_unbound {v : TypeVar} (h : s.isBound v.id = false) :
    s.apply (.var v) = .var (s.relevel v) := resolve_unbound h _

theorem Resolved.apply_bound (hs : s.Resolved) {v : TypeVar} {u : Ty}
    (h : s.types.get? v.id = some u) : s.apply (.var v) = s.apply u := by
  rw [apply_var, hs.resolve, h]
  exact mapVars_congr fun w hw => (resolve_unbound (within_iff.1 (hs _ _ h) w hw) _).symm

theorem Lowers.relevel_relevel (h : s'.Lowers s) (v : TypeVar) :
    s'.relevel (s.relevel v) = s'.relevel v := by
  cases hl : s.levels.get? v.id with
  | none => simp [relevel, hl]
  | some l =>
    obtain ⟨l', hle, hl'⟩ := h v.id l hl
    simp only [relevel, hl, hl', TypeVar.mk.injEq, true_and]
    omega

theorem apply_relevel (hs : s'.Resolved) (h : s'.Lowers s) (v : TypeVar) :
    s'.apply (.var (s.relevel v)) = s'.apply (.var v) := by
  cases ht : s'.types.get? v.id with
  | none =>
    have unbound : s'.isBound v.id = false := isBound_eq_false.2 ht
    rw [apply_unbound unbound, apply_unbound (by simpa using unbound), h.relevel_relevel]
  | some u => rw [hs.apply_bound ht, hs.apply_bound (u := u) (by simpa using ht)]

theorem Resolved.absorbs_of (hs : s.Resolved) (hs' : s'.Resolved) (lowers : s'.Lowers s)
    (kept : ∀ v u, s.types.get? v.id = some u → s'.apply (.var v) = s'.apply u) :
    s'.Absorbs s := by
  intro t
  refine (apply_mapVars s' _ t).trans (mapVars_congr fun v _ => ?_)
  rw [hs.resolve]
  cases ht : s.types.get? v.id with
  | none => exact apply_relevel hs' lowers v
  | some u =>
    calc s'.apply (u.mapVars fun w => .var (s.relevel w))
        = u.mapVars fun w => s'.apply (.var (s.relevel w)) := apply_mapVars _ _ _
      _ = s'.apply u := mapVars_congr fun w _ => apply_relevel hs' lowers w
      _ = s'.apply (.var v) := (kept v u ht).symm

/-! ## The operations -/

theorem lowers_lowest {levels newer : Assoc Nat Nat} (hold : s.levels = levels)
    (h : s'.levels = lowest levels newer) : s'.Lowers s := by
  intro id l hl
  rw [h]
  exact lowest_le (hold ▸ hl)

theorem lowers_newer {levels newer : Assoc Nat Nat} (hmem : ∀ entry ∈ s.levels, entry ∈ newer)
    (h : s'.levels = lowest levels newer) : s'.Lowers s := by
  intro id l hl
  rw [h]
  exact lowest_le_newer (hmem _ (Assoc.mem_of_get? hl))

theorem Resolved.absorbs_binding (hs : s.Resolved) {v : TypeVar} {t : Ty} (ht : s.Settled t)
    (fresh : t.mentions v.id = false) : (s.bind v t).Absorbs (s.binding v t) := by
  have resolved : (s.bind v t).Resolved := resolved_bind hs ht fresh
  refine (resolved_binding fresh).absorbs_of resolved (lowers_newer (fun _ h => h) rfl) ?_
  intro w u hu
  rw [get?_types_binding] at hu
  split at hu
  · rename_i heq
    cases hu
    exact resolved.apply_bound (by rw [get?_types_bind, if_pos heq])
  · simp at hu

theorem Resolved.absorbs_bind (hs : s.Resolved) {v : TypeVar} {t : Ty} (ht : s.Settled t)
    (fresh : t.mentions v.id = false) (unbound : s.isBound v.id = false) :
    (s.bind v t).Absorbs s := by
  have resolved : (s.bind v t).Resolved := resolved_bind hs ht fresh
  refine hs.absorbs_of resolved (lowers_lowest rfl rfl) fun w u hu => ?_
  have hne : v.id ≠ w.id := fun heq => by
    rw [heq, isBound_eq_false, hu] at unbound
    simp at unbound
  rw [resolved.apply_bound (u := (s.binding v t).apply u) (by rw [get?_types_bind, if_neg hne, hu]; rfl),
    hs.absorbs_binding ht fresh u]

theorem Resolved.absorbs_lower (hs : s.Resolved) (t : Ty) (level : Nat) :
    (s.lower t level).Absorbs s := by
  obtain ⟨levels, hlevels, h⟩ := exists_lower s t level
  have resolved : (s.lower t level).Resolved := resolved_lower hs t level
  have lowering : Resolved { levels } := fun _ _ h => by simp at h
  have absorbed : (s.lower t level).Absorbs { levels } :=
    lowering.absorbs_of resolved (lowers_newer hlevels (lower_levels s t level))
      fun _ _ hu => by simp at hu
  refine hs.absorbs_of resolved (lowers_lowest rfl (lower_levels s t level)) fun w u hu => ?_
  rw [resolved.apply_bound (u := apply { levels } u) (by rw [(h w.id).1, hu]; rfl), absorbed u]

theorem apply_congr (htypes : s'.types = s.types) (hlevels : s'.levels = s.levels) (t : Ty) :
    s'.apply t = s.apply t := by
  have relevel (v : TypeVar) : s'.relevel v = s.relevel v := by rw [Subst.relevel, hlevels]; rfl
  have resolve (steps : Nat) (v : TypeVar) : s'.resolve steps v = s.resolve steps v := by
    induction steps generalizing v with
    | zero => rw [Subst.resolve, Subst.resolve, relevel]
    | succ steps ih =>
      rw [Subst.resolve, Subst.resolve, htypes, relevel]
      split
      · exact mapVars_congr fun w _ => ih w
      · rfl
  exact mapVars_congr fun v _ => by rw [size, htypes, resolve]; rfl

theorem Resolved.absorbs_requireField (hs : s.Resolved) (v : TypeVar) (field : String) (t : Ty) :
    (s.requireField v field t).Absorbs s := by
  obtain ⟨level, htypes, hlevels, -⟩ := exists_requireField s v field t
  intro u
  rw [apply_congr htypes hlevels, apply_congr htypes hlevels, hs.absorbs_lower t level u]

theorem absorbs_closeRecords {t : Ty} {level : Nat} (hs : s.Resolved)
    (h : (s.closeRecords t level).2 = .ok s') : s'.Absorbs s := by
  fun_induction closeRecords s t level with
  | case1 s hopen =>
    cases h
    exact hs.absorbs
  | case2 => simp at h
  | case3 s v fields hopen mentions closed result hrec ih =>
    obtain ⟨hv, hshape⟩ := openRecord?_spec hopen
    have settled : s.Settled (.record fields) := hs.settled_recordShape hshape
    have fresh : (Ty.record fields).mentions v.id = false := Bool.eq_false_iff.2 mentions
    have unbound : s.isBound v.id = false := within_iff.1 (hs.settled_apply t) v hv
    have later := ih (resolved_bind hs settled fresh) (by simpa [hrec] using h)
    exact later.trans (hs.absorbs_bind settled fresh unbound)

end Subst

theorem Moves.absorbs {s s' : Subst} {goal : Goal} {new : List Goal} (hs : s.Resolved)
    (hgoal : goal.Proper (fun _ => True) s) (h : Moves s goal s' new) : s'.Absorbs s := by
  cases h with
  | expected fresh unbound => exact hs.absorbs_bind hgoal.2.2 fresh unbound
  | actual fresh unbound => exact hs.absorbs_bind hgoal.1.2 fresh unbound
  | record _ => exact hs.absorbs_requireField _ _ _

namespace Subst

variable {s s' : Subst}

theorem absorbs_unify {definition : Ty → Option Ty} {expected actual : Ty} (hs : s.Resolved)
    (h : unify definition expected actual s = .ok s') : s'.Absorbs s := by
  have keeps : s.Keeps anyId fun _ => True := ⟨fun _ _ => trivial, fun _ _ _ => trivial⟩
  have proper : ∀ g ∈ [Goal.fits false (s.apply expected) (s.apply actual)],
      g.Proper (fun _ => True) s := by
    intro g hg
    obtain rfl := List.mem_singleton.1 hg
    exact ⟨⟨trivial, hs.settled_apply expected⟩, trivial, hs.settled_apply actual⟩
  refine (solve_along hereditary_true (fun _ _ _ _ => trivial) h (levelsAbove_zero s') hs keeps proper
    (motive := fun _ now _ => s'.Absorbs now) ?_ (fun _ _ later => later) ?_).2
  · exact ((evolves_unify h).extends hs).resolved.absorbs
  · intro _ now goal next new rest running _ moves later
    exact later.trans (moves.absorbs running.resolved (running.proper goal List.mem_cons_self))

theorem Resolved.absorbs_outcome (hs : s.Resolved) {operation : Operation}
    (h : operation.Outcome s s') : s'.Absorbs s := by
  cases h with
  | unchanged => exact hs.absorbs
  | unified h => exact absorbs_unify hs h
  | required | asked => exact hs.absorbs_requireField _ _ _
  | lowered => exact hs.absorbs_lower _ _
  | closed h => exact absorbs_closeRecords hs h

end Subst

end Polytype
