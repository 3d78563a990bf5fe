import Polytype.Proofs.Env.Reading
import Polytype.Proofs.Subst.Instance
import Polytype.Proofs.Subst.Lowering
import Polytype.Proofs.Unification.Fit
import Polytype.Subst.Closing

/-!
# Order of levels

In a disciplined substitution everything that a variable stands for, or that is recorded for it, has
its level or a lower one. Binding a variable, lowering and recording a field keep the discipline,
since each lowers all that is reachable from the type it works on; so do whole unifications.
-/

namespace Polytype

open Ty Goal

namespace Subst

/-- Types occur at levels that their variables may have, and nothing that a variable leads to is
above it. -/
structure Disciplined (birth : Nat → Nat) (s : Subst) : Prop where
  resolved : s.Resolved
  keeps : s.Keeps anyId (AllVars (s.Between birth))
  types : ∀ {id other}, (s.image id).mentions other = true →
    s.level birth other ≤ s.level birth id
  records : ∀ {id other}, s.isBound id = false → s.Link id other →
    s.level birth other ≤ s.level birth id

theorem disciplined_empty (birth : Nat → Nat) : Subst.empty.Disciplined birth := by
  refine ⟨fun _ _ h => by simp [Subst.empty] at h, ⟨fun _ h => by simp [Subst.empty] at h,
    fun _ _ h => by simp [Subst.empty] at h⟩, fun {id other} hmem => ?_, fun _ link => ?_⟩
  · rw [image_unbound rfl, mentions_var] at hmem
    exact hmem ▸ Nat.le_refl _
  · obtain ⟨fields, hfields, -⟩ := link
    simp [Subst.empty] at hfields

theorem Resolved.link_iff {s : Subst} (hs : s.Resolved) {id other : Nat} :
    s.Link id other ↔ ∃ fields, s.records.get? id = some fields ∧
      ∃ field ∈ fields, (field.2.subst s.image).mentions other = true := by
  simp only [Link, ← hs.erase_apply, mentions_erase]

/-- Lowering what is reachable from `t` to the level `n` makes way for `other` in the place of
`mid`. -/
def Fits (birth : Nat → Nat) (s : Subst) (t : Ty) (n mid other : Nat) : Prop :=
  other = mid ∨ other ∈ (s.reachable t).map (·.id) ∧ n ≤ s.level birth mid

section Step

variable {birth : Nat → Nat} {s s' : Subst} {t : Ty} {n : Nat}

theorem Between.lowered {v : TypeVar} (h : s.Between birth v)
    (hle : s'.level birth v.id ≤ s.level birth v.id) : s'.Between birth v :=
  ⟨Nat.le_trans hle h.1, h.2⟩

theorem between_lowered (hle : ∀ id, s'.level birth id ≤ s.level birth id)
    (ht : AllVars (s.Between birth) t) : AllVars (s'.Between birth) t :=
  allVars_iff.2 fun v hv => (allVars_iff.1 ht v hv).lowered (hle v.id)

theorem Disciplined.step (hd : s.Disciplined birth) (ht : AllVars (s.Between birth) t)
    (hlevels : s'.levels = lowest s.levels (s.loweredLevels t n)) (resolved : s'.Resolved)
    (keeps : s'.Keeps anyId (AllVars (s'.Between birth)))
    (himage : ∀ id other, (s'.image id).mentions other = true →
      ∃ mid, (s.image id).mentions mid = true ∧ s.Fits birth t n mid other)
    (hlink : ∀ id other, s'.isBound id = false → s'.Link id other →
      s.isBound id = false ∧ ∃ mid, (mid = id ∨ s.Link id mid) ∧ s.Fits birth t n mid other) :
    s'.Disciplined birth := by
  have carry {id mid other : Nat} (hold : s.level birth mid ≤ s.level birth id)
      (closed : id ∈ (s.reachable t).map (·.id) → mid ∈ (s.reachable t).map (·.id))
      (fits : s.Fits birth t n mid other) : s'.level birth other ≤ s'.level birth id := by
    have low {id : Nat} (h : id ∈ (s.reachable t).map (·.id)) : s'.level birth id ≤ n :=
      level_le_of_reachable hlevels hd.resolved hd.keeps ht h
    have hle : s'.level birth other ≤ s.level birth other := level_le_of_lowest hlevels
    rcases @level_cases birth s s' t n id hlevels with same | ⟨hid, hn⟩
    · rcases fits with rfl | ⟨hother, hmid⟩
      · omega
      · have := low hother
        omega
    · rw [hn]
      rcases fits with rfl | ⟨hother, -⟩
      · exact low (closed hid)
      · exact low hother
  refine ⟨resolved, keeps, fun {id other} hmem => ?_, fun {id other} unbound link => ?_⟩
  · obtain ⟨mid, hmid, fits⟩ := himage id other hmem
    refine carry (hd.types hmid) (fun hid => ?_) fits
    -- What is reachable is unbound, and stands for itself.
    rw [image_unbound (hd.resolved.unbound_reachable hid), mentions_var] at hmid
    exact hmid ▸ hid
  · obtain ⟨unbound, mid, rfl | link, fits⟩ := hlink id other unbound link
    · exact carry (Nat.le_refl _) (fun h => h) fits
    · exact carry (hd.records unbound link) (fun hid => reachable_closed.2 id hid mid link) fits

/-! ## The operations -/

theorem solves_binding {v : TypeVar} (resolved : (s.bind v t).Resolved) :
    Solves (s.bind v t).image (s.binding v t) := by
  intro id
  rw [image_binding]
  unfold replace
  split
  · rename_i heq
    have bound : (s.bind v t).image v.id = t.erase := by
      rw [image_bound (by rw [get?_types_bind, if_pos rfl])]
    rw [← heq, ← resolved.image_idem v.id, bound]
  · simp

theorem Disciplined.bind (hd : s.Disciplined birth) {v : TypeVar}
    (hv : v.level = s.level birth v.id) (ht : AllVars (s.Between birth) t)
    (settled : s.Settled t) (fresh : t.mentions v.id = false) (unbound : s.isBound v.id = false) :
    (s.bind v t).Disciplined birth := by
  have hlevels : (s.bind v t).levels = lowest s.levels (s.loweredLevels t v.level) := rfl
  have hle (id : Nat) : (s.bind v t).level birth id ≤ s.level birth id :=
    level_le_of_lowest hlevels
  have resolved : (s.bind v t).Resolved := resolved_bind hd.resolved settled fresh
  -- Every new path goes through the bound variable, and then to what its type reaches.
  have fits {mid other : Nat} (h : (replace v.id t mid).mentions other = true) :
      s.Fits birth t v.level mid other := by
    unfold replace at h
    split at h
    · rename_i heq
      subst heq
      refine .inr ⟨reachable_closed.1 other ?_, Nat.le_of_eq hv⟩
      rw [← mentions_erase, hd.resolved.erase_apply, settled.subst_image]
      exact h
    · exact .inl (mentions_var.1 h).symm
  refine hd.step ht hlevels resolved ?_ (fun id other hmem => ?_) fun id other unbound' link => ?_
  · exact (hd.keeps.mono fun u hu => between_lowered hle hu).bind hereditary_between
      (between_lowered hle ht) levelsAbove_level
  · rw [image_bind fresh unbound] at hmem
    obtain ⟨w, hw, hmem⟩ := mentions_subst.1 hmem
    exact ⟨w.id, mentions_iff.2 ⟨w, hw, rfl⟩, fits hmem⟩
  · obtain ⟨fields, hfields, field, hf, hmem⟩ := resolved.link_iff.1 link
    rw [get?_records_bind] at hfields
    split at hfields
    · simp at hfields
    · rename_i hfree
      simp only [not_or, Bool.not_eq_true] at hfree
      obtain ⟨given, hgiven, rfl⟩ := Option.map_eq_some_iff.1 hfields
      obtain ⟨known, hknown, rfl⟩ := List.mem_map.1 hf
      rw [(solves_binding resolved).subst_apply (resolved_binding fresh)] at hmem
      have composed : known.2.subst (s.bind v t).image =
          (known.2.subst s.image).subst (replace v.id t) := by
        rw [subst_subst]
        exact subst_congr fun w _ => image_bind fresh unbound w.id
      rw [composed] at hmem
      obtain ⟨w, hw, hmem⟩ := mentions_subst.1 hmem
      refine ⟨hfree.2, w.id, .inr (hd.resolved.link_iff.2 ?_), fits hmem⟩
      exact ⟨given, hgiven, known, hknown, mentions_iff.2 ⟨w, hw, rfl⟩⟩

theorem link_lower (hs : s.Resolved) {id other : Nat} (unbound : s.isBound id = false)
    (link : (s.lower t n).Link id other) : s.Link id other := by
  obtain ⟨levels, -, hlower⟩ := exists_lower s t n
  obtain ⟨fields, hfields, field, hf, hmem⟩ := (resolved_lower hs t n).link_iff.1 link
  rw [(hlower id).2.1 unbound] at hfields
  obtain ⟨given, hgiven, rfl⟩ := Option.map_eq_some_iff.1 hfields
  obtain ⟨known, hknown, rfl⟩ := List.mem_map.1 hf
  refine hs.link_iff.2 ⟨given, hgiven, known, hknown, ?_⟩
  have leveled : Solves s.image { levels } := fun id => by
    rw [image_unbound rfl, subst_var]
  rw [image_lower, leveled.subst_apply fun _ _ h => by simp at h] at hmem
  exact hmem

theorem Disciplined.lower (hd : s.Disciplined birth) (ht : AllVars (s.Between birth) t) :
    (s.lower t n).Disciplined birth := by
  have hlevels := lower_levels s t n
  have hle (id : Nat) : (s.lower t n).level birth id ≤ s.level birth id :=
    level_le_of_lowest hlevels
  refine hd.step ht hlevels (resolved_lower hd.resolved t n) ?_ (fun id other hmem => ?_)
    fun id other unbound link => ?_
  · exact (hd.keeps.mono fun u hu => between_lowered hle hu).lower hereditary_between t n
      levelsAbove_level
  · rw [image_lower] at hmem
    exact ⟨other, hmem, .inl rfl⟩
  · rw [isBound_lower] at unbound
    exact ⟨unbound, other, .inr (link_lower hd.resolved unbound link), .inl rfl⟩

theorem exists_requireField_level (s : Subst) (v : TypeVar) (field : String) (t : Ty) :
    ∃ n, (s.isBound v.id = false → n = (s.relevel v).level) ∧
      (s.requireField v field t).levels = (s.lower t n).levels ∧ ∀ id,
        (s.requireField v field t).records.get? id =
          if v.id = id then
            some (Assoc.insert (((s.lower t n).records.get? v.id).getD []) field t)
          else (s.lower t n).records.get? id := by
  refine ⟨_, fun unbound => ?_, rfl, fun _ => Assoc.get?_insert _ _ _ _⟩
  have applied : s.apply (.var v) = .var (s.relevel v) := resolve_unbound unbound _
  rw [applied]

theorem Disciplined.requireField (hd : s.Disciplined birth) {v : TypeVar} {field : String}
    (hv : s.Between birth v) (ht : AllVars (s.Between birth) t) :
    (s.requireField v field t).Disciplined birth := by
  obtain ⟨n, hn, hlevels, hrecords⟩ := exists_requireField_level s v field t
  have resolved := resolved_requireField hd.resolved v field t
  rw [lower_levels] at hlevels
  have hle (id : Nat) : (s.requireField v field t).level birth id ≤ s.level birth id :=
    level_le_of_lowest hlevels
  have himage : (s.requireField v field t).image = s.image := image_requireField s v field t
  refine hd.step ht hlevels resolved ?_ (fun id other hmem => ?_) fun id other unbound link => ?_
  · refine (hd.keeps.mono fun u hu => between_lowered hle hu).requireField hereditary_between ?_
      levelsAbove_level
    exact .record trivial (by simpa using between_lowered hle ht)
  · rw [himage] at hmem
    exact ⟨other, hmem, .inl rfl⟩
  · rw [isBound_requireField] at unbound
    refine ⟨unbound, ?_⟩
    have old {fields : List (String × Ty)} {known : String × Ty}
        (hfields : (s.lower t n).records.get? id = some fields) (hknown : known ∈ fields)
        (hmem : (known.2.subst s.image).mentions other = true) :
        ∃ mid, (mid = id ∨ s.Link id mid) ∧ s.Fits birth t n mid other := by
      have link : (s.lower t n).Link id other :=
        (resolved_lower hd.resolved t n).link_iff.2
          ⟨fields, hfields, known, hknown, by rwa [image_lower]⟩
      exact ⟨other, .inr (link_lower hd.resolved unbound link), .inl rfl⟩
    obtain ⟨fields, hfields, known, hknown, hmem⟩ := resolved.link_iff.1 link
    rw [himage] at hmem
    rw [hrecords] at hfields
    split at hfields
    · rename_i heq
      subst heq
      cases hfields
      rcases Assoc.mem_of_mem_insert hknown with rfl | hknown
      · refine ⟨v.id, .inl rfl, .inr ⟨reachable_closed.1 other ?_, ?_⟩⟩
        · rwa [← mentions_erase, hd.resolved.erase_apply]
        · exact Nat.le_of_eq (by rw [hn unbound, hv.relevel])
      · cases hr : (s.lower t n).records.get? v.id with
        | none => simp [hr] at hknown
        | some fields => exact old hr (by simpa [hr] using hknown) hmem
    · exact old hfields hknown hmem

/-! ## Runs -/

def Current (birth : Nat → Nat) (s : Subst) (t : Ty) : Prop :=
  AllVars (fun v => v.level = s.level birth v.id) t ∧ s.Settled t

theorem hereditary_current : Hereditary anyId (s.level birth) (s.Current birth) := by
  refine (hereditary_allVars (fun _ _ => trivial) fun v l h hlo hl => ?_).and (hereditary_within _)
  exact Nat.le_antisymm (h ▸ hl) hlo

theorem Current.between (h : s.Current birth t) : AllVars (s.Between birth) t :=
  allVars_iff.2 fun v hv => by
    have hlevel := allVars_iff.1 h.1 v hv
    exact ⟨Nat.le_of_eq hlevel.symm, hlevel ▸ level_le_birth⟩

theorem Resolved.current_apply (hs : s.Resolved) (keeps : s.Keeps anyId (AllVars (s.Between birth)))
    (ht : AllVars (s.Between birth) t) : s.Current birth (s.apply t) := by
  refine ⟨allVars_iff.2 fun w hw => ?_, hs.settled_apply t⟩
  obtain ⟨x, rfl, -, hx⟩ := hs.mem_vars_apply hw
  have between : s.Between birth x := by
    rcases hx with hx | ⟨v, -, u, hu, hx⟩
    · exact allVars_iff.1 ht x hx
    · exact allVars_iff.1 (keeps.types trivial hu) x hx
  rw [between.relevel]

theorem Disciplined.current_apply (hd : s.Disciplined birth) (ht : AllVars (s.Between birth) t) :
    s.Current birth (s.apply t) := hd.resolved.current_apply hd.keeps ht

theorem Disciplined.current_recordShape (hd : s.Disciplined birth) {v : TypeVar}
    {shape : List (String × Ty)} (h : s.recordShape v = some shape) :
    s.Current birth (.record shape) := by
  unfold recordShape at h
  split at h
  · simp at h
  · rename_i unbound
    obtain ⟨fields, hf, rfl⟩ := Option.map_eq_some_iff.1 h
    rw [← apply_record]
    exact hd.current_apply (hd.keeps.records trivial (Bool.eq_false_iff.2 unbound) hf)

theorem openRecord?_spec {s : Subst} {t : Ty} {level : Nat} {v : TypeVar}
    {fields : List (String × Ty)} (h : s.openRecord? t level = some (v, fields)) :
    v ∈ (s.apply t).vars ∧ s.recordShape v = some fields := by
  obtain ⟨w, hw, hshape⟩ := List.exists_of_findSome?_eq_some h
  obtain ⟨shape, hs, heq⟩ := Option.map_eq_some_iff.1 hshape
  obtain ⟨rfl, rfl⟩ := Prod.mk.inj heq
  exact ⟨mem_vars_of_mem_freeVars (List.mem_filter.1 hw).1, hs⟩

theorem Disciplined.closeRecords (hd : s.Disciplined birth) (ht : AllVars (s.Between birth) t)
    (h : (s.closeRecords t n).2 = .ok s') : s'.Disciplined birth := by
  fun_induction Subst.closeRecords s t n with
  | case1 s hopen =>
    cases h
    exact hd
  | case2 => simp at h
  | case3 s v fields hopen mentions closed result hrec ih =>
    obtain ⟨hv, hshape⟩ := openRecord?_spec hopen
    have applied := hd.current_apply ht
    have shape := hd.current_recordShape hshape
    have hlevels : (s.bind v (.record fields)).levels =
        lowest s.levels (s.loweredLevels (.record fields) v.level) := rfl
    refine ih ?_ (between_lowered (fun _ => level_le_of_lowest hlevels) ht) (by simpa [hrec] using h)
    exact hd.bind (allVars_iff.1 applied.1 v hv) shape.between shape.2
      (Bool.eq_false_iff.2 mentions) (within_iff.1 applied.2 v hv)

end Step

end Subst

section Unification

variable {birth : Nat → Nat} {definition : Ty → Option Ty} {s s' : Subst} {goal : Goal}

abbrev Goal.Leveled (birth : Nat → Nat) (s : Subst) : Goal → Prop :=
  Goal.Over (s.Current birth) (AllVars (s.Between birth))

theorem Goal.Leveled.refresh (hd : s'.Disciplined birth)
    (hle : ∀ id, s'.level birth id ≤ s.level birth id) (h : goal.Leveled birth s) :
    (goal.refresh s').Leveled birth s' := by
  have known {t : Ty} (ht : AllVars (s.Between birth) t) : AllVars (s'.Between birth) t :=
    Subst.between_lowered hle ht
  cases goal with
  | fits exact expected actual =>
    exact ⟨hd.current_apply (known h.1.between), hd.current_apply (known h.2.between)⟩
  | carries v field t => exact ⟨known h.1, known h.2⟩
  | impossible clash => trivial

theorem Moves.disciplined {new : List Goal} (h : Moves s goal s' new) (hd : s.Disciplined birth)
    (hgoal : goal.Leveled birth s) :
    s'.Disciplined birth ∧ (∀ id, s'.level birth id ≤ s.level birth id) ∧
      ∀ g ∈ new, g.Leveled birth s := by
  have bind {v : TypeVar} {t : Ty} (hv : s.Current birth (.var v)) (ht : s.Current birth t)
      (fresh : t.mentions v.id = false) (unbound : s.isBound v.id = false) :
      (s.bind v t).Disciplined birth ∧
        (∀ id, (s.bind v t).level birth id ≤ s.level birth id) ∧
        ∀ g ∈ ((s.recordShape v).map (demands t)).getD [], g.Leveled birth s := by
    refine ⟨hd.bind (everywhere_var.1 hv.1) ht.between ht.2 fresh unbound, fun id => ?_, ?_⟩
    · exact Subst.level_le_of_lowest (rfl : (s.bind v t).levels = _)
    · exact over_demanded Subst.hereditary_between ht.between ht fun shape hshape =>
        have current := hd.current_recordShape hshape
        ⟨current.between, current⟩
  cases h with
  | expected fresh unbound => exact bind hgoal.1 hgoal.2 fresh unbound
  | actual fresh unbound => exact bind hgoal.2 hgoal.1 fresh unbound
  | @record v field t _ =>
    have ht : AllVars (s.Between birth) t := (everywhere_record.1 hgoal.2).2 _ List.mem_cons_self
    obtain ⟨n, -, hlevels, -⟩ := Subst.exists_requireField_level s v field t
    rw [Subst.lower_levels] at hlevels
    exact ⟨hd.requireField (everywhere_var.1 hgoal.1) ht,
      fun id => Subst.level_le_of_lowest hlevels, by simp⟩

theorem disciplined_solve
    (hdef : ∀ (s : Subst) t t', AllVars (s.Between birth) t → definition t = some t' →
      AllVars (s.Between birth) t')
    {p : Problem} {final : Subst} (h : p.solve definition = .ok final)
    (hd : p.subst.Disciplined birth) (hgoals : ∀ g ∈ p.goals, g.Leveled birth p.subst) :
    final.Disciplined birth ∧ ∀ id, final.level birth id ≤ p.subst.level birth id := by
  refine Problem.solve_induction (motive := fun s goals => s.Disciplined birth →
    (∀ g ∈ goals, g.Leveled birth s) →
      final.Disciplined birth ∧ ∀ id, final.level birth id ≤ s.level birth id) ?_ ?_ ?_ h hd hgoals
  · exact fun hd _ => ⟨hd, fun _ => Nat.le_refl _⟩
  · intro s goal new rest hsplit ih hd hgoals
    obtain ⟨front, others⟩ := List.forall_mem_cons.1 hgoals
    refine ih hd (List.forall_mem_append.2 ⟨?_, others⟩)
    refine hsplit.over Subst.hereditary_current (fun v shape _ hshape => hd.current_recordShape hshape)
      (fun field t ht => ?_) (fun t t' ht heq => ?_) front
    · exact hd.current_apply ((everywhere_record.1 ht).2 _ List.mem_cons_self)
    · exact hd.current_apply (hdef s t t' ht.between heq)
  · intro s goal s' new rest hmove ih hd hgoals
    obtain ⟨front, others⟩ := List.forall_mem_cons.1 hgoals
    obtain ⟨hd', hle, hnew⟩ := hmove.disciplined hd front
    obtain ⟨final, hle'⟩ := ih hd' fun g hg => by
      obtain ⟨given, hgiven, rfl⟩ := List.mem_map.1 hg
      exact (List.forall_mem_append.2 ⟨hnew, others⟩ given hgiven).refresh hd' hle
    exact ⟨final, fun id => Nat.le_trans (hle' id) (hle id)⟩

theorem disciplined_unify
    (hdef : ∀ (s : Subst) t t', AllVars (s.Between birth) t → definition t = some t' →
      AllVars (s.Between birth) t')
    {expected actual : Ty} (h : unify definition expected actual s = .ok s')
    (hd : s.Disciplined birth) (hexpected : AllVars (s.Between birth) expected)
    (hactual : AllVars (s.Between birth) actual) :
    s'.Disciplined birth ∧ ∀ id, s'.level birth id ≤ s.level birth id := by
  refine disciplined_solve hdef h hd fun g hg => ?_
  obtain rfl := List.mem_singleton.1 hg
  exact ⟨hd.current_apply hexpected, hd.current_apply hactual⟩

/-! ## Variables with one creation level -/

/-- Every variable of the type is at the level it was created at. -/
abbrev Ty.Born (birth : Nat → Nat) : Ty → Prop := AllVars fun v => v.level = birth v.id

def Env.Born (birth : Nat → Nat) (env : Env) : Prop :=
  ∀ entry ∈ env.types, ∀ target, entry.2.body.target? = some target → target.Born birth

theorem Ty.Born.between {t : Ty} (h : t.Born birth) : AllVars (s.Between birth) t :=
  allVars_iff.2 fun v hv => by
    have hlevel := allVars_iff.1 h v hv
    exact ⟨hlevel ▸ Subst.level_le_birth, Nat.le_of_eq hlevel⟩

theorem Env.Born.expand {env : Env} (henv : env.Born birth) (s : Subst) (t t' : Ty)
    (ht : AllVars (s.Between birth) t) (h : env.expand t = some t') :
    AllVars (s.Between birth) t' := by
  obtain ⟨d, target, hd, htarget, rfl⟩ := Env.expand_eq_some h
  obtain ⟨name, -, hname⟩ := Option.bind_eq_some_iff.1 (Option.filter_eq_some_iff.1 hd).1
  have born := henv _ (Assoc.mem_of_get? hname) target htarget
  have keeps : (Subst.ofPairs (d.params.zip t.args)).Keeps anyId (AllVars (s.Between birth)) := by
    refine ⟨fun {id u} _ hu => ?_, fun _ _ hf => by simp [Subst.ofPairs] at hf⟩
    obtain ⟨pair, hpair, -, rfl⟩ := Subst.mem_of_get?_ofPairs hu
    refine allVars_iff.2 fun v hv => allVars_iff.1 ht v ?_
    exact mem_vars_of_args (List.of_mem_zip hpair).2 hv
  refine keeps.apply Subst.hereditary_between (fun _ _ hl => ?_) born.between
  simp [Subst.ofPairs] at hl

end Unification

end Polytype
