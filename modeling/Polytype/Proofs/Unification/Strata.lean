import Polytype.Proofs.Unification.Fields

/-!
# Stratified fields

No field comes late if the recorded fields are stratified: the types of the fields of a variable
rank below the variable, so comparing them while other fields of the variable wait binds only
variables of lower rank.
-/

namespace Polytype

open Ty Goal

/-! ## Goals in the order of their ranks -/

/-- A type ranks at least as high as its variables. -/
def Grows (rank : Ty → Nat) (θ : Nat → Ty) : Prop :=
  ∀ t : Ty, ∀ v ∈ t.vars, rank (θ v.id) ≤ rank (t.subst θ)

def Low (env : Env) (rank : Ty → Nat) (θ : Nat → Ty) (bound id : Nat) : Prop :=
  env.Outside id ∧ rank (θ id) < bound

def Goal.Below (env : Env) (rank : Ty → Nat) (θ : Nat → Ty) (bound : Nat) (s : Subst) : Goal → Prop
  | carries v _ _ => rank (θ v.id) ≤ bound
  | goal => goal.Proper (Within (Low env rank θ bound)) s

/-- Fields rank below their variable, and before a field is carried to a variable only variables of
lower rank are bound. -/
structure Ranked (env : Env) (rank : Ty → Nat) (θ : Nat → Ty) (s : Subst) (goals : List Goal) :
    Prop where
  fields : ∀ id, ∀ field ∈ s.fieldsUnder θ id, rank field.2 < rank (θ id)
  carried : ∀ {v name t}, carries v name t ∈ goals →
    s.isBound v.id = false ∧ rank (t.subst θ) < rank (θ v.id)
  before : goals.Pairwise fun goal later =>
    ∀ v name t, later = carries v name t → goal.Below env rank θ (rank (θ v.id)) s

section Ranks

variable {env : Env} (closed : env.Closed) {rank : Ty → Nat} {final s : Subst}
  (grows : Grows rank final.image) {goal : Goal} {goals rest new : List Goal}

theorem Goal.Proper.below {θ : Nat → Ty} {bound : Nat}
    (h : goal.Proper (Within (Low env rank θ bound)) s) : goal.Below env rank θ bound s := by
  cases goal with
  | carries v name t => exact Nat.le_of_lt (everywhere_var.1 h.1).2
  | fits | impossible => exact h

theorem refresh_eq_carries {v : TypeVar} {name : String} {t : Ty}
    (h : goal.refresh s = carries v name t) : goal = carries v name t := by
  cases goal with
  | fits => simp [refresh] at h
  | carries | impossible => exact h

theorem low_expand {θ : Nat → Ty} {bound : Nat} (closed : env.Closed) (t t' : Ty)
    (ht : Within (Low env rank θ bound) t) (h : env.expand t = some t') :
    Within (Low env rank θ bound) t' :=
  Env.within_expand closed.vars ht h

include grows in
theorem keeps_low (now : env.Running final s goals)
    (fields : ∀ id, ∀ field ∈ s.fieldsUnder final.image id, rank field.2 < rank (final.image id))
    (bound : Nat) :
    s.Keeps (Low env rank final.image bound) (Within (Low env rank final.image bound)) := by
  refine ⟨fun {id t} hid ht => within_iff.2 fun v hv => ⟨?_, ?_⟩,
    fun {id given} hid unbound hf => within_iff.2 fun v hv => ⟨?_, ?_⟩⟩
  · exact within_iff.1 (now.keeps.types hid.1 ht) v hv
  · have becomes : t.subst final.image = final.image id := by
      rw [← now.ends.solves id, Subst.image_bound ht, subst_erase]
    exact Nat.lt_of_le_of_lt (becomes ▸ grows t v hv) hid.2
  · exact within_iff.1 (now.keeps.records hid.1 unbound hf) v hv
  · simp only [vars, varsFields_eq, List.mem_flatMap] at hv
    obtain ⟨field, hfield, hv⟩ := hv
    have recorded : (field.1, field.2.subst final.image) ∈ s.fieldsUnder final.image id := by
      simp only [Subst.fieldsUnder, unbound, hf, Bool.false_eq_true, if_false, Option.getD_some]
      exact List.mem_map_of_mem hfield
    calc rank (final.image v.id) ≤ rank (field.2.subst final.image) := grows field.2 v hv
      _ < rank (final.image id) := fields id _ recorded
      _ < bound := hid.2

include grows in
theorem below_refresh (now : env.Running final s goals)
    (fields : ∀ id, ∀ field ∈ s.fieldsUnder final.image id, rank field.2 < rank (final.image id))
    {bound : Nat} {older : Subst} (h : goal.Below env rank final.image bound older) :
    (goal.refresh s).Below env rank final.image bound s := by
  cases goal with
  | carries v name t => exact h
  | impossible clash => trivial
  | fits exact expected actual =>
    have proper : Proper (Within (Low env rank final.image bound)) older
      (fits exact expected actual) := h
    exact proper_refresh (hereditary_within _) s.levelsAbove_zero now.resolved
      (keeps_low grows now fields bound) proper

theorem Ranked.late_eq_nil {θ : Nat → Ty} (ranked : Ranked env rank θ s (goal :: rest)) :
    goal.late s = [] := by
  cases goal with
  | carries v name t => simp [Goal.late, (ranked.carried (v := v) List.mem_cons_self).1]
  | fits | impossible => rfl

/-! ### Splitting a goal -/

theorem Splits.not_carries {definition : Ty → Option Ty} (h : Splits definition s goal new)
    {v : TypeVar} {name : String} {t : Ty} : carries v name t ∉ new := by
  intro hmem
  cases h with
  | var | const => simp at hmem
  | app _ _ | tuple _ =>
    obtain ⟨_, _, _, _, hfits⟩ := Problem.fitsAll_mem hmem
    cases hfits
  | func _ =>
    rcases List.mem_append.1 hmem with hmem | hmem
    · obtain ⟨_, _, _, _, hfits⟩ := Problem.fitsAll_mem hmem
      cases hfits
    · simp at hmem
  | record =>
    rcases Problem.fitsFields_mem hmem with ⟨_, _, _, _, hfits⟩ | ⟨_, hclash⟩
    · cases hfits
    · cases hclash
  | known | expected | actual => simp at hmem

include closed grows in
theorem Splits.below (now : env.Running final s (goal :: rest))
    (ranked : Ranked env rank final.image s (goal :: rest)) (hsplit : Splits env.expand s goal new)
    {bound : Nat} (h : goal.Below env rank final.image bound s) :
    ∀ g ∈ new, g.Proper (Within (Low env rank final.image bound)) s := by
  cases goal with
  | impossible clash => cases hsplit
  | fits exact expected actual =>
    exact hsplit.proper (hereditary_within _) (low_expand closed) s.levelsAbove_zero now.resolved
      (keeps_low grows now ranked.fields bound) h
  | carries v name t =>
    -- The known type of the field and the carried one both rank below the variable.
    obtain ⟨-, carried⟩ := ranked.carried (v := v) List.mem_cons_self
    have proper := hsplit.proper (hereditary_within _) (fun _ _ => Env.within_expand closed.vars)
      s.levelsAbove_zero now.resolved now.keeps (now.proper _ List.mem_cons_self)
    cases hsplit with
    | @known _ _ _ shape known hshape hfield =>
      have recorded : rank (known.subst final.image) < rank (final.image v.id) := by
        refine ranked.fields v.id (name, known.subst final.image) ?_
        rw [Subst.fieldsUnder_of_recordShape now.resolved now.ends.solves hshape]
        exact List.mem_map_of_mem (Assoc.mem_of_get? hfield)
      have low {u : Ty} (hu : Within env.Outside u)
          (hrank : rank (u.subst final.image) < rank (final.image v.id)) :
          Within (Low env rank final.image bound) u := by
        refine within_iff.2 fun w hw => ⟨within_iff.1 hu w hw, ?_⟩
        exact Nat.lt_of_le_of_lt (grows u w hw) (Nat.lt_of_lt_of_le hrank h)
      intro g hg
      obtain rfl := List.mem_singleton.1 hg
      obtain ⟨⟨hknown, settled⟩, happlied, settled'⟩ := proper _ List.mem_cons_self
      refine ⟨⟨low hknown recorded, settled⟩, low happlied ?_, settled'⟩
      rwa [now.ends.solves.subst_apply now.resolved]

include closed grows in
theorem Ranked.split (now : env.Running final s (goal :: rest))
    (ranked : Ranked env rank final.image s (goal :: rest))
    (hsplit : Splits env.expand s goal new) : Ranked env rank final.image s (new ++ rest) := by
  obtain ⟨front, later⟩ := List.pairwise_cons.1 ranked.before
  refine ⟨ranked.fields, fun hmem => ?_, List.pairwise_append.2 ⟨?_, later, ?_⟩⟩
  · rcases List.mem_append.1 hmem with hmem | hmem
    · exact absurd hmem hsplit.not_carries
    · exact ranked.carried (List.mem_cons_of_mem _ hmem)
  · refine List.pairwise_of_forall_mem_list fun g _ g' hg' v name t heq => ?_
    exact absurd (heq ▸ hg') hsplit.not_carries
  · intro g hg g' hg' v name t heq
    exact (hsplit.below closed grows now ranked (front g' hg' v name t heq) g hg).below

/-! ### Binding a variable -/

theorem mem_demanded {v : TypeVar} {t : Ty}
    (h : goal ∈ ((s.recordShape v).map (demands t)).getD []) :
    ∃ required, s.recordShape v = some required ∧
      ((∃ w, t = .var w ∧ ∃ field ∈ required, goal = carries w field.1 field.2) ∨
        (∀ w, t ≠ .var w) ∧ goal = fits false (.record required) t) := by
  cases hshape : s.recordShape v with
  | none => simp [hshape] at h
  | some required =>
    refine ⟨required, rfl, ?_⟩
    rw [hshape, Option.map_some, Option.getD_some] at h
    cases t with
    | var w =>
      obtain ⟨field, hfield, rfl⟩ := List.mem_map.1 h
      exact .inl ⟨w, rfl, field, hfield, rfl⟩
    | _ => exact .inr ⟨by simp, List.mem_singleton.1 h⟩

section Bind

variable {v : TypeVar} {t : Ty} (fresh : t.mentions v.id = false) (settled : s.Settled t)
  (now : env.Running final s (goal :: rest))
  (next : env.Running final (s.bind v t)
    ((((s.recordShape v).map (demands t)).getD [] ++ rest).map (refresh (s.bind v t))))

include fresh next in
theorem fields_bind (ranked : Ranked env rank final.image s (goal :: rest)) (id : Nat) :
    ∀ field ∈ (s.bind v t).fieldsUnder final.image id, rank field.2 < rank (final.image id) := by
  intro field hfield
  rw [Subst.fieldsUnder_bind fresh next.ends.solves.bound] at hfield
  by_cases hid : v.id = id
  · simp [hid] at hfield
  · rw [if_neg hid] at hfield
    exact ranked.fields id field hfield

include grows fresh settled now next in
theorem Ranked.bind (ranked : Ranked env rank final.image s (goal :: rest))
    (front : ∀ bound, goal.Below env rank final.image bound s →
      Low env rank final.image bound v.id ∧ ∀ g ∈ ((s.recordShape v).map (demands t)).getD [],
        g.Proper (Within (Low env rank final.image bound)) s) :
    Ranked env rank final.image (s.bind v t)
      ((((s.recordShape v).map (demands t)).getD [] ++ rest).map (refresh (s.bind v t))) := by
  have fields := fields_bind fresh next ranked
  have becomes : final.image v.id = t.subst final.image := next.ends.solves.bound
  obtain ⟨first, later⟩ := List.pairwise_cons.1 ranked.before
  refine ⟨fields, fun {w name u} hmem => ?_, List.pairwise_map.2 ?_⟩
  · obtain ⟨given, hgiven, heq⟩ := List.mem_map.1 hmem
    obtain rfl := refresh_eq_carries heq
    rw [Subst.isBound_bind]
    rcases List.mem_append.1 hgiven with hgiven | hgiven
    · obtain ⟨required, hshape, ⟨x, rfl, field, hfield, heq⟩ | ⟨-, heq⟩⟩ := mem_demanded hgiven
      · cases heq
        have hne : v.id ≠ w.id := fun hid => by
          simp [mentions, vars, hid] at fresh
        have recorded := ranked.fields v.id (field.1, field.2.subst final.image) (by
          rw [Subst.fieldsUnder_of_recordShape now.resolved now.ends.solves hshape]
          exact List.mem_map_of_mem hfield)
        rw [becomes] at recorded
        have unbound : s.isBound w.id = false := everywhere_var.1 settled
        exact ⟨by simp [hne, unbound], recorded⟩
      · cases heq
    · obtain ⟨unbound, hrank⟩ := ranked.carried (List.mem_cons_of_mem _ hgiven)
      -- The bound variable ranks below the one that waits for a field.
      have lower := (front _ (first _ hgiven w name u rfl)).1.2
      have hne : v.id ≠ w.id := fun hid => by
        rw [hid] at lower
        exact Nat.lt_irrefl _ lower
      exact ⟨by simp [hne, unbound], hrank⟩
  · have ordered : (((s.recordShape v).map (demands t)).getD [] ++ rest).Pairwise
        fun goal later => ∀ w name u, later = carries w name u →
          goal.Below env rank final.image (rank (final.image w.id)) s := by
      refine List.pairwise_append.2 ⟨?_, later, ?_⟩
      · refine List.pairwise_of_forall_mem_list fun g hg g' hg' w name u heq => ?_
        subst heq
        -- All goals that carry a field from this variable carry it to one variable.
        obtain ⟨_, _, ⟨x, rfl, _, _, heq⟩ | ⟨_, heq⟩⟩ := mem_demanded hg'
        · cases heq
          obtain ⟨_, _, ⟨y, hy, _, _, rfl⟩ | ⟨hvar, _⟩⟩ := mem_demanded hg
          · cases hy
            exact Nat.le_refl _
          · exact absurd rfl (hvar w)
        · cases heq
      · intro g hg g' hg' w name u heq
        exact ((front _ (first g' hg' w name u heq)).2 g hg).below
    refine ordered.imp fun {g g'} h w name u heq => ?_
    exact below_refresh grows next fields (h w name u (refresh_eq_carries heq))

end Bind

/-! ### Recording a field -/

section Record

variable {v : TypeVar} {name : String} {t : Ty}

include grows in
theorem Ranked.record (ranked : Ranked env rank final.image s (carries v name t :: rest))
    (next : env.Running final (s.requireField v name t)
      (rest.map (refresh (s.requireField v name t)))) :
    Ranked env rank final.image (s.requireField v name t)
      (rest.map (refresh (s.requireField v name t))) := by
  obtain ⟨unbound, hrank⟩ := ranked.carried List.mem_cons_self
  have fields (id : Nat) : ∀ field ∈ (s.requireField v name t).fieldsUnder final.image id,
      rank field.2 < rank (final.image id) := by
    intro field hfield
    rw [Subst.fieldsUnder_requireField] at hfield
    split at hfield
    · rename_i hid
      rcases Assoc.mem_of_mem_insert hfield with rfl | hfield
      · exact hid.1 ▸ hrank
      · exact ranked.fields id field hfield
    · exact ranked.fields id field hfield
  refine ⟨fields, fun hmem => ?_, List.pairwise_map.2 ?_⟩
  · obtain ⟨given, hgiven, heq⟩ := List.mem_map.1 hmem
    obtain rfl := refresh_eq_carries heq
    simpa using ranked.carried (List.mem_cons_of_mem _ hgiven)
  · refine (List.pairwise_cons.1 ranked.before).2.imp fun {g g'} h w other u heq => ?_
    exact below_refresh grows next fields (h w other u (refresh_eq_carries heq))

end Record

end Ranks

/-! ## Stratified fields arrive -/

/-- What variables become can be ranked such that fields rank below their variable. So no type has
to have a field that contains this type again. -/
def Subst.Stratified (s : Subst) (θ : Nat → Ty) : Prop :=
  ∃ rank, Grows rank θ ∧ ∀ v shape, s.recordShape v = some shape →
    ∀ field ∈ shape, rank (field.2.subst θ) < rank (θ v.id)

section Stratified

variable {env : Env} (closed : env.Closed) {expected actual : Ty} {s s' : Subst}
  (hs : s.Resolved) (keeps : s.Keeps env.Outside (Within env.Outside))
  (hexpected : Within env.Outside expected) (hactual : Within env.Outside actual)
  (h : unify env.expand expected actual s = .ok s') (stratified : s.Stratified s'.image)

include closed hs keeps hexpected hactual h stratified in
theorem lateVars_of_stratified : lateVars env.expand expected actual s = [] := by
  obtain ⟨rank, grows, fields⟩ := stratified
  have along := solve_along (hereditary_within _) (fun _ _ => Env.within_expand closed.vars) h
    s'.levelsAbove_zero hs keeps (proper_start hs keeps hexpected hactual)
    (motive := fun late s goals => Ranked env rank s'.image s goals → late = []) ?_ ?_ ?_
  · obtain ⟨now, none⟩ := along
    refine none ⟨fun id field hfield => ?_, by simp, by simp⟩
    obtain ⟨-, shape, hshape, -⟩ := Subst.exists_recordShape (List.mem_map_of_mem hfield)
    have shown := Subst.fieldsUnder_of_recordShape hs now.ends.solves hshape
    rw [shown] at hfield
    obtain ⟨given, hgiven, rfl⟩ := List.mem_map.1 hfield
    exact fields _ shape hshape given hgiven
  · exact fun _ => rfl
  · intro late s goal new rest now hsplit ih ranked
    rw [ranked.late_eq_nil, ih (ranked.split closed grows now hsplit), List.append_nil]
  · intro late s goal s'' new rest now next hmove ih ranked
    rw [ranked.late_eq_nil, List.nil_append]
    have front := now.proper goal List.mem_cons_self
    -- Whatever bounds the goal in front bounds what binding its variable demands.
    have demanded {bound : Nat} (h : goal.Proper (Within (Low env rank s'.image bound)) s) :
        ∀ g ∈ new, g.Proper (Within (Low env rank s'.image bound)) s :=
      (hmove.extends (hereditary_within _) s''.levelsAbove_zero now.resolved
        (keeps_low grows now ranked.fields bound) h).2
    cases hmove with
    | expected fresh unbound =>
      exact ih (ranked.bind grows fresh front.2.2 now next fun bound h =>
        ⟨everywhere_var.1 h.1.1, demanded h⟩)
    | actual fresh unbound =>
      exact ih (ranked.bind grows fresh front.1.2 now next fun bound h =>
        ⟨everywhere_var.1 h.2.1, demanded h⟩)
    | record _ => exact ih (ranked.record grows next)

include closed hs keeps hexpected hactual h stratified in
theorem provides_of_stratified {x : TypeVar} (hx : env.Outside x.id)
    {shape : List (String × Ty)} (hshape : s.recordShape x = some shape) :
    ∀ name ∈ Assoc.keys shape, env.Provides s' (s'.apply (.var x)) name := by
  intro name hname
  obtain ⟨ext, delivered⟩ := delivered_of_unify closed hs keeps hexpected hactual h
  rw [lateVars_of_stratified closed hs keeps hexpected hactual h stratified] at delivered
  exact delivered.provides closed hs ext hx (by simp [Timely]) hshape hname

end Stratified

end Polytype
