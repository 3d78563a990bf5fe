import Mathlib.Data.List.Permutation
import Polytype.Proofs.Env.AliasChain
import Polytype.Proofs.Subst.Operation
import Polytype.Proofs.Unification.Fit

/-!
# Fields that a variable has to have

A variable with recorded fields may only become a type that has these fields. Unification meets this
demand field by field: while one field of a variable is compared, the fields after it wait to be
carried over. A field comes late, and is lost, if the variable is bound in the meantime. All other
fields arrive.
-/

namespace Polytype

open Ty Goal

/-- The type has the field, or is a variable for which the field is recorded. -/
def Env.Provides (env : Env) (s : Subst) (t : Ty) (name : String) : Prop :=
  (∃ v shape, t = .var v ∧ s.recordShape v = some shape ∧ name ∈ Assoc.keys shape) ∨
    env.HasField t name

namespace Env

variable {env : Env}

theorem fitting_covers (closed : env.Closed) {θ : Nat → Ty}
    (hθ : ∀ id, env.Outside id → Within env.Outside (θ id)) :
    Fitting (Within env.Outside) env.expand θ fun _ => env.Covers := by
  constructor
  case refl => exact fun _ h => h
  case app =>
    intro _ head head' args args' ht hu hhead hargs
    refine covers_of_linked closed (within_subst hθ ht) (within_subst hθ hu) ?_
    simp only [subst_app, subst_eq_of_erase hhead]
    refine .app ?_
    rw [List.forall₂_map_left_iff, List.forall₂_map_right_iff]
    exact hargs.imp fun _ _ h => .base h
  case func => exact fun _ _ _ h => (not_hasField (by simp) (by simp [headName?]) h).elim
  case tuple => exact fun _ _ h => (not_hasField (by simp) (by simp [headName?]) h).elim
  case record =>
    intro _ fields fields' _ _ provided _ name h
    rw [subst_record, hasField_record] at h ⊢
    obtain ⟨field, hfield, rfl⟩ : ∃ field ∈ fields, field.1 = name := by
      simpa [Assoc.keys] using h
    obtain ⟨u, hu, -⟩ := provided field hfield
    simpa [Assoc.keys] using ⟨u, Assoc.mem_of_get? hu⟩
  case expected =>
    exact fun ht h covers name hname => covers name (hname.expand (expand_subst hθ ht closed h))
  case actual =>
    exact fun hu h covers name hname => .of_expand (expand_subst hθ hu closed h) (covers name hname)

end Env

/-! ## Recorded fields under a replacement -/

namespace Subst

def fieldsUnder (s : Subst) (θ : Nat → Ty) (id : Nat) : List (String × Ty) :=
  if s.isBound id then [] else Assoc.mapValues (Ty.subst θ) ((s.records.get? id).getD [])

variable {s : Subst} {θ : Nat → Ty} {v : TypeVar}

theorem fieldsUnder_of_recordShape (hs : s.Resolved) (hθ : Solves θ s)
    {shape : List (String × Ty)} (h : s.recordShape v = some shape) :
    s.fieldsUnder θ v.id = Assoc.mapValues (Ty.subst θ) shape := by
  unfold recordShape at h
  split at h
  · simp at h
  · rename_i unbound
    obtain ⟨fields, hfields, rfl⟩ := Option.map_eq_some_iff.1 h
    simp [fieldsUnder, unbound, hfields, applyFields, Assoc.mapValues, hθ.subst_apply hs]

theorem exists_recordShape {id : Nat} {name : String}
    (h : name ∈ Assoc.keys (s.fieldsUnder θ id)) :
    s.isBound id = false ∧
      ∃ shape, s.recordShape ⟨id, 0⟩ = some shape ∧ name ∈ Assoc.keys shape := by
  unfold fieldsUnder at h
  split at h
  · simp [Assoc.keys] at h
  · rename_i unbound
    refine ⟨Bool.eq_false_iff.2 unbound, ?_⟩
    cases hfields : s.records.get? id with
    | none => simp [hfields, Assoc.keys, Assoc.mapValues] at h
    | some fields =>
      refine ⟨s.applyFields fields, by simp [recordShape, unbound, hfields], ?_⟩
      simpa [hfields, Assoc.keys, Assoc.mapValues, applyFields] using h

theorem fieldsUnder_bind {t : Ty} (fresh : t.mentions v.id = false)
    (hv : θ v.id = t.subst θ) (id : Nat) :
    (s.bind v t).fieldsUnder θ id = if v.id = id then [] else s.fieldsUnder θ id := by
  have same (u : Ty) : ((s.binding v t).apply u).subst θ = u.subst θ := by
    refine Solves.subst_apply (fun id => ?_) (resolved_binding fresh) u
    rw [image_binding]
    by_cases hid : v.id = id <;> simp [replace, hid, ← hv]
  unfold fieldsUnder
  rw [isBound_bind, get?_records_bind]
  by_cases hid : v.id = id
  · simp [hid]
  · cases hbound : s.isBound id with
    | true => simp
    | false =>
      cases hfields : s.records.get? id with
      | none => simp [hid]
      | some fields => simp [hid, applyFields, Assoc.mapValues, same]

theorem fieldsUnder_requireField (v : TypeVar) (name : String) (t : Ty) (id : Nat) :
    (s.requireField v name t).fieldsUnder θ id =
      if v.id = id ∧ s.isBound id = false then
        Assoc.insert (s.fieldsUnder θ id) name (t.subst θ)
      else s.fieldsUnder θ id := by
  obtain ⟨level, -, -, hrecords⟩ := exists_requireField s v name t
  obtain ⟨levels, -, hlower⟩ := exists_lower s t level
  unfold fieldsUnder
  rw [isBound_requireField, hrecords]
  cases hbound : s.isBound id with
  | true => simp
  | false =>
    have same (u : Ty) : (apply { levels } u).subst θ = u.subst θ :=
      Solves.subst_apply (fun _ => rfl) (fun _ _ h => by simp at h) u
    have lowered : Assoc.mapValues (Ty.subst θ) (((s.lower t level).records.get? id).getD []) =
        Assoc.mapValues (Ty.subst θ) ((s.records.get? id).getD []) := by
      rw [(hlower id).2.1 hbound]
      cases s.records.get? id with
      | none => rfl
      | some fields => simp [applyFields, Assoc.mapValues, same]
    by_cases hid : v.id = id
    · subst hid
      simp only [if_true, and_self, Option.getD_some, Bool.false_eq_true, if_false,
        Assoc.mapValues_insert, lowered]
    · simp only [hid, false_and, if_false, Bool.false_eq_true, lowered]

end Subst

/-! ## Delivery along a run -/

/-- The variable becomes none of the types for which a field comes late. -/
def Timely (late : List Nat) (θ : Nat → Ty) (id : Nat) : Prop := ∀ w ∈ late, θ w ≠ θ id

theorem Timely.mono {late late' : List Nat} {θ : Nat → Ty} {id : Nat} (h : Timely late' θ id)
    (hsub : late ⊆ late') : Timely late θ id :=
  fun w hw => h w (hsub hw)

/-- The recorded and the carried fields of timely variables are provided in the end. -/
structure Delivered (env : Env) (final : Subst) (late : List Nat) (s : Subst) (goals : List Goal) :
    Prop where
  recorded : ∀ id, Timely late final.image id →
    ∀ name ∈ Assoc.keys (s.fieldsUnder final.image id), env.Provides final (final.image id) name
  carried : ∀ {v name t}, carries v name t ∈ goals → Timely late final.image v.id →
    env.Provides final (final.image v.id) name

abbrev Env.Running (env : Env) (final s : Subst) (goals : List Goal) : Prop :=
  Polytype.Running env.Outside (Within env.Outside) env.expand final s goals

namespace Delivered

variable {env : Env} {final s : Subst} {late : List Nat} {goal : Goal} {rest new : List Goal}

theorem mono {late' : List Nat} {goals : List Goal} (h : Delivered env final late s goals)
    (hsub : late ⊆ late') : Delivered env final late' s goals :=
  ⟨fun id timely => h.recorded id (timely.mono hsub),
    fun hmem timely => h.carried hmem (timely.mono hsub)⟩

theorem of_split (now : env.Running final s (goal :: rest))
    (hsplit : Splits env.expand s goal new) (h : Delivered env final late s (new ++ rest)) :
    Delivered env final late s (goal :: rest) := by
  refine ⟨h.recorded, fun hmem timely => ?_⟩
  rcases List.mem_cons.1 hmem with rfl | hmem
  · cases hsplit with
    | known hshape hfield =>
      refine h.recorded _ timely _ ?_
      rw [Subst.fieldsUnder_of_recordShape now.resolved now.ends.solves hshape]
      exact List.mem_map.2 ⟨_, List.mem_map_of_mem (Assoc.mem_of_get? hfield), rfl⟩
  · exact h.carried (List.mem_append_right _ hmem) timely

theorem of_bind (closed : env.Closed) {v : TypeVar} {t : Ty} (fresh : t.mentions v.id = false)
    (next : env.Running final (s.bind v t)
      ((((s.recordShape v).map (demands t)).getD [] ++ rest).map (refresh (s.bind v t))))
    (hgoal : ∀ w name u, goal ≠ carries w name u)
    (h : Delivered env final late (s.bind v t)
      ((((s.recordShape v).map (demands t)).getD [] ++ rest).map (refresh (s.bind v t)))) :
    Delivered env final late s (goal :: rest) := by
  have becomes : final.image v.id = t.subst final.image := next.ends.solves.bound
  refine ⟨fun id timely name hname => ?_, fun {w name u} hmem timely => ?_⟩
  · by_cases hid : v.id = id
    · subst hid
      obtain ⟨unbound, required, hshape, hrequired⟩ := Subst.exists_recordShape hname
      obtain ⟨field, hfield, rfl⟩ := List.mem_map.1 hrequired
      have hdemanded : ((s.recordShape v).map (demands t)).getD [] = demands t required := by
        have : s.recordShape v = some required := hshape
        simp [this]
      rw [hdemanded] at h next
      unfold Timely at timely
      rw [becomes] at timely ⊢
      -- The fields are carried on to a variable, or demanded of the type at once.
      by_cases hvar : ∃ w, t = .var w
      · obtain ⟨w, rfl⟩ := hvar
        have hmem : carries w field.1 field.2 ∈ demands (.var w) required :=
          List.mem_map_of_mem hfield
        exact h.carried (List.mem_map.2 ⟨_, List.mem_append_left _ hmem, rfl⟩) timely
      · have hmem : fits false (.record required) t ∈ demands t required := by
          cases t with
          | var w => exact absurd ⟨w, rfl⟩ hvar
          | _ => exact List.mem_singleton.2 rfl
        have covers := next.meets _
          (Env.fitting_covers closed fun _ => next.ends.keeps.within_image) _
          (List.mem_map_of_mem (List.mem_append_left _ hmem))
        have covers := meets_of_refresh next.resolved next.ends.solves covers
        refine .inr (covers field.1 ?_)
        rw [subst_record, Env.hasField_record]
        simpa [Assoc.keys] using ⟨field.2, hfield⟩
    · refine h.recorded id timely name ?_
      rwa [Subst.fieldsUnder_bind fresh becomes, if_neg hid]
  · rcases List.mem_cons.1 hmem with rfl | hmem
    · exact absurd rfl (hgoal w name u)
    · exact h.carried (List.mem_map.2 ⟨_, List.mem_append_right _ hmem, rfl⟩) timely

theorem of_record {v : TypeVar} {name : String} {t : Ty}
    (h : Delivered env final late (s.requireField v name t)
      (rest.map (refresh (s.requireField v name t)))) :
    Delivered env final ((carries v name t).late s ++ late) s (carries v name t :: rest) := by
  refine ⟨fun id timely other hother => ?_, fun {w other u} hmem timely => ?_⟩
  · refine h.recorded id (timely.mono (List.subset_append_right _ _)) other ?_
    rw [Subst.fieldsUnder_requireField]
    split
    · exact Assoc.mem_keys_insert.2 (.inr hother)
    · exact hother
  · have later := timely.mono (List.subset_append_right _ _)
    rcases List.mem_cons.1 hmem with heq | hmem
    · cases heq
      cases hbound : s.isBound v.id with
      -- This is the moment at which a field is lost.
      | true => exact absurd rfl (timely v.id (by simp [Goal.late, hbound]))
      | false =>
        refine h.recorded v.id later name ?_
        rw [Subst.fieldsUnder_requireField, if_pos ⟨rfl, hbound⟩]
        exact Assoc.mem_keys_insert.2 (.inl rfl)
    · exact h.carried (List.mem_map.2 ⟨_, hmem, rfl⟩) later

theorem provides (closed : env.Closed) {s' : Subst} (hs : s.Resolved)
    (ext : s.Extends env.Outside (Within env.Outside) s') (h : Delivered env s' late s [])
    {x : TypeVar} (hx : env.Outside x.id) (timely : Timely late s'.image x.id)
    {shape : List (String × Ty)} (hshape : s.recordShape x = some shape) {name : String}
    (hname : name ∈ Assoc.keys shape) : env.Provides s' (s'.apply (.var x)) name := by
  have shown : (s'.apply (.var x)).erase = s'.image x.id := ext.resolved.erase_apply (.var x)
  have provided := h.recorded x.id timely name (by
    rw [Subst.fieldsUnder_of_recordShape hs ext.solves hshape]
    simpa [Assoc.keys, Assoc.mapValues] using hname)
  rw [← shown] at provided
  rcases provided with ⟨v, found, heq, hfound, hname⟩ | hfield
  · cases hy : s'.apply (.var x) with
    | var y =>
      rw [hy] at heq
      obtain rfl : ⟨y.id, 0⟩ = v := Ty.var.inj heq
      exact .inl ⟨y, found, rfl, hfound, hname⟩
    | _ => simp [hy] at heq
  · have within : Within env.Outside (s'.apply (.var x)) :=
      ext.keeps.apply (hereditary_within _) s'.levelsAbove_zero (.var hx)
    exact .inr (hfield.of_erase closed within)

end Delivered

/-! ## Unification keeps fields -/

/-- The variables that unification carries a field to when they are already bound. -/
def lateVars (definition : Ty → Option Ty) (expected actual : Ty) (s : Subst) : List Nat :=
  Problem.late definition
    { subst := s
      expansions := expansionLimit
      goals := [.fits false (s.apply expected) (s.apply actual)] }

theorem proper_start {env : Env} {expected actual : Ty} {s : Subst} (hs : s.Resolved)
    (keeps : s.Keeps env.Outside (Within env.Outside)) (hexpected : Within env.Outside expected)
    (hactual : Within env.Outside actual) :
    ∀ g ∈ [fits false (s.apply expected) (s.apply actual)], g.Proper (Within env.Outside) s := by
  intro g hg
  obtain rfl := List.mem_singleton.1 hg
  have hP : Hereditary env.Outside anyLevel (Within env.Outside) := hereditary_within _
  exact ⟨⟨keeps.apply hP s.levelsAbove_zero hexpected, hs.settled_apply expected⟩,
    keeps.apply hP s.levelsAbove_zero hactual, hs.settled_apply actual⟩

theorem delivered_of_unify {env : Env} (closed : env.Closed) {expected actual : Ty} {s s' : Subst}
    (hs : s.Resolved) (keeps : s.Keeps env.Outside (Within env.Outside))
    (hexpected : Within env.Outside expected) (hactual : Within env.Outside actual)
    (h : unify env.expand expected actual s = .ok s') :
    s.Extends env.Outside (Within env.Outside) s' ∧
      Delivered env s' (lateVars env.expand expected actual s) s [] := by
  have along := solve_along (hereditary_within _)
    (fun _ _ => Env.within_expand closed.vars) h s'.levelsAbove_zero hs keeps
    (proper_start hs keeps hexpected hactual)
    (motive := fun late s goals => Delivered env s' late s goals) ?_ ?_ ?_
  · obtain ⟨now, delivered⟩ := along
    exact ⟨now.ends, delivered.recorded, by simp⟩
  · refine ⟨fun id _ name hname => .inl ?_, by simp⟩
    obtain ⟨unbound, shape, hshape, hname⟩ := Subst.exists_recordShape hname
    exact ⟨⟨id, 0⟩, shape, Subst.image_unbound unbound, hshape, hname⟩
  · intro late s goal new rest now hsplit later
    exact (later.of_split now hsplit).mono (List.subset_append_right _ _)
  · intro late s goal s'' new rest now next hmove later
    cases hmove with
    | expected fresh unbound | actual fresh unbound =>
      exact (later.of_bind closed fresh next (by simp)).mono (List.subset_append_right _ _)
    | record _ => exact later.of_record

/-- Every field that was recorded for a variable is a field of what the variable became, or is
recorded for the variable that it became, unless a field came late for a variable that became the
same. -/
theorem provides_of_unify {env : Env} (closed : env.Closed) {expected actual : Ty} {s s' : Subst}
    (hs : s.Resolved) (keeps : s.Keeps env.Outside (Within env.Outside))
    (hexpected : Within env.Outside expected) (hactual : Within env.Outside actual)
    (h : unify env.expand expected actual s = .ok s') {x : TypeVar} (hx : env.Outside x.id)
    (timely : Timely (lateVars env.expand expected actual s) s'.image x.id)
    {shape : List (String × Ty)} (hshape : s.recordShape x = some shape) :
    ∀ name ∈ Assoc.keys shape, env.Provides s' (s'.apply (.var x)) name := by
  intro name hname
  obtain ⟨ext, delivered⟩ := delivered_of_unify closed hs keeps hexpected hactual h
  exact delivered.provides closed hs ext hx timely hshape hname

theorem provides_of_unify_node :
    let node := app (const "Node") [bool]
    let env := Env.single ⟨"Node", [⟨9, 0⟩],
      .record [("item", ofId 9), ("next", app (const "Node") [ofId 9])]⟩
    let s : Subst := { records :=
      [(0, [("item", ofId 1), ("next", ofId 2)]), (2, [("next", ofId 3)])] }
    let s' : Subst := { types := [(0, node), (1, bool), (2, node), (3, node)] }
    unify env.expand (tuple [ofId 0, ofId 0]) (tuple [ofId 2, node]) s = .ok s' ∧
      env.Provides s' (s'.apply (ofId 0)) "item" := by
  intro node env s s'
  have closed : env.Closed :=
    Env.closed_single rfl (by simp [vars, varsFields, varsList]) (by simp [NamedHeadNode])
  have outside (id : Nat) (hid : id < 9) : env.Outside id :=
    Env.outside_single.2 (by simp; omega)
  have keeps : s.Keeps env.Outside (Within env.Outside) := by
    refine ⟨fun _ h => by simp [s] at h, fun {id fields} _ _ h => ?_⟩
    have hmem := Assoc.mem_of_get? h
    simp only [s, List.mem_cons, List.not_mem_nil, or_false, Prod.mk.injEq] at hmem
    rcases hmem with ⟨-, rfl⟩ | ⟨-, rfl⟩
    · simpa [VarNode] using ⟨outside 1 (by decide), outside 2 (by decide)⟩
    · simpa [VarNode] using outside 3 (by decide)
  have h : unify env.expand (tuple [ofId 0, ofId 0]) (tuple [ofId 2, node]) s = .ok s' := by
    simp only [env, s, s', node]
    cbv
  have none : lateVars env.expand (tuple [ofId 0, ofId 0]) (tuple [ofId 2, node]) s = [] := by
    simp only [env, s, node]
    cbv
  refine ⟨h, provides_of_unify closed (fun _ _ h => by simp [s] at h) keeps ?_ ?_ h
    (outside 0 (by decide)) (by simp [Timely, none])
    (show s.recordShape ⟨0, 0⟩ = some [("item", ofId 1), ("next", ofId 2)] by cbv) "item" ?_⟩
  · simpa [VarNode] using outside 0 (by decide)
  · simpa [VarNode, node] using outside 2 (by decide)
  · decide

theorem recordFields_of_unify {env : Env} (closed : env.Closed) {expected actual : Ty}
    {s s' : Subst} (hs : s.Resolved) (keeps : s.Keeps env.Outside (Within env.Outside))
    (hexpected : Within env.Outside expected) (hactual : Within env.Outside actual)
    (h : unify env.expand expected actual s = .ok s') {x : TypeVar} (hx : env.Outside x.id)
    (timely : Timely (lateVars env.expand expected actual s) s'.image x.id)
    {shape : List (String × Ty)} (hshape : s.recordShape x = some shape)
    (short : env.expand (env.unfoldWithin (Env.aliasDepth - 1) (s'.apply (.var x))) = none) :
    ∀ name ∈ Assoc.keys shape,
      (∃ y found, s'.apply (.var x) = .var y ∧ s'.recordShape y = some found ∧
        name ∈ Assoc.keys found) ∨
      ∃ fields, env.recordFields (s'.apply (.var x)) = some fields ∧ name ∈ Assoc.keys fields := by
  intro name hname
  obtain ⟨ext, delivered⟩ := delivered_of_unify closed hs keeps hexpected hactual h
  have provided := delivered.provides closed hs ext hx timely hshape hname
  exact provided.imp_right fun has => has.recordFields short

/-- A field is lost if the variable that it is carried to becomes bound on the way: here the types
of the first field make `1` a record. -/
theorem unify_loses_field :
    let t := record [("a", func [record []] int)]
    let s := Subst.built [.requireField ⟨0, 0⟩ "a" (func [ofId 1] int),
      .requireField ⟨0, 0⟩ "b" int, .requireField ⟨1, 0⟩ "a" (func [t] int)]
    let s' : Subst := { types := [(0, t), (1, t)], records := [(1, [("b", int)])] }
    s.recordShape ⟨0, 0⟩ = some [("a", func [ofId 1] int), ("b", int)] ∧
      unify Env.empty.expand (ofId 0) (ofId 1) s = .ok s' ∧
      ¬Env.empty.Provides s' (s'.apply (ofId 0)) "b" := by
  intro t s s'
  have hs : s = { records := [(0, [("a", func [ofId 1] int), ("b", int)]),
      (1, [("a", func [t] int)])] } := by
    simp only [s, t]
    cbv
  have becomes : s'.apply (ofId 0) = t := by cbv
  rw [hs, becomes]
  refine ⟨by cbv, by cbv, ?_⟩
  rintro (⟨v, shape, heq, -⟩ | hfield)
  · simp [t] at heq
  · exact absurd (Env.hasField_record.1 hfield) (by decide)

end Polytype
