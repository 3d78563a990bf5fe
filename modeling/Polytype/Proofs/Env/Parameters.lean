import Mathlib.Data.List.Nodup
import Polytype.Coverage.Matrix
import Polytype.Proofs.Env.Expansion
import Polytype.Proofs.Unification.Fit

namespace Polytype

open Ty

/-- The types that a definition is made of. -/
def Body.types : Body → List Ty
  | abstract => []
  | synonym target => [target]
  | record fields => [.record fields]
  | variant alternatives => alternatives.flatMap (·.args)

theorem Body.mem_types_of_target? {body : Body} {target : Ty} (h : body.target? = some target) :
    target ∈ body.types := by
  cases body <;> simp_all [target?, types]

def Definition.fill (d : Definition) (args : List Ty) (t : Ty) : Ty :=
  t.mapVars fun v =>
    (((d.params.zip args).find? fun pair => pair.1.id == v.id).map (·.2)).getD (.var v)

namespace Env

def fill (env : Env) (t : Ty) : Option Ty :=
  (env.definitionOf? t).bind fun d => d.body.target?.map (d.fill t.args)

/-- The variable is no parameter of a definition that stands for another type. -/
def Clear (env : Env) (id : Nat) : Prop :=
  ∀ params target, env.Target params target → ∀ p ∈ params, p.id ≠ id

/-- Definitions have distinct parameters, and mention their own parameters only. -/
structure Tidy (env : Env) : Prop where
  distinct : ∀ entry ∈ env.types, (entry.2.params.map (·.id)).Nodup
  closed : ∀ entry ∈ env.types, ∀ t ∈ entry.2.body.types, ∀ v ∈ t.vars, v ∈ entry.2.params

theorem Outside.clear {env : Env} {id : Nat} (h : env.Outside id) : env.Clear id := by
  rintro _ target ⟨entry, hentry, rfl, -⟩
  exact h entry hentry

theorem within_clear {env : Env} {t : Ty} (h : Within env.Outside t) : Within env.Clear t :=
  within_iff.2 fun v hv => (within_iff.1 h v hv).clear

end Env

/-! ## All at once -/

namespace Subst

section Apart

variable {params : List TypeVar} {types : List Ty}
  (apart : ∀ p ∈ params, ∀ t ∈ types, t.mentions p.id = false)

include apart in
theorem get?_ofPairs (hlength : params.length = types.length)
    (distinct : (params.map (·.id)).Nodup) (id : Nat) :
    (ofPairs (params.zip types)).types.get? id =
      ((params.zip types).find? fun pair => pair.1.id == id).map (·.2) := by
  have pairs : ((params.zip types).map fun pair => pair.1.id).Nodup := by
    rwa [← List.map_fst_zip (Nat.le_of_eq hlength), List.map_map] at distinct
  cases hfind : (params.zip types).find? fun pair => pair.1.id == id with
  | none =>
    rw [List.find?_eq_none] at hfind
    cases hget : (ofPairs (params.zip types)).types.get? id with
    | none => rfl
    | some u =>
      obtain ⟨pair, hpair, hid, -⟩ := mem_of_get?_ofPairs hget
      exact absurd (beq_iff_eq.2 hid) (hfind pair hpair)
  | some pair =>
    have hpair := List.mem_of_find?_eq_some hfind
    have hid : pair.1.id = id := by simpa using List.find?_some hfind
    cases hget : (ofPairs (params.zip types)).types.get? id with
    | none =>
      have occurs := mentions_of_isVar (isVar_of_get?_ofPairs hget hpair hid)
      rw [← hid, apart _ (List.of_mem_zip hpair).1 _ (List.of_mem_zip hpair).2] at occurs
      simp at occurs
    | some u =>
      obtain ⟨other, hother, hid', rfl⟩ := mem_of_get?_ofPairs hget
      rw [List.inj_on_of_nodup_map pairs hother hpair (hid'.trans hid.symm)]
      rfl

include apart in
theorem resolve_ofPairs {steps : Nat} (hsteps : steps ≠ 0) (v : TypeVar) :
    (ofPairs (params.zip types)).resolve steps v =
      ((ofPairs (params.zip types)).types.get? v.id).getD (.var v) := by
  obtain ⟨steps, rfl⟩ := Nat.exists_eq_succ_of_ne_zero hsteps
  cases hget : (ofPairs (params.zip types)).types.get? v.id with
  | none => simp [resolve, hget, relevel_ofPairs]
  | some u =>
    simp only [resolve, hget, Option.getD_some]
    calc u.mapVars _ = u.mapVars .var := mapVars_congr fun w hw => by
          rw [resolve_unbound (within_iff.1 (resolved_ofPairs apart _ _ hget) w hw), relevel_ofPairs]
      _ = u := mapVars_var u

end Apart

end Subst

namespace Env

variable {env : Env}

theorem exists_entry {t : Ty} {d : Definition} (h : env.definitionOf? t = some d) :
    d.params.length = t.args.length ∧ ∃ name, (name, d) ∈ env.types := by
  obtain ⟨hd, hlength⟩ := Option.filter_eq_some_iff.1 h
  obtain ⟨name, -, hname⟩ := Option.bind_eq_some_iff.1 hd
  exact ⟨(of_decide_eq_true hlength).symm, name, Assoc.mem_of_get? hname⟩

theorem clear_apart {t : Ty} (ht : Within env.Clear t) {d : Definition} {target : Ty}
    (hd : env.definitionOf? t = some d) (htarget : d.body.target? = some target) :
    ∀ p ∈ d.params, ∀ u ∈ t.args, u.mentions p.id = false := by
  intro p hp u hu
  refine Bool.eq_false_iff.2 fun occurs => ?_
  obtain ⟨v, hv, hid⟩ := mentions_iff.1 occurs
  obtain ⟨-, name, hentry⟩ := exists_entry hd
  exact within_iff.1 ht v (mem_vars_of_args hu hv) d.params target
    ⟨(name, d), hentry, rfl, htarget⟩ p hp hid.symm

section Tidy

variable (tidy : env.Tidy)

include tidy in
theorem fill_eq_resolve {t : Ty} (ht : Within env.Clear t) {d : Definition} {target : Ty}
    (hd : env.definitionOf? t = some d) (htarget : d.body.target? = some target) {steps : Nat}
    (hsteps : steps ≠ 0) :
    target.mapVars ((Subst.ofPairs (d.params.zip t.args)).resolve steps) = d.fill t.args target := by
  have apart := clear_apart ht hd htarget
  obtain ⟨hlength, name, hentry⟩ := exists_entry hd
  refine mapVars_congr fun v _ => ?_
  rw [Subst.resolve_ofPairs apart hsteps, Subst.get?_ofPairs apart hlength (tidy.distinct _ hentry)]

include tidy in
theorem expand_eq_fill {t : Ty} (ht : Within env.Clear t) : env.expand t = env.fill t := by
  unfold expand fill
  cases hd : env.definitionOf? t with
  | none => rfl
  | some d =>
    rw [Option.bind_some, Option.bind_some]
    cases htarget : d.body.target? with
    | none => rfl
    | some target =>
      have apart := clear_apart ht hd htarget
      obtain ⟨hlength, name, hentry⟩ := exists_entry hd
      have filled : d.instantiate t.args target = d.fill t.args target := by
        rw [Definition.instantiate, Subst.apply_ofPairs apart]
        exact mapVars_congr fun v _ => by
          rw [Subst.get?_ofPairs apart hlength (tidy.distinct _ hentry)]
      rw [Option.map_some, Option.map_some, filled]

/-! ## Where types come from -/

include tidy in
theorem within_instantiate {C : Nat → Prop} {t u : Ty} (ht : Within C t) {d : Definition}
    (hd : env.definitionOf? t = some d) (hu : u ∈ d.body.types) :
    Within C (d.instantiate t.args u) := by
  obtain ⟨hlength, name, hentry⟩ := exists_entry hd
  exact Subst.within_instance hlength (fun w hw => ⟨w, tidy.closed _ hentry u hu w hw, rfl⟩) ht

include tidy in
theorem within_of_expand {C : Nat → Prop} {t u : Ty} (ht : Within C t)
    (h : env.expand t = some u) : Within C u := by
  obtain ⟨d, target, hd, htarget, rfl⟩ := expand_eq_some h
  exact within_instantiate tidy ht hd (Body.mem_types_of_target? htarget)

include tidy in
theorem within_unfold {C : Nat → Prop} {t : Ty} (ht : Within C t) : Within C (env.unfold t) :=
  unfold_induction (within_of_expand tidy) ht

include tidy in
theorem within_recordFields {C : Nat → Prop} {t : Ty} (ht : Within C t)
    {fields : List (String × Ty)} (h : env.recordFields t = some fields) :
    Within C (.record fields) :=
  recordFields_induction (within_of_expand tidy) ht h

include tidy in
theorem within_alternatives {C : Nat → Prop} {t : Ty} (ht : Within C t)
    {found : List Alternative} (h : env.alternatives t = some found) :
    ∀ a ∈ found, ∀ u ∈ a.args, Within C u := by
  unfold alternatives at h
  generalize aliasDepth = steps at h
  induction steps generalizing t with
  | zero => simp [alternativesWithin] at h
  | succ steps ih =>
    unfold alternativesWithin at h
    cases hd : env.definitionOf? t with
    | none => simp [hd] at h
    | some d =>
      simp only [hd] at h
      cases hbody : d.body with
      | variant written =>
        simp only [hbody, Option.some.injEq] at h
        subst h
        intro a ha u hu
        obtain ⟨given, hgiven, rfl⟩ := List.mem_map.1 ha
        obtain ⟨arg, harg, rfl⟩ := List.mem_map.1 hu
        refine within_instantiate tidy ht hd ?_
        rw [hbody]
        exact List.mem_flatMap.2 ⟨given, hgiven, harg⟩
      | synonym target =>
        simp only [hbody] at h
        refine ih (within_instantiate tidy ht hd ?_) h
        simp [hbody, Body.types]
      | abstract | record => simp [hbody] at h

open Coverage in
include tidy in
theorem within_partTypes {C : Nat → Prop} (known : Within C unknown) {t : Ty} (ht : Within C t)
    (head : Head) : ∀ u ∈ partTypes env t head, Within C u := by
  have blank (arity : Nat) : ∀ u ∈ List.replicate arity unknown, Within C u := fun u hu =>
    (List.eq_of_mem_replicate hu).symm ▸ known
  have hC : Hereditary C anyLevel (Within C) := hereditary_within C
  cases head with
  | variant name =>
    intro u hu
    cases hfound : env.alternatives t with
    | none => simp [partTypes, hfound] at hu
    | some found =>
      cases hfind : found.find? fun a => a.name == name with
      | none => simp [partTypes, hfound, hfind] at hu
      | some a =>
        refine within_alternatives tidy ht hfound a (List.mem_of_find?_eq_some hfind) u ?_
        simpa [partTypes, hfound, hfind] using hu
  | tuple arity =>
    simp only [partTypes]
    split
    · split
      · exact hC.elements ht
      · exact blank arity
    · exact blank arity
  | record names =>
    simp only [partTypes, List.forall_mem_map]
    intro name _
    cases hfields : env.recordFields t with
    | none => simpa using known
    | some fields =>
      rw [Option.getD_some]
      cases hget : Assoc.get? fields name with
      | none => exact known
      | some u => exact hC.field (within_recordFields tidy ht hfields) _ (Assoc.mem_of_get? hget)
  | cons =>
    have element : Within C (t.listElement?.getD unknown) := by
      unfold listElement?
      split
      · split
        · exact hC.args ht _ List.mem_cons_self
        · exact known
      · exact known
    simp only [partTypes, List.forall_mem_cons, List.not_mem_nil, false_implies, implies_true,
      and_true]
    exact ⟨element, .app trivial (.const trivial) (by simpa using element)⟩
  | _ => simp [partTypes]

open Coverage in
include tidy in
theorem within_plan {C : Nat → Prop} (known : Within C unknown) {t : Ty} (ht : Within C t)
    {rows : List Row} {heads : List (Head × List Ty)}
    (h : plan env (env.unfold t) rows = .split heads) :
    ∀ entry ∈ heads, ∀ u ∈ entry.2, Within C u := by
  unfold plan at h
  dsimp only at h
  split at h
  · simp at h
  · split at h
    · simp only [Plan.split.injEq] at h
      subst h
      intro entry hentry
      obtain ⟨head, -, rfl⟩ := List.mem_map.1 hentry
      exact within_partTypes tidy known (within_unfold tidy ht) head
    · split at h <;> simp at h

end Tidy

end Env

/-! ## Unifying -/

structure Problem.Proper (C : Nat → Prop) (p : Problem) : Prop where
  resolved : p.subst.Resolved
  keeps : p.subst.Keeps C (Within C)
  goals : ∀ g ∈ p.goals, g.Proper (Within C) p.subst

section Unify

variable {C : Nat → Prop} {definition definition' : Ty → Option Ty}

theorem Problem.proper_start {s : Subst} (resolved : s.Resolved) (keeps : s.Keeps C (Within C))
    {expected actual : Ty} (hexpected : Within C expected) (hactual : Within C actual)
    (expansions : Nat) :
    Problem.Proper C ⟨s, expansions, [.fits false (s.apply expected) (s.apply actual)]⟩ := by
  have hC : Hereditary C anyLevel (Within C) := hereditary_within C
  refine ⟨resolved, keeps, fun g hg => ?_⟩
  obtain rfl := List.mem_singleton.1 hg
  exact ⟨⟨keeps.apply hC (Subst.levelsAbove_zero s) hexpected, resolved.settled_apply expected⟩,
    keeps.apply hC (Subst.levelsAbove_zero s) hactual, resolved.settled_apply actual⟩

theorem Problem.Proper.meet (hdef : ∀ t t', Within C t → definition t = some t' → Within C t')
    {p q : Problem} (proper : p.Proper C) {goal : Goal} {rest : List Goal}
    (hp : p.goals = goal :: rest) (h : p.meet definition goal rest = .continued q) :
    q.Proper C := by
  have hC : Hereditary C anyLevel (Within C) := hereditary_within C
  obtain ⟨resolved, keeps, goals⟩ := proper
  obtain ⟨front, others⟩ := List.forall_mem_cons.1 (hp ▸ goals)
  suffices ∀ s' goals', Next definition p.subst goal rest s' goals' →
      s'.Resolved ∧ s'.Keeps C (Within C) ∧ ∀ g ∈ goals', g.Proper (Within C) s' by
    obtain ⟨resolved, keeps, goals⟩ := this _ _ (meet_cases h)
    exact ⟨resolved, keeps, goals⟩
  intro s' goals' next
  cases next with
  | split hsplit =>
    refine ⟨resolved, keeps, List.forall_mem_append.2 ⟨?_, others⟩⟩
    exact hsplit.proper hC hdef (Subst.levelsAbove_zero _) resolved keeps front
  | move hmove =>
    obtain ⟨step, hnew⟩ := hmove.extends hC (Subst.levelsAbove_zero _) resolved keeps front
    refine ⟨step.resolved, step.keeps, List.forall_mem_map.2 fun g hg => ?_⟩
    exact Goal.proper_refresh hC (Subst.levelsAbove_zero _) step.resolved step.keeps
      (List.forall_mem_append.2 ⟨hnew, others⟩ g hg)

variable (agree : ∀ t, Within C t → definition t = definition' t)

include agree in
theorem Problem.meet_congr {p : Problem} {goal : Goal} (hgoal : goal.Proper (Within C) p.subst)
    (rest : List Goal) : p.meet definition goal rest = p.meet definition' goal rest := by
  cases goal with
  | impossible clash => rfl
  | carries v field t => rfl
  | fits exact expected actual =>
    have expand : p.expand definition exact expected actual rest =
        p.expand definition' exact expected actual rest := by
      unfold Problem.expand
      rw [agree expected hgoal.1.1, agree actual hgoal.2.1]
    cases expected <;> cases actual <;> simp only [meet, expand]

include agree in
theorem Problem.solve_congr (hdef : ∀ t t', Within C t → definition t = some t' → Within C t')
    {p : Problem} (proper : p.Proper C) : p.solve definition = p.solve definition' := by
  induction p using Problem.solve.induct definition with
  | case1 p hp => rw [solve_nil hp, solve_nil hp]
  | case2 p goal rest hp clash hmeet =>
    have same := meet_congr agree (proper.goals goal (hp ▸ List.mem_cons_self)) rest
    rw [solve_failed hp hmeet, solve_failed hp (same ▸ hmeet)]
  | case3 p goal rest hp q hmeet ih =>
    have same := meet_congr agree (proper.goals goal (hp ▸ List.mem_cons_self)) rest
    rw [solve_continued hp hmeet, solve_continued hp (same ▸ hmeet), ih (proper.meet hdef hp hmeet)]

include agree in
theorem unify_congr (hdef : ∀ t t', Within C t → definition t = some t' → Within C t')
    {s : Subst} (resolved : s.Resolved) (keeps : s.Keeps C (Within C)) {expected actual : Ty}
    (hexpected : Within C expected) (hactual : Within C actual) :
    unify definition expected actual s = unify definition' expected actual s :=
  Problem.solve_congr agree hdef
    (Problem.proper_start resolved keeps hexpected hactual expansionLimit)

end Unify

end Polytype
