import Polytype.Proofs.Env.Parameters

namespace Polytype

open Ty

/-! ## Following bindings to their end -/

namespace Subst

inductive Follows (s : Subst) : TypeVar → Ty → Prop
  | unbound {v : TypeVar} : s.types.get? v.id = none → Follows s v (.var (s.relevel v))
  | bound {v : TypeVar} {t : Ty} {f : TypeVar → Ty} : s.types.get? v.id = some t →
      (∀ w ∈ t.vars, Follows s w (f w)) → Follows s v (t.mapVars f)

def Applicable (s : Subst) (t : Ty) : Prop :=
  ∃ f, (∀ v ∈ t.vars, s.Follows v (f v)) ∧ s.apply t = t.mapVars f

theorem Resolved.follows {s : Subst} (hs : s.Resolved) (v : TypeVar) :
    s.Follows v (s.resolve s.size v) := by
  rw [hs.resolve]
  cases ht : s.types.get? v.id with
  | none => exact .unbound ht
  | some t =>
    exact .bound ht fun w hw => .unbound (isBound_eq_false.1 (within_iff.1 (hs _ _ ht) w hw))

theorem Resolved.applicable {s : Subst} (hs : s.Resolved) (t : Ty) : s.Applicable t :=
  ⟨s.resolve s.size, fun v _ => hs.follows v, rfl⟩

end Subst

/-! ## Runs -/

/-- The types that a goal compares. -/
def Goal.compared : Goal → List Ty
  | fits _ expected actual => [expected, actual]
  | _ => []

inductive Goal.Replaces (env : Env) (s : Subst) : Goal → Ty → Goal → Prop
  | expected {exact : Bool} {expected actual t : Ty} : env.expand expected = some t →
      Replaces env s (fits exact expected actual) expected (fits exact (s.apply t) actual)
  | actual {exact : Bool} {expected actual t : Ty} : env.expand expected = none →
      env.expand actual = some t →
      Replaces env s (fits exact expected actual) actual (fits exact expected (s.apply t))

namespace Problem

/-- What is computed to meet a goal ends: the current substitution can be applied, and so can the one
that binds a variable of the goal and the one that fills in the parameters of a definition. -/
structure Ends (env : Env) (p : Problem) (goal : Goal) : Prop where
  apply : ∀ t, p.subst.Applicable t
  unbound : ∀ v, .var v ∈ goal.compared → p.subst.isBound v.id = false
  bind : ∀ v t, .var v ∈ goal.compared → t ∈ goal.compared → t.mentions v.id = false →
    ∀ u, (p.subst.binding v t).Applicable u
  fill : ∀ name ∈ goal.compared, ∀ d target, env.definitionOf? name = some d →
    d.body.target? = some target → (Subst.ofPairs (d.params.zip name.args)).Applicable target

/-- A run of unification with the named types that it replaces. The other steps are those that can be
made without definitions. -/
inductive Run (env : Env) : Problem → List Ty → Except Clash Subst → Prop
  | done {p : Problem} : (∀ t, p.subst.Applicable t) → p.goals = [] → Run env p [] (.ok p.subst)
  | failed {p : Problem} {goal : Goal} {rest : List Goal} {clash : Clash} : Ends env p goal →
      p.goals = goal :: rest → p.meet env.expand goal rest = .failed clash →
      Run env p [] (.error clash)
  | plain {p q : Problem} {goal : Goal} {rest : List Goal} {names : List Ty}
      {result : Except Clash Subst} : Ends env p goal → p.goals = goal :: rest →
      p.meet env.expand goal rest = .continued q → p.meet (fun _ => none) goal rest = .continued q →
      Run env q names result → Run env p names result
  | replace {p q : Problem} {goal new : Goal} {rest : List Goal} {name : Ty} {names : List Ty}
      {clash : Clash} {result : Except Clash Subst} : Ends env p goal → p.goals = goal :: rest →
      p.meet env.expand goal rest = .continued q → p.meet (fun _ => none) goal rest = .failed clash →
      goal.Replaces env p.subst name new → q.goals = new :: rest →
      Run env q names result → Run env p (name :: names) result

/-! ## Steps -/

section Step

variable {env : Env} {p q : Problem} {goal : Goal} {rest : List Goal}

theorem expand_plain (p : Problem) (exact : Bool) (expected actual : Ty) (rest : List Goal) :
    p.expand (fun _ => none) exact expected actual rest = .failed (.mismatch expected actual) := by
  unfold expand
  cases p.expansions <;> rfl

theorem meet_plain (definition : Ty → Option Ty) (p : Problem) (goal : Goal) (rest : List Goal) :
    p.meet definition goal rest = p.meet (fun _ => none) goal rest ∨
      ∃ exact expected actual, goal = .fits exact expected actual ∧
        p.meet definition goal rest = p.expand definition exact expected actual rest ∧
        p.meet (fun _ => none) goal rest = .failed (.mismatch expected actual) := by
  cases goal with
  | impossible | carries => exact .inl rfl
  | fits exact expected actual =>
    have failed := expand_plain p exact expected actual rest
    -- Names and applications are compared first; only if they differ, definitions are asked for.
    cases expected <;> cases actual
    case const.const name other =>
      by_cases h : name = other
      · exact .inl (by simp only [meet, h, if_true])
      · exact .inr ⟨exact, _, _, rfl, by simp only [meet, h, if_false],
          by simp only [meet, h, if_false, failed]⟩
    case app.app head args head' args' =>
      by_cases h : head.same head' = true
      · exact .inl (by simp only [meet, h, if_true])
      · exact .inr ⟨exact, _, _, rfl, by simp only [meet, h, Bool.false_eq_true, if_false],
          by simp only [meet, h, Bool.false_eq_true, if_false, failed]⟩
    all_goals first
      | exact .inl rfl
      | exact .inr ⟨exact, _, _, rfl, rfl, failed⟩

theorem expand_replaces {exact : Bool} {expected actual : Ty}
    (h : p.expand env.expand exact expected actual rest = .continued q) :
    q.expansions + 1 = p.expansions ∧ ∃ name new,
      (Goal.fits exact expected actual).Replaces env p.subst name new ∧ q.goals = new :: rest := by
  unfold expand at h
  cases hleft : p.expansions with
  | zero => simp [hleft] at h
  | succ left =>
    cases hexpected : env.expand expected with
    | some t =>
      simp only [hleft, hexpected, split, Outcome.continued.injEq] at h
      subst h
      exact ⟨rfl, _, _, .expected hexpected, rfl⟩
    | none =>
      cases hactual : env.expand actual with
      | some t =>
        simp only [hleft, hexpected, hactual, split, Outcome.continued.injEq] at h
        subst h
        exact ⟨rfl, _, _, .actual hexpected hactual, rfl⟩
      | none => simp [hleft, hexpected, hactual] at h

theorem expansions_le (hp : p.goals = goal :: rest)
    (h : p.meet env.expand goal rest = .continued q) : q.expansions ≤ p.expansions := by
  have below := meet_below hp h
  rcases Prod.lex_def.1 below with fewer | ⟨same, -⟩
  · exact Nat.le_of_lt fewer
  · exact Nat.le_of_eq same

end Step

/-! ## What a run gives -/

namespace Run

variable {env : Env} {p : Problem} {names : List Ty} {result : Except Clash Subst}

theorem solve_eq (run : Run env p names result) : p.solve env.expand = result := by
  induction run with
  | done _ hp => exact solve_nil hp
  | failed _ hp h => exact solve_failed hp h
  | plain _ hp h _ _ ih => rw [solve_continued hp h, ih]
  | replace _ hp h _ _ _ _ ih => rw [solve_continued hp h, ih]

theorem length_le (run : Run env p names result) : names.length ≤ p.expansions := by
  induction run with
  | done | failed => exact Nat.zero_le _
  | plain _ hp h _ _ ih => exact Nat.le_trans ih (expansions_le hp h)
  | @replace p q goal _ rest _ _ _ _ _ _ h stuck _ _ _ ih =>
    rcases meet_plain env.expand p goal rest with same | ⟨_, _, _, rfl, expands, -⟩
    · rw [← same, h] at stuck
      cases stuck
    · obtain ⟨spent, -⟩ := expand_replaces (expands ▸ h)
      rw [List.length_cons]
      omega

end Run

/-! ## Every problem has a run -/

section Exists

variable {env : Env} (own : ∀ params target, env.Target params target →
  ∀ v ∈ target.vars, ∃ p ∈ params, p.id = v.id)

theorem Proper.ends {p : Problem} (proper : p.Proper env.Clear) {goal : Goal}
    (hgoal : goal ∈ p.goals) : Ends env p goal := by
  have compared : ∀ t ∈ goal.compared, Within env.Clear t ∧ p.subst.Settled t := by
    have front := proper.goals goal hgoal
    cases goal with
    | fits exact expected actual =>
      exact List.forall_mem_cons.2 ⟨front.1, List.forall_mem_singleton.2 front.2⟩
    | carries | impossible => simp [Goal.compared]
  refine ⟨proper.resolved.applicable, fun v hv => ?_, fun v t _ _ fresh => ?_,
    fun name hname d target hd htarget => ?_⟩
  -- The goals of a problem have its substitution applied to them.
  · exact within_iff.1 (compared _ hv).2 v List.mem_cons_self
  · exact (Subst.resolved_binding fresh).applicable
  · have apart := Env.clear_apart (compared name hname).1 hd htarget
    exact (Subst.resolved_ofPairs apart).applicable target

include own in
theorem Proper.exists_run {p : Problem} (proper : p.Proper env.Clear) :
    ∃ names, Run env p names (p.solve env.expand) := by
  induction p using Problem.solve.induct env.expand with
  | case1 p hp =>
    rw [solve_nil hp]
    exact ⟨[], .done proper.resolved.applicable hp⟩
  | case2 p goal rest hp clash hmeet =>
    have ends : Ends env p goal := proper.ends (hp ▸ List.mem_cons_self)
    rw [solve_failed hp hmeet]
    exact ⟨[], .failed ends hp hmeet⟩
  | case3 p goal rest hp q hmeet ih =>
    have ends : Ends env p goal := proper.ends (hp ▸ List.mem_cons_self)
    obtain ⟨names, run⟩ := ih (proper.meet (fun _ _ => Env.within_expand (own _ _)) hp hmeet)
    rw [solve_continued hp hmeet]
    -- The step is one without definitions, unless there is none.
    rcases meet_plain env.expand p goal rest with same | ⟨exact, expected, actual, rfl, expands, stuck⟩
    · exact ⟨names, .plain ends hp hmeet (same ▸ hmeet) run⟩
    · obtain ⟨-, name, new, replaces, hgoals⟩ := expand_replaces (expands ▸ hmeet)
      exact ⟨name :: names, .replace ends hp hmeet stuck replaces hgoals run⟩

end Exists

end Problem

/-- Unification comes to an end and replaces at most `expansionLimit` names, whatever the definitions
and recorded fields lead back to. Definitions mention their own parameters only, which occur neither
in the types nor in the substitution. -/
theorem unify_terminates {env : Env}
    (own : ∀ params target, env.Target params target → ∀ v ∈ target.vars, ∃ p ∈ params, p.id = v.id)
    {s : Subst} (resolved : s.Resolved) (keeps : s.Keeps env.Clear (Within env.Clear))
    {expected actual : Ty} (hexpected : Within env.Clear expected)
    (hactual : Within env.Clear actual) :
    let start : Problem := ⟨s, expansionLimit, [.fits false (s.apply expected) (s.apply actual)]⟩
    (∃ names, Problem.Run env start names (unify env.expand expected actual s)) ∧
    ∀ names result, Problem.Run env start names result →
      result = unify env.expand expected actual s ∧ names.length ≤ expansionLimit := by
  intro start
  have proper : start.Proper env.Clear :=
    Problem.proper_start resolved keeps hexpected hactual expansionLimit
  exact ⟨proper.exists_run own, fun names result run => ⟨run.solve_eq.symm, run.length_le⟩⟩

theorem unify_terminates_node :
    let node (t : Ty) := app (const "Node") [t]
    let env := Env.single ⟨"Node", [⟨9, 0⟩], .record [("item", ofId 9), ("next", node (ofId 9))]⟩
    let s : Subst := { records := [(0, [("next", ofId 0)])] }
    let start : Problem :=
      ⟨s, expansionLimit, [.fits false (s.apply (ofId 0)) (s.apply (node int))]⟩
    (∃ names, Problem.Run env start names (unify env.expand (ofId 0) (node int) s)) ∧
    ∀ names result, Problem.Run env start names result →
      result = unify env.expand (ofId 0) (node int) s ∧ names.length ≤ expansionLimit := by
  intro node env s start
  have own : ∀ params target, env.Target params target →
      ∀ v ∈ target.vars, ∃ p ∈ params, p.id = v.id := by
    intro params target h
    obtain ⟨rfl, htarget⟩ := Env.target_single.1 h
    obtain rfl := Option.some.inj htarget
    simp [node, vars, varsFields, varsList]
  have clear : env.Clear 0 := (Env.outside_single.2 (by simp)).clear
  have hexpected : Within env.Clear (ofId 0) := within_iff.2 (by simpa [vars, ofId] using clear)
  have keeps : s.Keeps env.Clear (Within env.Clear) := by
    refine ⟨fun _ h => by simp [s] at h, fun {id fields} _ _ h => ?_⟩
    obtain ⟨-, rfl⟩ : id = 0 ∧ fields = [("next", ofId 0)] := by simpa [s] using Assoc.mem_of_get? h
    exact within_iff.2 (by simpa [vars, varsFields, ofId] using clear)
  have resolved : s.Resolved := fun _ _ h => by simp [s] at h
  exact unify_terminates own resolved keeps hexpected (within_iff.2 (by simp [node, vars, varsList]))

end Polytype
