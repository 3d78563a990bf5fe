import Polytype.Proofs.Inference.Steps

namespace Polytype

open Progress

namespace Infer

/-! ## Runs that enter a part -/

theorem anywhere : Env.Nesting fun _ => True := fun _ _ _ => trivial

theorem steps_expr (env : Env) (level : Nat) (e : Expr) :
    Stepwise (fun _ => True) (expr env level e) :=
  stepwise_expr anywhere e env level trivial

theorem steps_unifyAt (env : Env) (span : Span) (expected actual : Ty) :
    Stepwise (fun _ => True) (unifyAt env span expected actual) :=
  stepwise_unifyAt trivial span expected actual

theorem steps_exprs (env : Env) (level : Nat) (es : List Expr) :
    Stepwise (fun _ => True) (exprs env level es) :=
  stepwise_exprs trivial level fun e _ => stepwise_expr anywhere e

theorem steps_arguments (env : Env) (level : Nat) (es : List Expr) (params : List Ty) :
    Stepwise (fun _ => True) (arguments env level es params) :=
  stepwise_arguments trivial level (fun e _ => stepwise_expr anywhere e) params

theorem steps_elements (env : Env) (level : Nat) (element : Ty) (es : List Expr) :
    Stepwise (fun _ => True) (elements env level element es) :=
  stepwise_elements trivial level element fun e _ => stepwise_expr anywhere e

theorem steps_guardOf (env : Env) (level : Nat) (guard : Option Expr) :
    Stepwise (fun _ => True) (guardOf env level guard) :=
  stepwise_guardOf trivial level fun e _ => stepwise_expr anywhere e

theorem steps_arms (env : Env) (level : Nat) (scrutinee result : Ty) (cases : List Arm) :
    Stepwise (fun _ => True) (arms env level scrutinee result cases) :=
  stepwise_arms trivial level anywhere scrutinee result fun arm _ =>
    ⟨fun e _ => stepwise_expr anywhere e, stepwise_expr anywhere arm.body⟩

theorem steps_entries (env : Env) (level : Nat) (parts : List Entry) (fields : List (String × Ty)) :
    Stepwise (fun _ => True) (entries env level parts fields) := by
  refine stepwise_entries trivial level (fun entry _ => ?_) fields
  cases entry with
  | field init => exact stepwise_expr anywhere init.value
  | spread base => exact stepwise_expr anywhere base

theorem steps_updates (env : Env) (level : Nat) (record : Ty) (declared : List (String × Ty))
    (inits : List FieldInit) :
    Stepwise (fun _ => True) (updates env level record declared inits) :=
  stepwise_updates trivial level record declared fun init _ => stepwise_expr anywhere init.value

theorem steps_letBinding (env : Env) (level : Nat) (name : Ident) (written : Option TypeExpr)
    (value : Expr) (recursive : Bool) :
    Stepwise (fun _ => True) (letBinding env level name written value recursive) :=
  stepwise_letBinding trivial level anywhere name written (stepwise_expr anywhere value) recursive

theorem steps_group (env : Env) (level : Nat) (bindings : List GroupBinding) :
    Stepwise (fun _ => True) (group env level bindings) :=
  stepwise_group trivial level anywhere fun b _ => stepwise_expr anywhere b.value

def Enters {α : Type} (m : Infer α) (prep : Infer (Env × Nat)) (part : Expr) : Prop :=
  ∀ p a q, m p = .ok a q → ∃ scope r t r', prep p = .ok scope r ∧ Steps (fun _ => True) p r ∧
    expr scope.1 scope.2 part r = .ok t r' ∧ Steps (fun _ => True) r' q

section Enters

variable {α β : Type} {env : Env} {level : Nat} {part : Expr} {prep : Infer (Env × Nat)}

theorem Enters.here {f : Ty → Infer α} (rest : ∀ t, Stepwise (fun _ => True) (f t)) :
    Enters (expr env level part >>= f) (pure (env, level)) part := by
  intro p a q run
  obtain ⟨t, r, entered, run⟩ := exists_of_bind run
  exact ⟨(env, level), p, t, r, rfl, .refl, entered, (rest t).ok run⟩

theorem Enters.last : Enters (expr env level part) (pure (env, level)) part :=
  fun p t q run => ⟨(env, level), p, t, q, rfl, .refl, run, .refl⟩

theorem Enters.bindOf {m : Infer β} {f : β → Infer α} {prep : β → Infer (Env × Nat)}
    {P : β → Prop} (hm : Stepwise (fun _ => True) m) (returns : Returns m P)
    (h : ∀ b, P b → Enters (f b) (prep b) part) : Enters (m >>= f) (m >>= prep) part := by
  intro p a q run
  obtain ⟨b, o, first, run⟩ := exists_of_bind run
  obtain ⟨scope, r, t, r', prepared, steps, entered, later⟩ := h b (returns p b o first) o a q run
  exact ⟨scope, r, t, r', (run_bind_ok first).trans prepared, (hm.ok first).trans steps, entered,
    later⟩

theorem Enters.bind {m : Infer β} {f : β → Infer α} {prep : β → Infer (Env × Nat)}
    (hm : Stepwise (fun _ => True) m) (h : ∀ b, Enters (f b) (prep b) part) :
    Enters (m >>= f) (m >>= prep) part :=
  .bindOf hm (fun _ _ _ _ => trivial) fun b _ => h b

theorem Enters.drawn {f : Nat → Infer α} (h : ∀ n, Enters (f n) prep part) :
    Enters (drawnSoFar >>= f) prep part :=
  fun p => h p.next p

theorem Enters.before {m : Infer β} {f : β → Infer α} (h : Enters m prep part)
    (rest : ∀ b, Stepwise (fun _ => True) (f b)) : Enters (m >>= f) prep part := by
  intro p a q run
  obtain ⟨b, o, first, run⟩ := exists_of_bind run
  obtain ⟨scope, r, t, r', prepared, steps, entered, later⟩ := h p b o first
  exact ⟨scope, r, t, r', prepared, steps, entered, later.trans ((rest b).ok run)⟩

theorem enters_exprs (before later : List Expr) :
    Enters (exprs env level (before ++ part :: later)) (do
      let _ ← exprs env level before
      return (env, level)) part := by
  induction before with
  | nil =>
    simp only [List.nil_append, exprs, pure_bind]
    exact .here fun _ => (steps_exprs _ _ later).bind fun _ => stepwise_pure _
  | cons e before ih =>
    simp only [List.cons_append, exprs, bind_assoc, pure_bind]
    exact .bind (steps_expr env level e) fun _ => ih.before fun _ => stepwise_pure _

theorem enters_arguments (before later : List Expr) {params : List Ty}
    (enough : before.length < params.length) :
    Enters (arguments env level (before ++ part :: later) params) (do
      arguments env level before params
      return (env, level)) part := by
  induction before generalizing params with
  | nil =>
    cases params with
    | nil => simp at enough
    | cons param params =>
      simp only [List.nil_append, arguments, pure_bind]
      exact .here fun _ => (steps_unifyAt _ _ _ _).bind fun _ => steps_arguments _ _ later params
  | cons e before ih =>
    cases params with
    | nil => simp at enough
    | cons param params =>
      simp only [List.cons_append, arguments, bind_assoc]
      exact .bind (steps_expr env level e) fun _ => .bind (steps_unifyAt _ _ _ _) fun _ =>
        ih (by simpa using enough)

theorem enters_elements (element : Ty) (before later : List Expr) :
    Enters (elements env level element (before ++ part :: later)) (do
      elements env level element before
      return (env, level)) part := by
  induction before with
  | nil =>
    simp only [List.nil_append, elements, pure_bind]
    exact .here fun _ => (steps_unifyAt _ _ _ _).bind fun _ => steps_elements _ _ element later
  | cons e before ih =>
    simp only [List.cons_append, elements, bind_assoc]
    exact .bind (steps_expr env level e) fun _ => .bind (steps_unifyAt _ _ _ _) fun _ => ih

theorem enters_members (before later : List GroupBinding) (binding : GroupBinding)
    {types : List Ty} (enough : before.length < types.length) :
    Enters (members env level (before ++ binding :: later) types) (do
      members env level before types
      return (env, level + 1)) binding.value := by
  rw [members_eq, members_eq, List.map_append, List.map_cons]
  exact enters_arguments _ _ (by simpa using enough)

theorem enters_guardOf : Enters (guardOf env level (some part)) (pure (env, level)) part := by
  rw [guardOf]
  refine .here fun t p => ?_
  rw [after_getSubst]
  split
  · rename_i h
    have inside : (Subst.Operation.unify env .bool t).In fun _ => True := trivial
    exact step_setSubst _ inside (run_unify h)
  · exact .refl

theorem Enters.arms {scrutinee result : Ty} {arm : Arm} {later : List Arm}
    (h : Enters (arms env level scrutinee result (arm :: later)) prep part) (before : List Arm) :
    Enters (Infer.arms env level scrutinee result (before ++ arm :: later)) (do
      Infer.arms env level scrutinee result before
      prep) part := by
  induction before with
  | nil => simpa only [List.nil_append, Infer.arms, pure_bind] using h
  | cons first before ih =>
    obtain ⟨p, guard, body, span⟩ := first
    simp only [List.cons_append, Infer.arms, bind_assoc]
    exact .bind (stepwise_checkPattern trivial p scrutinee) fun _ =>
      .bind (steps_guardOf _ _ guard) fun _ => .bind (steps_expr _ _ body) fun _ =>
        .bind (steps_unifyAt _ _ _ _) fun _ => ih

theorem enters_guard {scrutinee result : Ty} {p : Pattern} {body : Expr} {span : Span}
    {later : List Arm} :
    Enters (arms env level scrutinee result (⟨p, some part, body, span⟩ :: later)) (do
      let bound ← checkPattern env level p scrutinee
      return (env.extendMono bound, level)) part := by
  rw [Infer.arms]
  refine .bind (stepwise_checkPattern trivial p scrutinee) fun bound => ?_
  exact enters_guardOf.before fun _ => (steps_expr _ _ body).bind fun _ =>
    (steps_unifyAt _ _ _ _).bind fun _ => steps_arms _ _ _ _ later

theorem enters_body {scrutinee result : Ty} {p : Pattern} {guard : Option Expr} {span : Span}
    {later : List Arm} :
    Enters (arms env level scrutinee result (⟨p, guard, part, span⟩ :: later)) (do
      let bound ← checkPattern env level p scrutinee
      guardOf (env.extendMono bound) level guard
      return (env.extendMono bound, level)) part := by
  rw [Infer.arms]
  exact .bind (stepwise_checkPattern trivial p scrutinee) fun _ =>
    .bind (steps_guardOf _ _ guard) fun _ => .here fun _ =>
      (steps_unifyAt _ _ _ _).bind fun _ => steps_arms _ _ _ _ later

theorem enters_entries (before later : List Entry) (entry : Entry) (fields : List (String × Ty)) :
    Enters (entries env level (before ++ entry :: later) fields) (do
      let _ ← entries env level before fields
      return (env, level)) entry.value := by
  induction before generalizing fields with
  | nil =>
    cases entry with
    | field init =>
      obtain ⟨name, value, span⟩ := init
      simp only [List.nil_append, entries, pure_bind]
      exact .here fun _ => steps_entries _ _ later _
    | spread base =>
      simp only [List.nil_append, entries, pure_bind]
      exact .here fun t => (stepwise_resolved t).bind fun applied =>
        (stepwise_spreadFields _ applied).bind fun _ => steps_entries _ _ later _
  | cons first before ih =>
    cases first with
    | field init =>
      obtain ⟨name, value, span⟩ := init
      simp only [List.cons_append, entries, bind_assoc]
      exact .bind (steps_expr env level value) fun _ => ih _
    | spread base =>
      simp only [List.cons_append, entries, bind_assoc]
      exact .bind (steps_expr env level base) fun t => .bind (stepwise_resolved t) fun applied =>
        .bind (stepwise_spreadFields _ applied) fun _ => ih _

theorem enters_updates (record : Ty) (declared : List (String × Ty)) (before later : List FieldInit)
    (init : FieldInit) :
    Enters (updates env level record declared (before ++ init :: later)) (do
      updates env level record declared before
      if (Assoc.get? declared init.name).isNone then
        fail (.fieldNotFound init.name record) init.span
      else return (env, level)) init.value := by
  induction before with
  | nil =>
    obtain ⟨name, value, span⟩ := init
    simp only [List.nil_append, updates, pure_bind]
    cases Assoc.get? declared name with
    | none => exact fun p a q run => by cases run
    | some expected =>
      exact .here fun _ => (steps_unifyAt _ _ _ _).bind fun _ => steps_updates _ _ _ _ later
  | cons first before ih =>
    obtain ⟨name, value, span⟩ := first
    simp only [List.cons_append, updates]
    cases Assoc.get? declared name with
    | none => exact fun p a q run => by cases run
    | some expected =>
      simp only [bind_assoc]
      exact .bind (steps_expr env level value) fun _ => .bind (steps_unifyAt _ _ _ _) fun _ => ih

theorem enters_argument (function : Expr) (before later : List Expr) (span : Span) :
    Enters (expr env level (.apply function (before ++ part :: later) span))
      (beforeArgument env level function (before ++ part :: later) before span) part := by
  rw [expr, beforeArgument]
  refine .bind (steps_expr env level function) fun t => ?_
  refine .bind (stepwise_resolved t) fun applied => ?_
  cases env.callee applied with
  | func params result =>
    by_cases few : params.length < (before ++ part :: later).length
    · simp only [few, true_or, if_true]
      exact fun p a q run => by cases run
    · have enough : before.length < params.length := by
        simp only [List.length_append, List.length_cons] at few
        omega
      simp only [few, false_or, if_false]
      rw [if_neg (by simp)]
      exact (enters_arguments before later enough).before fun _ => stepwise_pure _
  | var v =>
    exact (enters_exprs before later).before fun _ => (stepwise_fresh level).bind fun _ =>
      (steps_unifyAt _ _ _ _).bind fun _ => stepwise_pure _
  | const | app | record | tuple =>
    intro p a q run
    obtain ⟨params, p', -, run⟩ := exists_of_bind run
    obtain ⟨result, p'', -, run⟩ := exists_of_bind run
    cases run

theorem enters_case {scrutinee : Expr} {cases : List Arm} {span : Span}
    {prep : Ty → Ty → Infer (Env × Nat)}
    (h : ∀ t result, Enters (arms env level t result cases) (prep t result) part) :
    Enters (expr env level (.case scrutinee cases span)) (do
      let t ← expr env level scrutinee
      let result ← fresh level
      prep t result) part := by
  rw [expr]
  refine .bind (steps_expr env level scrutinee) fun t => ?_
  refine .bind (stepwise_fresh level) fun result => ?_
  refine (h t result).before fun _ => stepwise_getSubst.bind fun s => ?_
  dsimp only
  split
  · exact stepwise_fail
  · exact stepwise_pure _

theorem enters_update (base : Expr) (before later : List FieldInit) (init : FieldInit)
    (span : Span) :
    Enters (expr env level (.update base (before ++ init :: later) span)) (do
      let t ← expr env level base
      let applied ← resolved t
      let declared ← updatable env level base (before ++ init :: later) applied
      updates env level applied declared before
      if (Assoc.get? declared init.name).isNone then
        fail (.fieldNotFound init.name applied) init.span
      else return (env, level)) init.value := by
  rw [expr]
  refine .bind (steps_expr env level base) fun t => .bind (stepwise_resolved t) fun applied => ?_
  have inits (declared : List (String × Ty)) :=
    @enters_updates env level applied declared before later init
  cases applied with
  | var v =>
    exact .bind (stepwise_updatedFields v _ []) fun declared =>
      (inits declared).before fun _ => stepwise_pure _
  | const | app | func | record | tuple =>
    exact .bind (stepwise_fieldsAt _ _) fun declared =>
      (inits declared).before fun _ => stepwise_pure _

end Enters

theorem Stage.enters {env : Env} {level : Nat} {e part : Expr} {prep : Infer (Env × Nat)}
    (h : Stage env level e prep part) : Enters (expr env level e) prep part := by
  have unified (span : Span) (t u result : Ty) : Stepwise (fun _ => True) (do
      unifyAt env span t u
      return result) := (steps_unifyAt env span t u).bind fun _ => stepwise_pure _
  cases h with
  | lambda =>
    rw [expr]
    refine .bind ?_ fun _ => .here fun _ => stepwise_pure _
    exact stepwise_resolving fun _ => Resolve.finds_params (level + 1) _
  | function =>
    rw [expr]
    refine .here fun t => (stepwise_resolved t).bind fun applied => ?_
    split
    · split
      · exact stepwise_fail
      · exact (steps_arguments _ _ _ _).bind fun _ => stepwise_pure _
    · exact (steps_exprs _ _ _).bind fun _ => (stepwise_fresh level).bind fun _ => unified _ _ _ _
    · exact (stepwise_freshList level _).bind fun _ =>
        (stepwise_fresh level).bind fun _ => stepwise_fail
  | argument => exact enters_argument _ _ _ _
  | letValue =>
    rw [expr]
    refine .drawn fun drawn => .bind (stepwise_letScope _ _ _) fun scope => .here fun t => ?_
    refine (stepwise_letScheme trivial _ _ _ t).bind fun σ => ?_
    exact (stepwise_noteSchemes trivial _ _).bind fun _ => steps_expr _ _ _
  | letBody =>
    rw [World.expr_letIn]
    exact .bind (steps_letBinding _ _ _ _ _ _) fun _ => .last
  | groupValue =>
    rw [expr]
    refine .drawn fun drawn => ?_
    refine .bindOf (stepwise_groupTypes _) (returns_groupTypes env level _) fun types matching => ?_
    refine (enters_members _ _ _ ?_).before fun _ => (stepwise_finishGroup _ types).bind fun _ => ?_
    · simp only [matching, List.length_append, List.length_cons]
      omega
    · exact (stepwise_noteSchemes trivial _ _).bind fun _ => steps_expr _ _ _
  | groupBody =>
    rw [World.expr_letGroup]
    exact .bind (steps_group _ _ _) fun _ => .last
  | condition =>
    rw [expr]
    exact .here fun t => (steps_unifyAt _ _ _ _).bind fun _ => (steps_expr _ _ _).bind fun _ =>
      (steps_expr _ _ _).bind fun _ => unified _ _ _ _
  | thenBranch =>
    rw [expr]
    exact .bind (steps_expr _ _ _) fun _ => .bind (steps_unifyAt _ _ _ _) fun _ => .here fun _ =>
      (steps_expr _ _ _).bind fun _ => unified _ _ _ _
  | elseBranch =>
    rw [expr]
    exact .bind (steps_expr _ _ _) fun _ => .bind (steps_unifyAt _ _ _ _) fun _ =>
      .bind (steps_expr _ _ _) fun _ => .here fun _ => unified _ _ _ _
  | block | tuple =>
    rw [expr]
    exact (enters_exprs _ _).before fun _ => stepwise_pure _
  | list =>
    rw [expr]
    exact .bind (stepwise_fresh level) fun element =>
      (enters_elements element _ _).before fun _ => stepwise_pure _
  | scrutinee =>
    rw [expr]
    refine .here fun t => (stepwise_fresh level).bind fun result => ?_
    refine (steps_arms _ _ _ _ _).bind fun _ => stepwise_getSubst.bind fun s => ?_
    dsimp only
    split
    · exact stepwise_fail
    · exact stepwise_pure _
  | guard => exact enters_case fun _ _ => enters_guard.arms _
  | arm => exact enters_case fun _ _ => enters_body.arms _
  | record =>
    rw [expr]
    exact (enters_entries _ _ _ []).before fun _ => stepwise_pure _
  | base =>
    rw [expr]
    refine .here fun t => (stepwise_resolved t).bind fun applied => ?_
    split
    · exact (stepwise_updatedFields _ _ []).bind fun _ =>
        (steps_updates _ _ _ _ _).bind fun _ => stepwise_pure _
    · exact (stepwise_fieldsAt _ applied).bind fun _ =>
        (steps_updates _ _ _ _ _).bind fun _ => stepwise_pure _
  | update => exact enters_update _ _ _ _ _
  | object =>
    rw [expr]
    refine .here fun t => (stepwise_resolved t).bind fun applied => ?_
    split
    · exact stepwise_fieldOf _ _ level
    · refine (stepwise_fieldsAt _ _).bind fun fields => ?_
      split
      · exact stepwise_pure _
      · exact stepwise_fail
  | makeRef =>
    rw [expr]
    exact .here fun _ => stepwise_pure _
  | deref =>
    rw [expr]
    exact .here fun _ => (stepwise_fresh level).bind fun _ => unified _ _ _ _
  | target =>
    rw [expr]
    exact .here fun _ => (stepwise_fresh level).bind fun _ => (steps_unifyAt _ _ _ _).bind fun _ =>
      (steps_expr _ _ _).bind fun _ => unified _ _ _ _
  | assigned =>
    rw [expr]
    exact .bind (steps_expr _ _ _) fun _ => .bind (stepwise_fresh level) fun _ =>
      .bind (steps_unifyAt _ _ _ _) fun _ => .here fun _ => unified _ _ _ _
  | left =>
    rw [expr]
    exact .here fun _ => (steps_expr _ _ _).bind fun _ => stepwise_binary trivial _ _ _ _ _ _
  | right =>
    rw [expr]
    exact .bind (steps_expr _ _ _) fun _ => .here fun _ => stepwise_binary trivial _ _ _ _ _ _
  | operand =>
    rw [expr]
    exact .here fun _ => stepwise_unary trivial _ _ _ _
  | annotated =>
    rw [expr]
    exact .here fun _ => (stepwise_writtenType env level _).bind fun _ => unified _ _ _ _

end Infer

/-! ## Visits -/

namespace Visit

open Infer

variable {v w : Visit} {t : Ty} {q : Progress}

theorem Part.finishes (h : v.Part w) (run : v.run = .ok t q) :
    Steps (fun _ => True) v.start w.start ∧
      ∃ u r, w.run = .ok u r ∧ Steps (fun _ => True) r q := by
  obtain ⟨prep, stage, prepared⟩ := h
  obtain ⟨scope, r, u, r', again, steps, entered, later⟩ := stage.enters _ _ _ run
  obtain ⟨rfl, rfl⟩ := EStateM.Result.ok.inj (again.symm.trans prepared)
  exact ⟨steps, u, r', entered, later⟩

theorem Visits.finishes (h : v.Visits w) (run : v.run = .ok t q) :
    Steps (fun _ => True) v.start w.start ∧
      ∃ u r, w.run = .ok u r ∧ Steps (fun _ => True) r q := by
  induction h with
  | refl => exact ⟨.refl, t, q, run, .refl⟩
  | tail _ part ih =>
    obtain ⟨before, u, r, run, later⟩ := ih
    obtain ⟨before', u', r', run', later'⟩ := part.finishes run
    exact ⟨before.trans before', u', r', run', later'.trans later⟩

theorem exists_visits {e : Expr} (inside : v.expr.Contains e) (run : v.run = .ok t q) :
    ∃ w, v.Visits w ∧ w.expr = e := by
  induction inside with
  | refl => exact ⟨v, .refl, rfl⟩
  | tail _ part ih =>
    obtain ⟨w, visits, rfl⟩ := ih
    obtain ⟨-, u, r, run, -⟩ := visits.finishes run
    obtain ⟨prep, stage⟩ := exists_stage w.env w.level part
    obtain ⟨scope, start, -, -, prepared, -⟩ := stage.enters _ _ _ run
    exact ⟨⟨scope.1, scope.2, _, start⟩, visits.tail ⟨prep, stage, prepared⟩, rfl⟩

end Visit

end Polytype
