import Mathlib
import Polytype.Proofs.Inference.Supply
import Polytype.Proofs.Subst.Instance

namespace Polytype

open Ty Infer

/-! ## Copies of a scheme -/

namespace Scheme

variable {σ : Scheme}

/-- The type of the scheme with other ids for the quantified variables, all at one level. -/
def copy (σ : Scheme) (ids : Nat → Nat) (level : Nat) : Ty :=
  σ.ty.mapVars fun v => .var (if σ.binds v.id then ⟨ids v.id, level⟩ else v)

def idFrom (σ : Scheme) (next id : Nat) : Nat := next + (σ.vars.map (·.id)).idxOf id

theorem mem_ids {id : Nat} : σ.binds id = true ↔ id ∈ σ.vars.map (·.id) :=
  binds_iff.trans List.mem_map.symm

theorem idFrom_lt {next id : Nat} (h : σ.binds id = true) :
    σ.idFrom next id < next + σ.vars.length := by
  have := List.idxOf_lt_length_of_mem (mem_ids.1 h)
  rw [List.length_map] at this
  exact Nat.add_lt_add_left this next

theorem idFrom_injOn (next : Nat) : Set.InjOn (σ.idFrom next) {id | σ.binds id = true} := by
  intro a ha b _ heq
  exact (List.idxOf_inj (mem_ids.1 ha)).1 (Nat.add_left_cancel heq)

end Scheme

def Ty.drawnFrom (next level count : Nat) : List Ty :=
  (List.range' next count).map fun id => .var ⟨id, level⟩

theorem Ty.get?_drawnFrom {ids : List Nat} (distinct : ids.Nodup) (next level id : Nat) :
    (Assoc.ofList (ids.zip (drawnFrom next level ids.length))).get? id =
      if id ∈ ids then some (.var ⟨next + ids.idxOf id, level⟩) else none := by
  have keys : Assoc.keys (ids.zip (drawnFrom next level ids.length)) = ids := by
    simp [Assoc.keys, drawnFrom, List.map_fst_zip]
  have stored := Assoc.get?_insertAll_of_nodup (keys.symm ▸ distinct) [] id
  rw [Assoc.ofList, stored]
  split
  · rename_i mem
    have entry : (id, Ty.var ⟨next + ids.idxOf id, level⟩) ∈
        ids.zip (drawnFrom next level ids.length) :=
      List.mem_iff_getElem.2 ⟨ids.idxOf id,
        by simpa [drawnFrom] using List.idxOf_lt_length_of_mem mem, by simp [drawnFrom]⟩
    rw [Assoc.get?_of_mem (keys.symm ▸ distinct) entry]
    rfl
  · rename_i absent
    rw [Assoc.get?_eq_none.2 (keys.symm ▸ absent)]
    rfl

namespace Infer

theorem run_freshList (level count : Nat) (p : Progress) :
    freshList level count p =
      .ok (drawnFrom p.next level count) { p with next := p.next + count } := by
  induction count generalizing p with
  | zero => rfl
  | succ count ih =>
    have first : fresh level p = .ok (.var ⟨p.next, level⟩) { p with next := p.next + 1 } := rfl
    rw [freshList, run_bind_ok first, run_bind_ok (ih _), Nat.add_assoc, Nat.add_comm 1 count]
    rfl

theorem apply_drawnFrom {σ : Scheme} {next : Nat} (hσ : σ.Drawn next) (level : Nat) :
    (Subst.ofPairs (σ.vars.zip (drawnFrom next level σ.vars.length))).apply σ.ty =
      σ.copy (σ.idFrom next) level := by
  have apart : ∀ v ∈ σ.vars, ∀ t ∈ drawnFrom next level σ.vars.length, t.mentions v.id = false := by
    intro v hv t ht
    obtain ⟨id, hid, rfl⟩ := List.mem_map.1 ht
    have old := hσ.mentions.1 v hv
    have new := (List.mem_range'_1.1 hid).1
    refine Bool.eq_false_iff.2 fun occurs => ?_
    have same : id = v.id := mentions_var.1 occurs
    omega
  have pairs : (σ.vars.zip (drawnFrom next level σ.vars.length)).map
      (fun pair => (pair.1.id, pair.2)) =
        (σ.vars.map (·.id)).zip (drawnFrom next level (σ.vars.map (·.id)).length) := by
    rw [List.length_map, List.zip_map_left]
    rfl
  rw [Subst.apply_ofPairs apart, Subst.ofPairs_types apart, pairs]
  refine mapVars_congr fun v _ => ?_
  rw [get?_drawnFrom hσ.distinct]
  by_cases bound : σ.binds v.id = true
  · rw [if_pos bound, if_pos (Scheme.mem_ids.1 bound)]
    rfl
  · rw [if_neg bound, if_neg (bound ∘ Scheme.mem_ids.2)]
    rfl

theorem run_instantiate {σ : Scheme} {p : Progress} (hσ : σ.Drawn p.next) (level : Nat) :
    instantiate σ level p = .ok (σ.copy (σ.idFrom p.next) level)
      { p with
        next := p.next + σ.vars.length
        events := p.events.push (.instantiated σ (σ.copy (σ.idFrom p.next) level)) } := by
  rw [instantiate, run_bind_ok (run_freshList level _ p), apply_drawnFrom hσ]
  rfl

/-! ## Stages -/

section Stages

variable {logged n : Nat} {env : Env} {level : Nat}

theorem draws_scope (henv : env.Drawn n) :
    Draws logged n (pure (env, level)) fun n' scope => scope.1.Drawn n' :=
  .pure fun _ le => henv.mono le

theorem draws_beforeArgument (henv : env.Drawn n) (function : Expr) (args before : List Expr)
    (span : Span) :
    Draws logged n (beforeArgument env level function args before span) fun n' scope =>
      scope.1.Drawn n' := by
  refine (draws_expr function henv).bind fun t n₁ le₁ ht => (draws_resolved ht).bind
    fun applied n₂ le₂ happlied => ?_
  have hcallee := (henv.mono (Nat.le_trans le₁ le₂)).mentions.callee happlied
  split
  · rename_i params result heq
    rw [heq] at hcallee
    split
    · exact draws_fail
    · refine (draws_arguments (henv.mono (by omega)) (fun e _ => draws_expr e)
        (everywhere_func.1 hcallee).2.1).bind fun _ n₃ le₃ _ => ?_
      exact draws_scope (henv.mono (by omega))
  · refine (draws_exprs (henv.mono (by omega)) fun e _ => draws_expr e).bind fun _ n₃ le₃ _ => ?_
    exact draws_scope (henv.mono (by omega))
  · exact (draws_freshList level _).bind fun _ _ _ _ => (draws_fresh level).bind
      fun _ _ _ _ => draws_fail

theorem draws_updatable (henv : env.Drawn n) (base : Expr) (inits : List FieldInit) {applied : Ty}
    (happlied : applied.Below n) :
    Draws logged n (updatable env level base inits applied) fun n' fields =>
      ∀ field ∈ fields, field.2.Below n' := by
  unfold updatable
  split
  · exact draws_updatedFields (everywhere_var.1 happlied) inits (by simp)
  · exact draws_fieldsAt henv _ happlied

theorem draws_untilArm (henv : env.Drawn n) (scrutinee : Expr) (before : List Arm) (p : Pattern)
    {α : Type} {f : List (String × Ty) → Infer α} {P : Nat → α → Prop}
    (hf : ∀ bound n', n ≤ n' → (env.extendMono bound).Drawn n' → Draws logged n' (f bound) P) :
    Draws logged n (do
      let t ← expr env level scrutinee
      let result ← fresh level
      arms env level t result before
      let bound ← checkPattern env level p t
      f bound) P := by
  refine (draws_expr scrutinee henv).bind fun t n₁ le₁ ht => ?_
  refine (draws_fresh level).bind fun result n₂ le₂ hresult => ?_
  refine (draws_arms (henv.mono (by omega)) (ht.mono le₂) hresult fun arm _ =>
    ⟨fun e _ => draws_expr e, draws_expr arm.body⟩).bind fun _ n₃ le₃ _ => ?_
  refine (draws_checkPattern (henv.mono (by omega)) p (ht.mono (by omega))).bind
    fun bound n₄ le₄ hbound => hf bound n₄ (by omega) ?_
  exact (henv.mono (by omega)).extendMono hbound

theorem draws_stage {e part : Expr} {prep : Infer (Env × Nat)} (stage : Stage env level e prep part)
    (henv : env.Drawn n) : Draws logged n prep fun n' scope => scope.1.Drawn n' := by
  cases stage with
  | function | condition | scrutinee | base | object | makeRef | deref | target | left | operand
  | annotated => exact draws_scope henv
  | lambda =>
    rename_i params span
    exact (draws_params env (level + 1) params).bind fun types n₁ le₁ htypes =>
      draws_scope ((henv.mono le₁).extendZip _ htypes)
  | argument => exact draws_beforeArgument henv _ _ _ _
  | letValue =>
    exact (draws_letScope henv _ _ _).bind fun result n₁ le₁ scope => draws_scope scope.2
  | letBody =>
    exact (draws_letBinding henv _ _ (draws_expr _) _).bind fun σ n₁ le₁ hσ =>
      draws_scope ((henv.mono le₁).extendValue _ hσ)
  | groupValue =>
    rename_i before binding later body span
    refine (draws_groupTypes _).bind fun types n₁ le₁ htypes => ?_
    have hscope := (henv.mono le₁).extendZip
      ((before ++ binding :: later).map (·.name.name)) htypes
    exact (draws_members hscope (fun b _ => draws_expr b.value) htypes).bind fun _ n₂ le₂ _ =>
      draws_scope (hscope.mono le₂)
  | groupBody =>
    exact (draws_group henv fun b _ => draws_expr b.value).bind fun schemes n₁ le₁ hschemes =>
      draws_scope ((henv.mono le₁).extendAll hschemes)
  | thenBranch =>
    refine (draws_expr _ henv).bind fun t n₁ le₁ ht => ?_
    exact (draws_unifyAt (henv.mono le₁) _ (below_const _) ht).bind fun _ n₂ le₂ _ =>
      draws_scope (henv.mono (by omega))
  | elseBranch =>
    refine (draws_expr _ henv).bind fun t n₁ le₁ ht => ?_
    refine (draws_unifyAt (henv.mono le₁) _ (below_const _) ht).bind fun _ n₂ le₂ _ => ?_
    exact (draws_expr _ (henv.mono (by omega))).bind fun _ n₃ le₃ _ =>
      draws_scope (henv.mono (by omega))
  | block | tuple =>
    exact (draws_exprs henv fun e _ => draws_expr e).bind fun _ n₁ le₁ _ =>
      draws_scope (henv.mono le₁)
  | list =>
    refine (draws_fresh level).bind fun element n₁ le₁ helement => ?_
    exact (draws_elements (henv.mono le₁) helement fun e _ => draws_expr e).bind fun _ n₂ le₂ _ =>
      draws_scope (henv.mono (by omega))
  | guard => exact draws_untilArm henv _ _ _ fun _ _ _ hscope => draws_scope hscope
  | arm =>
    exact draws_untilArm henv _ _ _ fun _ _ _ hscope =>
      (draws_guardOf hscope fun e _ => draws_expr e).bind fun _ _ le _ =>
        draws_scope (hscope.mono le)
  | record =>
    refine (draws_entries henv (fun entry _ => ?_) (by simp)).bind fun _ n₁ le₁ _ =>
      draws_scope (henv.mono le₁)
    cases entry with
    | field init => exact draws_expr init.value
    | spread base => exact draws_expr base
  | update =>
    refine (draws_expr _ henv).bind fun t n₁ le₁ ht => (draws_resolved ht).bind
      fun applied n₂ le₂ happlied => ?_
    refine (draws_updatable (henv.mono (by omega)) _ _ happlied).bind
      fun declared n₃ le₃ hdeclared => ?_
    refine (draws_updates (henv.mono (by omega)) applied hdeclared fun init _ =>
      draws_expr init.value).bind fun _ n₄ le₄ _ => ?_
    split
    · exact draws_fail
    · exact draws_scope (henv.mono (by omega))
  | assigned =>
    refine (draws_expr _ henv).bind fun t n₁ le₁ ht => (draws_fresh level).bind
      fun content n₂ le₂ hcontent => ?_
    exact (draws_unifyAt (henv.mono (by omega)) _
      (.app trivial (below_const _) (by simpa using hcontent)) (ht.mono le₂)).bind
      fun _ n₃ le₃ _ => draws_scope (henv.mono (by omega))
  | right =>
    exact (draws_expr _ henv).bind fun _ n₁ le₁ _ => draws_scope (henv.mono le₁)

end Stages

end Infer

/-! ## Visits -/

theorem Progress.Steps.next_le {scopes : Env → Prop} {p q : Progress} (h : Steps scopes p q) :
    p.next ≤ q.next := by
  induction h with
  | refl => exact Nat.le_refl _
  | tail _ step ih =>
    cases step with
    | draw up => exact Nat.le_trans ih up
    | log | note | solve => exact ih

namespace Visit

variable {v w : Visit}

structure Drawn (logged : Nat) (v : Visit) : Prop where
  env : v.env.Drawn v.start.next
  start : v.start.Drawn logged

theorem Part.drawn {logged : Nat} (h : v.Part w) (hv : v.Drawn logged) : w.Drawn logged := by
  obtain ⟨prep, stage, prepared⟩ := h
  obtain ⟨-, hstart, henv⟩ :=
    draws_stage stage hv.env _ _ _ (Nat.le_refl _) hv.start prepared
  exact ⟨henv, hstart⟩

theorem Visits.drawn {logged : Nat} (h : v.Visits w) (hv : v.Drawn logged) : w.Drawn logged := by
  induction h with
  | refl => exact hv
  | tail _ part ih => exact part.drawn ih

/-- The variable occurs neither in what the visit starts from nor in a copy of a scheme that was
logged after the first `logged` events. -/
structure Unused (logged : Nat) (v : Visit) (id : Nat) : Prop where
  env : v.env.MentionsOnly (· ≠ id)
  subst : v.start.subst.MentionsOnly (· ≠ id)
  copies : ∀ σ t, Event.instantiated σ t ∈ v.start.events.toList.drop logged → t.Within (· ≠ id)

theorem Drawn.unused {logged : Nat} (hv : v.Drawn logged) {id : Nat} (h : v.start.next ≤ id) :
    v.Unused logged id := by
  have other : ∀ drawn, drawn < v.start.next → drawn ≠ id := by omega
  exact ⟨hv.env.mentions.mono other, hv.start.subst.mono other,
    fun σ t ht => Ty.Within.mono other (hv.start.instances σ t ht)⟩

/-- If inference starts from what mentions drawn variables only, it draws no variable twice: the
counter never goes back, all that a successful run leaves has been drawn, and each reference to a
name gives a copy of its scheme with unused variables for the quantified ones. They are drawn then
and there, so that variables drawn for anything else differ from them as well. -/
theorem instances_independent (v : Visit) (henv : v.env.MentionsOnly (· < v.start.next))
    (hdistinct : v.env.Distinct) (hsubst : v.start.subst.MentionsOnly (· < v.start.next)) :
    v.start.next ≤ (after (Infer.expr v.env v.level v.expr) v.start).next ∧
    (∀ t q, v.run = .ok t q → q.subst.MentionsOnly (· < q.next) ∧ t.Within (· < q.next)) ∧
    ∀ w name binding, v.Visits w → w.expr = .var name → w.env.lookup name.name = some binding →
      ∃ ids q, w.run = .ok (binding.scheme.copy ids w.level) q ∧
        q.events = w.start.events.push
          (.instantiated binding.scheme (binding.scheme.copy ids w.level)) ∧
        Set.InjOn ids {id | binding.scheme.binds id = true} ∧
        ∀ id, binding.scheme.binds id = true →
          w.start.next ≤ ids id ∧ ids id < q.next ∧ w.Unused v.start.events.size (ids id) := by
  have hv : v.Drawn v.start.events.size := by
    -- nothing has been logged yet after the events of the start
    refine ⟨⟨henv, hdistinct⟩, hsubst, fun σ t ht => ?_⟩
    rw [← Array.length_toList, List.drop_length] at ht
    simp at ht
  refine ⟨(steps_expr v.env v.level v.expr v.start).next_le, fun t q run => ?_, ?_⟩
  · obtain ⟨-, hq, ht⟩ := draws_expr v.expr hv.env _ _ _ (Nat.le_refl _) hv.start run
    exact ⟨hq.subst, ht⟩
  · intro w name binding visits isVar found
    have hw := visits.drawn hv
    have reference : w.run = instantiate binding.scheme w.level w.start := by
      rw [run, isVar, Infer.expr, found]
    have copied := run_instantiate (hw.env.lookup found) w.level
    refine ⟨binding.scheme.idFrom w.start.next, _, reference.trans copied, rfl,
      Scheme.idFrom_injOn _, fun id hid => ?_⟩
    have drawn : w.start.next ≤ binding.scheme.idFrom w.start.next id := Nat.le_add_right _ _
    exact ⟨drawn, Scheme.idFrom_lt hid, hw.unused drawn⟩

namespace Independence

def choice : Scheme :=
  -- forall 'a 'b. ('a) -> ('b, 't2)
  ⟨[⟨0, 1⟩, ⟨1, 1⟩], .func [.var ⟨0, 1⟩] (.tuple [.var ⟨1, 1⟩, .var ⟨2, 0⟩])⟩

def scope : Env := { values := [("choose", .value choice)] }

def name : Ident := ⟨"choose", {}⟩

def both : Visit := ⟨scope, 0, .tuple [.var name, .var name] {}, { next := 3 }⟩

def second : Visit := ⟨scope, 0, .var name, after (Infer.expr scope 0 (.var name)) both.start⟩

theorem both_visits_second : both.Visits second := by
  have prepared : (do
      let _ ← exprs scope 0 [.var name]
      return (scope, 0)) both.start = .ok (scope, 0) second.start := by
    rw [exprs, exprs]
    rfl
  have stage : Stage scope 0 (.tuple ([.var name] ++ [.var name]) {}) _ (.var name) := .tuple
  exact .single ⟨_, stage, prepared⟩

end Independence

open Independence in
theorem instances_independent_second :
    both.env.MentionsOnly (· < 3) ∧ both.env.Distinct ∧ both.start.subst.MentionsOnly (· < 3) ∧
    (∃ t q, both.run = .ok t q ∧ t.Within (· < q.next)) ∧
    both.Visits second ∧ ∃ ids q, second.run = .ok (choice.copy ids 0) q ∧
      Set.InjOn ids {id | choice.binds id = true} ∧
      ∀ id, choice.binds id = true → second.Unused 0 (ids id) := by
  have henv : both.env.MentionsOnly (· < 3) := by
    constructor
    · simp [both, scope, Scheme.MentionsOnly, Binding.scheme, choice, within_iff, vars, varsList]
    · simp [both, scope]
  have hdistinct : both.env.Distinct := by
    simp [Env.Distinct, both, scope, Binding.scheme, choice]
  have hsubst : both.start.subst.MentionsOnly (· < 3) := by
    constructor <;> simp [both]
  have found : scope.lookup name.name = some (.value choice) := rfl
  obtain ⟨-, leaves, references⟩ := instances_independent both henv hdistinct hsubst
  obtain ⟨ids, q, run, -, distinct, fresh⟩ :=
    references second name _ both_visits_second rfl found
  have finishes : ((Infer.expr both.env both.level both.expr).run' both.start).any
      (fun _ => true) = true := by cbv
  obtain ⟨t, r, ran, -⟩ := exists_run_of_any finishes
  exact ⟨henv, hdistinct, hsubst, ⟨t, r, ran, (leaves t r ran).2⟩, both_visits_second, ids, q, run,
    distinct, fun id hid => (fresh id hid).2.2⟩

end Visit

end Polytype
