import Polytype.Proofs.Env.Parameters
import Polytype.Proofs.Inference.Inside
import Polytype.Proofs.Module.Run
import Polytype.Proofs.Module.World

namespace Polytype

open Ty Infer

theorem Subst.Keeps.applyShapes {s : Subst} {C : Nat → Prop} (keeps : s.Keeps C (Within C))
    (resolved : s.Resolved) {t : Ty} (ht : Within C t) : Within C (s.applyShapes t) := by
  have hC : Hereditary C anyLevel (Within C) := hereditary_within C
  have applied {t : Ty} (ht : Within C t) : Within C (s.apply t) :=
    keeps.apply hC (levelsAbove_zero s) ht
  suffices ∀ count (records : Assoc Nat (List (String × Ty))) (t : Ty), records.length = count →
      (∀ id fields, records.get? id = some fields → s.records.get? id = some fields) →
      Within C t → s.Settled t → Within C (s.expandShapes records t) from
    this _ s.records _ rfl (fun _ _ h => h) (applied ht) (resolved.settled_apply t)
  intro count
  induction count using Nat.strongRecOn with
  | ind count ih =>
    intro records t hcount hrecords ht settled
    rw [expandShapes]
    refine hC.mapVars ht fun v hv => ?_
    split
    · exact hC.vars ht hv
    · rename_i fields hf
      have kept := keeps.records (within_iff.1 ht v hv) (within_iff.1 settled v hv) (hrecords _ _ hf)
      refine .record trivial fun field hfield => ?_
      obtain ⟨given, hgiven, rfl⟩ := List.mem_map.1 hfield
      refine ih _ (hcount ▸ Assoc.length_erase_lt hf) _ _ rfl (fun id other h => ?_)
        (applied (hC.field kept _ hgiven)) (resolved.settled_apply _)
      rw [Assoc.get?_erase] at h
      split at h
      · simp at h
      · exact hrecords id other h

namespace Env

/-- No type at hand mentions a parameter of a definition, or a variable that is not drawn yet. -/
structure Apart (env : Env) (p : Progress) : Prop where
  tidy : env.Tidy
  params : ∀ entry ∈ env.types, ∀ q ∈ entry.2.params, q.id < p.next ∧ q.level = 0
  blank : Within env.Clear Coverage.unknown
  free : ∀ id, env.Free id → id < p.next ∧ env.Outside id
  quantified : ∀ entry ∈ env.values, ∀ v ∈ entry.2.scheme.vars, v.id < p.next
  constructors : ∀ entry ∈ env.values, ∀ c, entry.2 = .constructor c →
    ∀ t ∈ c.result :: c.args, ∀ v ∈ t.vars, ∃ q ∈ c.params, q.id = v.id
  resolved : p.subst.Resolved
  omits : ∀ id, p.next ≤ id ∨ ¬env.Outside id → p.subst.Omits id

/-- Names are unfolded by putting the arguments in the place of the parameters all at once, in all
types that come up where no parameter is at hand. -/
structure Uniform (env : Env) (s : Subst) : Prop where
  expand : ∀ {t}, Within env.Clear t → env.expand t = env.fill t
  /-- The lookups that replace the parameters come to an end after one step. -/
  lookups : ∀ {t d target}, Within env.Clear t → env.definitionOf? t = some d →
    d.body.target? = some target → ∀ steps ≠ 0,
      target.mapVars ((Subst.ofPairs (d.params.zip t.args)).resolve steps) = d.fill t.args target
  unfolded : ∀ {t u}, Within env.Clear t → env.expand t = some u → Within env.Clear u
  unify : ∀ {expected actual}, Within env.Clear expected → Within env.Clear actual →
    unify env.expand expected actual s = unify env.fill expected actual s
  shapes : ∀ {t}, Within env.Outside t → Within env.Clear (s.applyShapes t)
  columns : ∀ {t rows heads}, Within env.Clear t →
    Coverage.plan env (env.unfold t) rows = .split heads →
      ∀ entry ∈ heads, ∀ u ∈ entry.2, Within env.Clear u

theorem mem_of_not_outside {env : Env} {id : Nat} (h : ¬env.Outside id) :
    ∃ entry ∈ env.types, ∃ q ∈ entry.2.params, q.id = id := by
  simpa [Outside] using h

namespace Apart

variable {env : Env} {p : Progress} (h : env.Apart p)

include h in
theorem outside_of_next {id : Nat} (hid : p.next ≤ id) : env.Outside id :=
  fun entry hentry q hq heq => absurd (heq ▸ (h.params entry hentry q hq).1) (Nat.not_lt.2 hid)

include h in
theorem keeps {C : Nat → Prop} (hC : ∀ id, env.Outside id → C id) :
    p.subst.Keeps C (Within C) := by
  have away {t : Ty} (ht : ∀ id, ¬env.Outside id → t.mentions id = false) : Within C t :=
    within_iff.2 fun v hv => hC _ (Classical.byContradiction fun hout => by
      have := ht v.id hout
      simp [mentions_iff.2 ⟨v, hv, rfl⟩] at this)
  exact ⟨fun _ ht => away fun id hid => (h.omits id (.inr hid)).types ht,
    fun _ _ hf => away fun id hid => (h.omits id (.inr hid)).fields hf⟩

include h in
theorem uniform : env.Uniform p.subst where
  expand ht := expand_eq_fill h.tidy ht
  lookups ht hd htarget _ hsteps := fill_eq_resolve h.tidy ht hd htarget hsteps
  unfolded ht heq := within_of_expand h.tidy ht heq
  unify hexpected hactual :=
    unify_congr (fun _ ht => expand_eq_fill h.tidy ht)
      (fun _ _ ht heq => within_of_expand h.tidy ht heq) h.resolved
      (h.keeps fun _ hid => hid.clear) hexpected hactual
  shapes ht := within_clear ((h.keeps fun _ hid => hid).applyShapes h.resolved ht)
  columns ht hplan := within_plan h.tidy h.blank ht hplan

/-! ## Inference -/

def marks (env : Env) (p : Progress) : Marks where
  plain := False
  start := p.next
  past := p.history
  birth _ := 0
  live id := id < p.next ∧ env.Outside id
  retired id := id < p.next ∧ ¬env.Outside id

theorem marks_good {t : Ty} (ht : Within (marks env p).live t) : (marks env p).Good p.subst t := by
  refine ⟨allVars_iff.2 fun v hv => ?_, fun plain => plain.elim⟩
  have hlive := within_iff.1 ht v hv
  exact ⟨hlive, fun hstart => absurd hlive.1 (Nat.not_lt.2 hstart)⟩

def world (h : env.Apart p) : World where
  toMarks := marks env p
  progress := p
  recent := []
  history := p.history_start
  resolved := h.resolved
  keeps := by
    have away {t : Ty} (ht : ∀ id, p.next ≤ id ∨ ¬env.Outside id → t.mentions id = false) :
        Within (marks env p).live t :=
      within_iff.2 fun v hv => Classical.byContradiction fun hlive => by
        have hid : p.next ≤ v.id ∨ ¬env.Outside v.id := by
          rw [← Nat.not_lt, ← not_and_or]
          exact hlive
        simpa [mentions_iff.2 ⟨v, hv, rfl⟩] using ht v.id hid
    exact ⟨fun _ ht => marks_good (away fun id hid => (h.omits id hid).types ht),
      fun _ _ hf => marks_good (away fun id hid => (h.omits id hid).fields hf)⟩
  unrecorded plain := plain.elim
  fresh id hid := h.omits id (.inl hid)
  unseen := p.unseen_start
  capped id l hid hl := by simp [(h.omits id (.inl hid)).unlowered] at hl
  start_le := Nat.le_refl _
  live_lt _ hid := hid.1
  retired_lt _ hid := hid.1
  apart _ hid hlive := hid.2 hlive.2
  unbound id hid := (h.omits id (.inr hid.2)).unbound
  guarded := by simp
  sound := by simp
  respected := .nil

theorem envGood (h : env.Apart p) : h.world.EnvGood env where
  values entry hentry := by
    have scheme (hfree : ∀ id, entry.2.scheme.Free id → env.Free id) :
        h.world.SchemeGood entry.2.scheme := by
      refine ⟨fun v hv hunbound => ?_, h.quantified entry hentry, fun plain => plain.elim⟩
      have hlive := h.free v.id (hfree v.id ⟨mentions_iff.2 ⟨v, hv, rfl⟩, hunbound⟩)
      exact ⟨hlive, fun hstart => absurd hlive.1 (Nat.not_lt.2 hstart)⟩
    obtain ⟨name, b⟩ := entry
    cases b with
    | value σ => exact ⟨scheme fun id hid => ⟨_, hentry, hid⟩, fun plain => plain.elim⟩
    | foreign σ given => exact ⟨scheme fun id hid => ⟨_, hentry, hid⟩, fun plain => plain.elim⟩
    | constructor c =>
      exact ⟨h.constructors _ hentry c rfl, h.quantified _ hentry, fun plain => plain.elim⟩
  types entry hentry target htarget := by
    have closed := h.tidy.closed entry hentry target (Body.mem_types_of_target? htarget)
    refine ⟨fun v hv => ⟨v, closed v hv, rfl⟩, fun q hq => (h.params entry hentry q hq).1,
      fun q hq hlive => hlive.2 entry hentry q hq rfl, allVars_iff.2 fun v hv => ?_, id⟩
    exact (h.params entry hentry v (closed v hv)).2
  params plain := plain.elim

theorem inside (h : env.Apart p) {w : World} (later : World.Later h.world w) {scope : Env}
    (entered : w.Inside env scope) : scope.Apart w.progress := by
  obtain ⟨good, types⟩ := entered
  have outside : scope.Outside = env.Outside := by
    unfold Outside
    rw [types]
  have clear : scope.Clear = env.Clear := by
    unfold Clear Target
    rw [types]
  refine
    { tidy := ⟨types ▸ h.tidy.distinct, types ▸ h.tidy.closed⟩
      params := fun entry hentry q hq => ?_
      blank := clear ▸ h.blank
      free := fun id hid => ⟨w.live_lt id (good.live hid), ?_⟩
      quantified := fun entry hentry => (good.values entry hentry).scheme.bound
      constructors := fun entry hentry c heq => ?_
      resolved := w.resolved
      omits := fun id hid => ?_ }
  · obtain ⟨drawn, level⟩ := h.params entry (types ▸ hentry) q hq
    exact ⟨Nat.lt_of_lt_of_le drawn later.next, level⟩
  · rw [outside]
    -- What is live was so at the start, and then no parameter, or has been drawn since.
    rcases later.live_new _ (good.live hid) with hlive | hnew
    · exact hlive.2
    · exact h.outside_of_next hnew
  · have closed := good.values entry hentry
    rw [heq] at closed
    exact closed.closed
  · rw [outside] at hid
    rcases hid with hid | hid
    · exact w.fresh id hid
    · obtain ⟨entry, hentry, q, hq, rfl⟩ := mem_of_not_outside hid
      exact later.omits _ (h.params entry hentry q hq).1 (fun hlive => hid hlive.2)
        (h.omits _ (.inr hid))

theorem of_later (h : env.Apart p) {w : World} (later : World.Later h.world w) :
    env.Apart w.progress :=
  h.inside later ⟨later.envGood h.envGood, rfl⟩

theorem visits {v u : Visit} (h : v.env.Apart v.start) (visited : v.Visits u) :
    u.env.Apart u.start := by
  induction visited with
  | refl => exact h
  | @tail u u' _ part ih =>
    obtain ⟨prep, stage, run⟩ := part
    have yields := World.yields_stage (w := ih.world) not_false ih.envGood stage
    unfold World.Yields at yields
    rw [show ih.world.progress = u.start from rfl, run] at yields
    obtain ⟨w, hw, later, entered⟩ := yields
    exact hw ▸ ih.inside later entered

theorem expr (h : env.Apart p) (level : Nat) (e : Expr) :
    (∀ t p', Infer.expr env level e p = .ok t p' → Within env.Outside t ∧ env.Apart p') ∧
      ∀ error p', Infer.expr env level e p = .error error p' → env.Apart p' := by
  have yields := World.exprSound_everywhere e h.world env level h.envGood (fun plain => plain.elim)
    fun plain => plain.elim
  unfold World.Yields at yields
  rw [show h.world.progress = p from rfl] at yields
  refine ⟨fun t p' hrun => ?_, fun error p' hrun => ?_⟩ <;> rw [hrun] at yields
  · obtain ⟨w, rfl, later, typed⟩ := yields
    refine ⟨within_iff.2 fun v hv => ?_, h.of_later later⟩
    rcases later.live_new _ (within_iff.1 typed.1.within v hv) with hlive | hnew
    · exact hlive.2
    · exact h.outside_of_next hnew
  · obtain ⟨w, rfl, later⟩ := yields
    exact h.of_later later

end Apart

end Env

/-! ## Checks -/

theorem World.ScopeGood.apart {w : World} {env : Env} (h : w.ScopeGood env)
    (hstart : 0 < w.start) : env.Apart w.progress where
  tidy := ⟨fun entry hentry => (h.definitions entry hentry).distinct,
    fun entry hentry => (h.definitions entry hentry).closed⟩
  params entry hentry q hq :=
    have param := (h.definitions entry hentry).params q hq
    ⟨w.retired_lt _ param.retired, param.level⟩
  blank := by
    refine .var ?_
    rintro _ target ⟨entry, hentry, rfl, htarget⟩ q hq hid
    have drawn := (h.definitions entry hentry).since target htarget q hq
    rw [hid] at drawn
    exact absurd hstart (Nat.not_lt.2 drawn)
  free id hid := by
    have hlive := h.live hid
    refine ⟨w.live_lt id hlive, fun entry hentry q hq heq => ?_⟩
    exact w.apart id (heq ▸ ((h.definitions entry hentry).params q hq).retired) hlive
  quantified entry hentry v hv := (h.values entry hentry).scheme.bound v hv
  constructors entry hentry c heq := by
    have good := h.values entry hentry
    rw [heq] at good
    exact good.closed
  resolved := w.resolved
  omits id hid := by
    rcases hid with hid | hid
    · exact w.fresh id hid
    · obtain ⟨entry, hentry, q, hq, rfl⟩ := Env.mem_of_not_outside hid
      exact ((h.definitions entry hentry).params q hq).omitted

namespace Checker

theorem run_append_cases (options : CheckOptions) (moduleName : String) (c : Checker)
    (ds es : List Declaration) :
    run options moduleName c (ds ++ es) = run options moduleName (run options moduleName c ds) es ∨
      run options moduleName c (ds ++ es) = run options moduleName c ds := by
  induction ds generalizing c with
  | nil => exact .inl rfl
  | cons d ds ih =>
    rw [List.cons_append]
    cases outcome : declaration c.scope d c.progress with
    | ok scope progress =>
      rw [run_ok outcome, run_ok outcome]
      exact ih _
    | error e p =>
      rw [run_error outcome, run_error outcome]
      split
      · exact .inr rfl
      · exact ih _

end Checker

/-- Whatever has been checked of a module, its definitions mention their own parameters only. No
parameter occurs in the substitution or free in a value, then and at any other time of the
check. So inference never meets one, and unfolds names by putting all arguments in at once. -/
theorem parameters_apart (options : CheckOptions) (moduleName : String)
    (ds rest : List Declaration) :
    let c := Checker.run options moduleName .start ds
    let final := Checker.run options moduleName .start (ds ++ rest)
    (∀ entry ∈ c.scope.env.types,
      (∀ t ∈ entry.2.body.types, ∀ v ∈ t.vars, v ∈ entry.2.params) ∧
      ∀ q ∈ entry.2.params,
        (c.progress.subst.Omits q.id ∧ ¬c.scope.env.Free q.id) ∧
        (final.progress.subst.Omits q.id ∧ ¬final.scope.env.Free q.id) ∧
        ∀ m ∈ final.progress.history, m.Omits q.id) ∧
    c.scope.env.Apart c.progress ∧
    ∀ (env : Env) (p : Progress), env.Apart p → env.Uniform p.subst ∧ ∀ level e,
      (∀ t p', Infer.expr env level e p = .ok t p' → Within env.Outside t ∧ env.Apart p') ∧
      (∀ error p', Infer.expr env level e p = .error error p' → env.Apart p') ∧
      ∀ v, Visit.Visits ⟨env, level, e, p⟩ v → v.env.Apart v.start := by
  intro c final
  obtain ⟨w, started, reached⟩ :=
    (Checker.at_start False).run options moduleName (fun plain => plain.elim)
  -- The rest of the declarations is checked in a later world, or not at all after an error.
  obtain ⟨w', later, ended⟩ : ∃ w', World.Later w w' ∧ Checker.At w' final := by
    rcases Checker.run_append_cases options moduleName .start ds rest with heq | heq
    · obtain ⟨w', later, ended⟩ :=
        reached.run options moduleName (fun plain => (started.plain ▸ plain).elim)
      rw [← heq] at ended
      exact ⟨w', later, ended⟩
    · have ended := reached
      rw [← heq] at ended
      exact ⟨w, .refl w, ended⟩
  have history : final.progress.history = w'.recent := by
    rw [← ended.progress, w'.history, (started.trans later).past]
    exact List.append_nil _
  refine ⟨fun entry hentry => ?_, ?_, fun env p h => ⟨h.uniform, fun level e => ?_⟩⟩
  · have defined := reached.scope.definitions entry hentry
    refine ⟨defined.closed, fun q hq => ?_⟩
    have param := defined.params q hq
    have param' := later.param param
    refine ⟨⟨reached.progress ▸ param.omitted, fun hfree => ?_⟩,
      ⟨ended.progress ▸ param'.omitted, fun hfree => ?_⟩, history ▸ param'.unseen⟩
    · exact w.apart _ param.retired (reached.scope.live hfree)
    · exact w'.apart _ param'.retired (ended.scope.live hfree)
  · have start : w.start = Prelude.size := started.start
    exact reached.progress ▸ reached.scope.apart (start ▸ by decide)
  · obtain ⟨succeeds, fails⟩ := h.expr level e
    exact ⟨succeeds, fails, fun v visited => Env.Apart.visits h visited⟩

end Polytype
