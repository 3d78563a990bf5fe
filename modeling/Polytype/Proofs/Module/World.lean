import Polytype.Module.Check
import Polytype.Proofs.Inference.Declaration

namespace Polytype

open Ty Infer

namespace World

/-! ## Undoing a run -/

section Undo

variable {w w' : World} (later : Later w w')

include later in
/-- What a run that is given up has quantified is out of reach from the substitution before it,
which knows nothing of what the run drew. -/
theorem undo_guarded {m : Milestone} (hm : m ∈ w'.recent) :
    m.Guarded w.plain w.live (fun id => w.retired id ∨ w.next ≤ id ∧ id < w'.next) w'.next
      w.subst := by
  obtain ⟨new, heq, hnew⟩ := later.recent
  rw [heq] at hm
  rcases List.mem_append.1 hm with hm | hm
  · cases m with
    | solved s => trivial
    | generalized env drawn schemes s =>
      intro σ hσ q hq condition
      have guarded := w'.guarded _ (heq ▸ List.mem_append_left _ hm)
      obtain ⟨hdrawn, hretired, C, guard⟩ := guarded σ hσ q hq (later.plain ▸ condition)
      obtain ⟨above, free⟩ := (hnew _ hm).1
      have new : w.next ≤ q.id := Nat.le_trans above hdrawn
      have old : q.id < w'.next := w'.retired_lt _ hretired
      have within {t : Ty} (ht : w.Good t) :
          Within (fun id => w.live id ∨ w.next ≤ id ∧ id ≠ q.id) t :=
        within_iff.2 fun v hv => .inl (within_iff.1 ht.within v hv)
      -- Back in the first world, what is live there and what is still to be drawn guards `q`.
      refine ⟨hdrawn, .inr ⟨new, old⟩, fun id => w.live id ∨ w.next ≤ id ∧ id ≠ q.id, ?_⟩
      exact {
        live := fun id hid => .inl hid
        fresh := fun id hid =>
          .inr ⟨Nat.le_trans later.next hid, Nat.ne_of_gt (Nat.lt_of_lt_of_le old hid)⟩
        keeps := by
          refine ⟨fun {id t} hid ht => ?_, fun {id fields} hid unbound hf => ?_⟩ <;>
            rcases hid with hid | ⟨hid, -⟩
          · exact within (w.keeps.types hid ht)
          · simp [Subst.isBound_eq_false.1 (w.fresh id hid).unbound] at ht
          · exact within (w.keeps.records hid unbound hf)
          · simp [(w.fresh id hid).unrecorded] at hf
        free := fun id hid => (free id hid).imp_right fun hnext =>
          ⟨hnext, fun h => guard.apart (h ▸ guard.free id hid)⟩
        apart := by
          rintro (hlive | ⟨-, hne⟩)
          · exact absurd (w.live_lt _ hlive) (Nat.not_lt.2 new)
          · exact hne rfl }
  · exact (w.guarded m hm).mono (fun _ => .inl) later.next (fun _ => .inl) fun _ _ _ h => h

variable (w w')

def undo : World where
  toMarks := { w.toMarks with retired := fun id => w.retired id ∨ w.next ≤ id ∧ id < w'.next }
  progress := { w'.progress with subst := w.subst }
  recent := w'.recent
  history := by
    rw [← later.past]
    exact w'.history
  resolved := w.resolved
  keeps := w.keeps
  unrecorded := w.unrecorded
  fresh id hid := w.fresh id (Nat.le_trans later.next hid)
  unseen := w'.unseen
  capped := w.capped
  start_le := Nat.le_trans w.start_le later.next
  live_lt id hid := Nat.lt_of_lt_of_le (w.live_lt id hid) later.next
  retired_lt id hid := by
    rcases hid with hid | ⟨-, hid⟩
    · exact Nat.lt_of_lt_of_le (w.retired_lt id hid) later.next
    · exact hid
  apart id hid hlive := by
    rcases hid with hid | ⟨hid, -⟩
    · exact w.apart id hid hlive
    · exact absurd (w.live_lt id hlive) (Nat.not_lt.2 hid)
  unbound id hid := by
    rcases hid with hid | ⟨hid, -⟩
    · exact w.unbound id hid
    · exact (w.fresh id hid).unbound
  guarded _ := undo_guarded later
  sound := later.plain ▸ w'.sound
  respected := later.plain ▸ w'.respected

theorem later_undo : Later w (w.undo w' later) :=
  { Later.refl w with
    next := later.next
    retired := fun _ => .inl
    strict := fun strict => ⟨strict.start, strict.disciplined⟩
    recent := later.recent }

end Undo

/-! ## The start -/

def preludeMarks (plain : Prop) : Marks where
  plain := plain
  start := Prelude.size
  past := []
  birth _ := 0
  live _ := False
  retired id := id < Prelude.size

def prelude (plain : Prop) : World where
  toMarks := preludeMarks plain
  progress := Checker.start.progress
  recent := []
  history := Checker.start.progress.history_start
  resolved _ _ ht := by simp [Checker.start] at ht
  keeps := ⟨fun hid => hid.elim, fun hid => hid.elim⟩
  unrecorded _ _ hid := hid.elim
  fresh id _ := Subst.omits_empty id
  unseen := Checker.start.progress.unseen_start
  capped _ _ _ hl := by simp [Checker.start] at hl
  start_le := Nat.le_refl _
  live_lt _ hid := hid.elim
  retired_lt _ hid := hid
  apart _ _ hlive := hlive
  unbound id _ := by simp [Checker.start, Subst.isBound, Assoc.contains]
  guarded := by simp
  sound := by simp
  respected := .nil

theorem ScopeGood.defineAll {w : World} {env : Env} (henv : w.ScopeGood env)
    {definitions : List Definition} (h : ∀ d ∈ definitions, w.Defined d) :
    w.ScopeGood (definitions.foldl Env.define env) := by
  induction definitions generalizing env with
  | nil => exact henv
  | cons d definitions ih =>
    obtain ⟨first, rest⟩ := List.forall_mem_cons.1 h
    exact ih (henv.define first) rest

theorem defined_prelude (plain : Prop) : ∀ d ∈ Prelude.definitions, (prelude plain).Defined d := by
  have params : ∀ d ∈ Prelude.definitions, ∀ p ∈ d.params, p.id < Prelude.size ∧ p.level = 0 := by
    decide
  have closed : ∀ d ∈ Prelude.definitions, ∀ t ∈ d.body.types, ∀ v ∈ t.vars, v ∈ d.params := by
    decide
  have distinct : ∀ d ∈ Prelude.definitions, (d.params.map (·.id)).Nodup := by decide
  have targets : ∀ d ∈ Prelude.definitions, d.body.target? = none := by
    simp [Prelude.definitions, Body.target?]
  have recordless : ∀ d ∈ Prelude.definitions, ∀ t ∈ d.body.types, Recordless t := by
    simp [Prelude.definitions, Body.types, RecordlessNode]
  refine fun d hd => ⟨fun p hp => ?_, distinct d hd, closed d hd,
    fun target htarget => by simp [targets d hd] at htarget,
    fun _ => ⟨targets d hd, recordless d hd⟩⟩
  obtain ⟨hid, hlevel⟩ := params d hd p hp
  exact ⟨hid, Subst.omits_empty _, by simp [prelude], hlevel, rfl⟩

theorem scopeGood_prelude (plain : Prop) : (prelude plain).ScopeGood Prelude.env := by
  have empty : (prelude plain).ScopeGood .empty :=
    ⟨⟨by simp [Env.empty], by simp [Env.empty], by simp [Env.empty]⟩, by simp [Env.empty]⟩
  have defined := empty.defineAll (defined_prelude plain)
  refine ⟨defined.toEnvGood.extendAll fun entry hentry => ?_, defined.definitions⟩
  obtain ⟨value, hvalue, rfl⟩ := List.mem_map.1 hentry
  have bound : ∀ value ∈ Prelude.values, ∀ v ∈ value.2.vars, v.id < Prelude.size := by decide
  have closed : ∀ value ∈ Prelude.values, ∀ v ∈ value.2.ty.vars, value.2.binds v.id = true := by
    decide
  have recordless : ∀ value ∈ Prelude.values, Recordless value.2.ty := by
    simp [Prelude.values, Scheme.mono, RecordlessNode]
  refine ⟨⟨fun v hv free => ?_, bound value hvalue, fun _ => recordless value hvalue⟩,
    fun _ => bound value hvalue⟩
  simp [closed value hvalue v hv] at free

end World

/-! ## Declarations one after the other -/

namespace Checker

structure At (w : World) (c : Checker) : Prop where
  progress : w.progress = c.progress
  scope : w.ScopeGood c.scope.env

theorem at_start (plain : Prop) : At (World.prelude plain) start :=
  ⟨rfl, World.scopeGood_prelude plain⟩

variable {w : World} {c : Checker} {d : Declaration}

theorem At.declared (h : At w c) (hplain : w.plain → d.Plain) {scope : Scope} {p : Progress}
    (hrun : declaration c.scope d c.progress = .ok scope p) :
    ∃ w', World.Later w w' ∧ At w' { c with progress := p, scope := scope } ∧
      w'.Adds c.scope scope := by
  have yields := World.yields_declaration h.scope hplain
  rw [World.Yields, h.progress, hrun] at yields
  obtain ⟨w', rfl, later, hscope, adds⟩ := yields
  exact ⟨w', later, ⟨rfl, hscope⟩, adds⟩

theorem At.recover (h : At w c) (hplain : w.plain → d.Plain) {e : TypeError} {p : Progress}
    (hrun : declaration c.scope d c.progress = .error e p) (moduleName : String) :
    ∃ w', World.Later w w' ∧ At w' (c.recover moduleName d e p) := by
  have yields := World.yields_declaration h.scope hplain
  rw [World.Yields, h.progress, hrun] at yields
  obtain ⟨w', rfl, later⟩ := yields
  let undone := (w.undo w' later).touch (d.boundValues ++ w'.progress.failed)
    (w'.progress.events.push (.declarationFailed d.boundValues moduleName e.message))
  have later' : World.Later w undone := (World.later_undo w w' later).trans (World.later_touch _ _ _)
  refine ⟨undone, later', ?_, (later'.scopeGood h.scope).without d.boundValues⟩
  simp [undone, World.touch, World.undo, Checker.recover, ← h.progress]

theorem At.run (h : At w c) (options : CheckOptions) (moduleName : String)
    {ds : List Declaration} (hplain : w.plain → ∀ d ∈ ds, d.Plain) :
    ∃ w', World.Later w w' ∧ At w' (run options moduleName c ds) := by
  induction ds generalizing w c with
  | nil => exact ⟨w, .refl w, h⟩
  | cons d ds ih =>
    have first (hp : w.plain) : d.Plain := (List.forall_mem_cons.1 (hplain hp)).1
    have rest {w' : World} (later : World.Later w w') (hp : w'.plain) : ∀ d ∈ ds, d.Plain :=
      (List.forall_mem_cons.1 (hplain (later.plain ▸ hp))).2
    unfold Checker.run
    split
    · rename_i scope p hrun
      obtain ⟨w₁, later₁, h₁, -⟩ := h.declared first hrun
      obtain ⟨w₂, later₂, h₂⟩ := ih h₁ (rest later₁)
      exact ⟨w₂, later₁.trans later₂, h₂⟩
    · rename_i e p hrun
      obtain ⟨w₁, later₁, h₁⟩ := h.recover first hrun moduleName
      dsimp only
      split
      · exact ⟨w₁, later₁, h₁⟩
      · obtain ⟨w₂, later₂, h₂⟩ := ih h₁ (rest later₁)
        exact ⟨w₂, later₁.trans later₂, h₂⟩

end Checker

end Polytype
