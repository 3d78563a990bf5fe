import Polytype.Proofs.Module.Run
import Polytype.Proofs.Module.World

namespace Polytype

open Ty Infer

namespace World

variable {w w' : World} {id : Nat}

def Outermost (w : World) (id : Nat) : Prop :=
  ∀ other, (w.subst.image id).mentions other = true → w.levelOf other = 0

theorem Outermost.levelOf (h : w.Outermost id) (unbound : w.subst.isBound id = false) :
    w.levelOf id = 0 := by
  refine h id ?_
  rw [Subst.image_unbound unbound]
  exact mentions_var.2 rfl

/-! ## What leads out of the outermost level -/

theorem Strict.level_eq (strict : w.Strict) (hlive : w.live id) :
    w.subst.level w.birth id = w.levelOf id := by
  cases hl : w.subst.levels.get? id with
  | none => simp [Marks.level, hl, Subst.level_of_none hl]
  | some l =>
    rw [Subst.level_of_some hl, World.levelOf, Marks.level_eq hl]
    exact Nat.min_eq_left (w.capped id l (strict.start id hlive) hl)

theorem Strict.outermost (strict : w.Strict) (hlive : w.live id) (h : w.levelOf id = 0) :
    w.Outermost id := by
  intro other hmem
  have hle := strict.disciplined.types hmem
  rw [strict.level_eq (mentions_image hlive hmem).1, strict.level_eq hlive, h] at hle
  exact Nat.le_zero.1 hle

/-- The fields recorded for an unbound variable may mention bound ones, whose own level does not
count. -/
theorem Strict.outermost_field (strict : w.Strict) (hlive : w.live id)
    (outermost : w.Outermost id) (unbound : w.subst.isBound id = false)
    {fields : List (String × Ty)} (hf : w.subst.records.get? id = some fields) {v : TypeVar}
    (hv : v ∈ (Ty.record fields).vars) : w.Outermost v.id := by
  intro other hmem
  have good := w.keeps.records hlive unbound hf
  have hother := (mentions_image (within_iff.1 good.within v hv) hmem).1
  have link : w.subst.Link id other := by
    rw [vars, varsFields_eq, List.mem_flatMap] at hv
    obtain ⟨field, hfield, hv⟩ := hv
    exact w.resolved.link_iff.2 ⟨fields, hf, field, hfield, mentions_subst.2 ⟨v, hv, hmem⟩⟩
  have hle := strict.disciplined.records unbound link
  rw [strict.level_eq hother, strict.level_eq hlive, outermost.levelOf unbound] at hle
  exact Nat.le_zero.1 hle

theorem Later.outermost (later : Later w w') (strict : w'.Strict) (hlive : w.live id)
    (h : w.Outermost id) : w'.Outermost id := by
  intro other hmem
  obtain ⟨mid, hmid, hmem⟩ := later.mentions_image.1 hmem
  have live := (World.mentions_image hlive hmid).1
  have live' := later.live mid live
  have low : w'.levelOf mid ≤ w.levelOf mid :=
    later.levels mid (w.live_lt mid live) (later.start ▸ strict.start mid live')
  rw [h mid hmid] at low
  exact strict.outermost live' (Nat.le_zero.1 low) other hmem

theorem Below.outermost {env : Env} {σ : Scheme} (below : w'.Below env 0 σ) (later : Later w w')
    (strict : w'.Strict) (henv : w.EnvGood env) (outermost : ∀ id, w.live id → w.Outermost id)
    (good : w'.SchemeGood σ) {v : TypeVar} (hv : v ∈ σ.ty.vars) (hfree : σ.binds v.id = false) :
    w'.Outermost v.id := by
  have hlive := (good.free v hv hfree).1
  refine strict.outermost hlive ?_
  rcases below v hv hfree (strict.start _ hlive) with low | ⟨u, hu, hid⟩
  · exact Nat.le_zero.1 low
  · obtain ⟨x, hx, hmem⟩ := Env.exists_free_of_mem_freeVars w'.resolved hu
    have hx := henv.live hx
    exact later.outermost strict hx (outermost x hx) v.id (hid ▸ hmem)

/-! ## Leaving the other variables alone -/

def outerMarks (w : World) : Marks :=
  { w.toMarks with live := fun id => w.live id ∧ w.Outermost id }

theorem outerMarks_good {t : Ty} (good : w.Good t)
    (outermost : ∀ v ∈ t.vars, w.Outermost v.id) : w.outerMarks.Good w.subst t := by
  refine ⟨allVars_iff.2 fun v hv => ?_, good.2⟩
  have known := allVars_iff.1 good.1 v hv
  exact ⟨⟨known.1, outermost v hv⟩, known.2⟩

/-- The world in which only what stands for types at the outermost level is live. -/
def outer (w : World) (strict : w.Strict) : World where
  toMarks := w.outerMarks
  progress := w.progress
  recent := w.recent
  history := w.history
  resolved := w.resolved
  keeps := by
    refine ⟨fun {id t} hid ht => ?_, fun {id fields} hid unbound hf => ?_⟩
    · refine outerMarks_good (w.keeps.types hid.1 ht) fun v hv other hmem => hid.2 other ?_
      rw [Subst.image_unbound (within_iff.1 (w.resolved _ _ ht) v hv)] at hmem
      obtain rfl := mentions_var.1 hmem
      rw [Subst.image_bound ht, mentions_erase]
      exact mentions_iff.2 ⟨v, hv, rfl⟩
    · exact outerMarks_good (w.keeps.records hid.1 unbound hf) fun v hv =>
        strict.outermost_field hid.1 hid.2 unbound hf hv
  unrecorded plain id hid := w.unrecorded plain id hid.1
  fresh := w.fresh
  unseen := w.unseen
  capped := w.capped
  start_le := w.start_le
  live_lt id hid := w.live_lt id hid.1
  retired_lt := w.retired_lt
  apart id hid hlive := w.apart id hid hlive.1
  unbound := w.unbound
  guarded m hm := (w.guarded m hm).mono (fun _ h => h) (Nat.le_refl _) (fun _ h => .inl h.1)
    fun _ _ _ h => h
  sound := w.sound
  respected := w.respected

section Outer

variable {strict : w.Strict}

theorem SchemeGood.outer {σ : Scheme} (h : w.SchemeGood σ)
    (free : ∀ v ∈ σ.ty.vars, σ.binds v.id = false → w.Outermost v.id) :
    (w.outer strict).SchemeGood σ where
  free v hv hfree :=
    have known := h.free v hv hfree
    ⟨⟨known.1, free v hv hfree⟩, known.2⟩
  bound := h.bound
  recordless := h.recordless

theorem BindingGood.outer {b : Binding} (h : w.BindingGood b)
    (free : ∀ v ∈ b.scheme.ty.vars, b.scheme.binds v.id = false → w.Outermost v.id) :
    (w.outer strict).BindingGood b := by
  cases b with
  | value σ => exact ⟨h.1.outer free, h.2⟩
  | foreign σ name => exact ⟨h.1.outer free, h.2⟩
  | constructor c => exact ⟨h.closed, h.bound, h.recordless⟩

theorem ScopeGood.outer {env : Env} (h : w.ScopeGood env)
    (free : ∀ entry ∈ env.values, ∀ v ∈ entry.2.scheme.ty.vars,
      entry.2.scheme.binds v.id = false → w.Outermost v.id) :
    (w.outer strict).ScopeGood env where
  values entry hentry := (h.values entry hentry).outer (free entry hentry)
  types entry hentry target htarget :=
    have hd := h.types entry hentry target htarget
    ⟨hd.closed, hd.bound, fun p hp hlive => hd.dead p hp hlive.1, hd.born, hd.records⟩
  params := h.params
  definitions entry hentry :=
    have hd := h.definitions entry hentry
    ⟨fun p hp =>
      have hp := hd.params p hp
      ⟨hp.retired, hp.omitted, hp.unseen, hp.level, hp.born⟩,
      hd.distinct, hd.closed, hd.since, hd.plain⟩

end Outer

/-- In the second world the substitution of the first one is solved further, and what was not live
there is left alone. -/
structure Onward (w w' : World) : Prop where
  plain : w'.plain = w.plain
  next : w.next ≤ w'.next
  solves : Subst.Solves w'.subst.image w.subst
  dead : ∀ id < w.next, ¬w.live id → ¬w'.live id
  unlowered : ∀ id < w.next, ¬w.live id → w'.subst.levels.get? id = w.subst.levels.get? id

theorem Onward.refl (w : World) : Onward w w :=
  ⟨rfl, Nat.le_refl _, w.resolved.image_idem, fun _ _ h => h, fun _ _ _ => rfl⟩

theorem Onward.trans {w'' : World} (h : Onward w w') (h' : Onward w' w'') : Onward w w'' where
  plain := h'.plain.trans h.plain
  next := Nat.le_trans h.next h'.next
  solves := h'.solves.trans h.solves
  dead id hid hlive := h'.dead id (Nat.lt_of_lt_of_le hid h.next) (h.dead id hid hlive)
  unlowered id hid hlive :=
    (h'.unlowered id (Nat.lt_of_lt_of_le hid h.next) (h.dead id hid hlive)).trans
      (h.unlowered id hid hlive)

theorem Later.onward_outer (later : Later w w') (strict : w'.Strict) :
    Onward w (w'.outer strict) where
  plain := later.plain
  next := later.next
  solves := later.solves
  dead _ hid hlive hlive' := (later.not_live hid hlive).2 hlive'.1
  unlowered := later.unlowered

end World

/-! ## Runs without errors -/

namespace Checker

open World (Onward)

/-- The check is in a world all of whose live variables are at the outermost level. The declared
schemes leave only such variables free, and quantify none of them. -/
structure Outer (w : World) (c : Checker) : Prop extends At w c where
  strict : w.Strict
  outermost : ∀ id, w.live id → w.Outermost id
  declared : ∀ e ∈ c.scope.declared, w.SchemeGood e.scheme ∧ ∀ q ∈ e.scheme.vars, ¬w.live q.id

theorem outer_start : Outer (World.prelude False) start where
  toAt := at_start False
  strict := ⟨fun _ hid => hid.elim, Subst.disciplined_empty _⟩
  outermost _ hid := hid.elim
  declared := by simp [start]

variable {w : World} {c : Checker}

theorem Outer.declare (h : Outer w c) {d : Declaration} (hplain : w.plain → d.Plain) {scope : Scope}
    {p : Progress} (hrun : declaration c.scope d c.progress = .ok scope p) :
    ∃ w', Onward w w' ∧ Outer w' { c with progress := p, scope := scope } := by
  obtain ⟨w', later, at', adds⟩ := h.toAt.declared hplain hrun
  have strict := later.strict h.strict
  -- What an old scheme leaves free was live, so it was at the outermost level and has stayed there.
  have carried {σ : Scheme} (good : w.SchemeGood σ) (v : TypeVar) (hv : v ∈ σ.ty.vars)
      (hfree : σ.binds v.id = false) : w'.Outermost v.id :=
    have hlive := (good.free v hv hfree).1
    later.outermost strict hlive (h.outermost _ hlive)
  refine ⟨w'.outer strict, later.onward_outer strict, ⟨at'.progress, at'.scope.outer ?_⟩,
    ⟨fun id hid => strict.start id hid.1, strict.disciplined⟩, fun id hid => hid.2, ?_⟩
  · intro entry hentry v hv hfree
    rcases adds.values entry hentry with old | below
    · exact carried (h.scope.values entry old).scheme v hv hfree
    · exact below.outermost later strict h.scope.toEnvGood h.outermost
        (at'.scope.values entry hentry).scheme hv hfree
  · intro e he
    rcases adds.declared e he with old | ⟨good, placed⟩
    · obtain ⟨good, dead⟩ := h.declared e old
      refine ⟨(later.schemeGood good).outer (carried good), fun q hq hlive => ?_⟩
      exact (later.not_live (good.bound q hq) (dead q hq)).2 hlive.1
    · refine ⟨good.outer fun v hv hfree =>
        placed.below.outermost later strict h.scope.toEnvGood h.outermost good hv hfree,
        fun q hq hlive => ?_⟩
      -- A quantified variable is unbound and stands for itself, above the outermost level.
      have above := placed.above q hq (strict.start _ hlive.1)
      have low := hlive.2.levelOf (placed.unbound q hq)
      omega

theorem Outer.run (h : Outer w c) {options : CheckOptions} {moduleName : String}
    {ds : List Declaration} (hplain : w.plain → ∀ d ∈ ds, d.Plain)
    (accepted : (run options moduleName c ds).errors = []) :
    ∃ w', Onward w w' ∧ Outer w' (run options moduleName c ds) := by
  induction ds generalizing w c with
  | nil => exact ⟨w, .refl w, h⟩
  | cons d rest ih =>
    obtain ⟨scope, p, outcome⟩ := run_cons_ok accepted
    rw [run_ok outcome] at accepted ⊢
    obtain ⟨w₁, onward₁, h₁⟩ := h.declare (fun hp => (List.forall_mem_cons.1 (hplain hp)).1) outcome
    have others (hp : w₁.plain) : ∀ d ∈ rest, d.Plain :=
      (List.forall_mem_cons.1 (hplain (onward₁.plain ▸ hp))).2
    obtain ⟨w₂, onward₂, h₂⟩ := ih h₁ others accepted
    exact ⟨w₂, onward₁.trans onward₂, h₂⟩

end Checker

end Polytype
