import Polytype.Proofs.Inference.Yields

/-!
# Retiring quantified variables

When schemes are found, a variable that they quantify is retired if neither a live variable of the
world before nor a variable that the schemes leave free leads to it. Everything that leads to a
retired variable stops being live, so that the variable stays unbound and out of reach.

In a plain world every quantified variable is retired. This is seen from a second run of the same
computation, in the world where only what the environment leads to is live: all that this run
binds is then reached from the environment, whose variables are not quantified.
-/

namespace Polytype.World

open Ty Infer

/-! ## Retiring -/

/-- The variables that schemes found in the second world quantify for good. -/
structure Settles (w w' : World) (schemes : List Scheme) (id : Nat) : Prop where
  quantified : ∃ σ ∈ schemes, σ.binds id = true
  live : ∀ x, w.live x → ¬w'.subst.Leads x id
  free : ∀ σ ∈ schemes, ∀ x, σ.Free x → ¬w'.subst.Leads x id

/-- The schemes have good types, and they quantify unbound variables of these types. A variable
that has come up since the start and is quantified in one of them is quantified wherever it
occurs. -/
structure Found (w : World) (env : Env) (schemes : List Scheme) : Prop where
  good : ∀ σ ∈ schemes, w.Good σ.ty
  mentioned : ∀ σ ∈ schemes, ∀ q ∈ σ.vars, q ∈ σ.ty.vars
  unbound : ∀ σ ∈ schemes, ∀ q ∈ σ.vars, w.subst.isBound q.id = false
  unused : ∀ σ ∈ schemes, ∀ q ∈ σ.vars, ¬∃ v ∈ env.freeVars w.subst, v.id = q.id
  settled : ∀ σ ∈ schemes, σ.vars ≠ [] → ∀ σ' ∈ schemes, w.subst.Settled σ'.ty
  shared : ∀ σ ∈ schemes, ∀ q ∈ σ.vars, w.start ≤ q.id → ∀ σ' ∈ schemes,
    σ'.ty.mentions q.id = true → σ'.binds q.id = true

section Retire

variable {w w' : World} {env : Env} {schemes : List Scheme}

theorem Found.live (found : w'.Found env schemes) {σ : Scheme} (hσ : σ ∈ schemes) {q : TypeVar}
    (hq : q ∈ σ.vars) : w'.live q.id :=
  within_iff.1 (found.good σ hσ).within q (found.mentioned σ hσ q hq)

theorem Found.settles_live (found : w'.Found env schemes) {id : Nat}
    (h : Settles w w' schemes id) : w'.live id ∧ w'.subst.isBound id = false := by
  obtain ⟨σ, hσ, hbinds⟩ := h.quantified
  obtain ⟨q, hq, rfl⟩ := Scheme.binds_iff.1 hbinds
  exact ⟨found.live hσ hq, found.unbound σ hσ q hq⟩

def retireMarks (w w' : World) (schemes : List Scheme) : Marks :=
  { w'.toMarks with
    live := fun id => w'.live id ∧ w'.subst.Avoids (Settles w w' schemes) id
    retired := fun id => w'.retired id ∨ Settles w w' schemes id }

theorem retireMarks_good {t : Ty} (good : w'.Good t)
    (avoids : Within (w'.subst.Avoids (Settles w w' schemes)) t) :
    (retireMarks w w' schemes).Good w'.subst t := by
  refine ⟨allVars_iff.2 fun v hv => ?_, good.2⟩
  have known := allVars_iff.1 good.1 v hv
  exact ⟨⟨known.1, within_iff.1 avoids v hv⟩, known.2⟩

theorem leads_fresh {id other : Nat} (h : w.next ≤ id) (leads : w.subst.Leads id other) :
    id = other := by
  have omits := w.fresh id h
  cases leads with
  | refl => rfl
  | step hstep _ =>
    cases hstep with
    | binding ht _ => simp [Subst.isBound_eq_false.1 omits.unbound] at ht
    | field hf _ _ => simp [omits.unrecorded] at hf

theorem Found.new (found : w'.Found env schemes) (later : Later w w') {id : Nat}
    (h : Settles w w' schemes id) : w.next ≤ id := by
  rcases later.live_new id (found.settles_live h).1 with hlive | hnew
  · exact absurd .refl (h.live id hlive)
  · exact hnew

/-- Schemes found in the second world, which come from the first one. Without records all quantified
variables belong to them alone. -/
structure Retires (w w' : World) (env : Env) (schemes : List Scheme) : Prop where
  later : Later w w'
  envGood : w.EnvGood env
  found : w'.Found env schemes
  settles : w'.plain → ∀ σ ∈ schemes, ∀ q ∈ σ.vars, Settles w w' schemes q.id

variable (h : Retires w w' env schemes)

include h in
theorem retire_guarded :
    (Milestone.generalized env w.next schemes w'.subst).Guarded w'.plain
      (retireMarks w w' schemes).live (retireMarks w w' schemes).retired w'.next w'.subst := by
  intro σ hσ q hq condition
  have settles : Settles w w' schemes q.id := by
    rcases condition with plain | isolated
    · exact h.settles plain σ hσ q hq
    · exact ⟨⟨σ, hσ, Scheme.binds_iff.2 ⟨q, hq, rfl⟩⟩, fun x hx => isolated.1 x (w.live_lt x hx),
        isolated.2⟩
  refine ⟨h.found.new h.later settles, .inr settles, w'.subst.Avoids (Settles w w' schemes), ?_⟩
  exact {
    live := fun id hid => hid.2
    fresh := fun id hid x hx leads => by
      obtain rfl := leads_fresh hid leads
      exact absurd (w'.live_lt id (h.found.settles_live hx).1) (Nat.not_lt.2 hid)
    keeps := (Subst.closed_avoids _ _).keeps
    free := fun id hid x hx => hx.live id (h.envGood.live hid)
    apart := fun avoids => avoids q.id settles .refl }

include h in
theorem retire_omits {id : Nat} (hlive : ¬w'.live id) (omits : w'.subst.Omits id) :
    (Milestone.generalized env w.next schemes w'.subst).Omits id := by
  refine ⟨omits, fun hfree => hlive (h.later.live id (h.envGood.live hfree)), fun σ hσ => ?_⟩
  refine Bool.eq_false_iff.2 fun hmem => hlive ?_
  obtain ⟨v, hv, rfl⟩ := mentions_iff.1 hmem
  exact within_iff.1 (h.found.good σ hσ).within v hv

include h in
theorem retire_unbound {id : Nat} (hid : (retireMarks w w' schemes).retired id) :
    w'.subst.isBound id = false :=
  hid.elim (w'.unbound id) fun hid => (h.found.settles_live hid).2

def retire (w w' : World) (env : Env) (schemes : List Scheme) (h : Retires w w' env schemes) :
    World where
  toMarks := retireMarks w w' schemes
  progress := { w'.progress with
    history := .generalized env w.next schemes w'.subst :: w'.progress.history }
  recent := .generalized env w.next schemes w'.subst :: w'.recent
  history := by simp [w'.history, retireMarks]
  resolved := w'.resolved
  keeps := by
    have closed := Subst.closed_avoids w'.subst (Settles w w' schemes)
    exact ⟨fun hid ht => retireMarks_good (w'.keeps.types hid.1 ht) (closed.types hid.2 ht),
      fun hid hb hf => retireMarks_good (w'.keeps.records hid.1 hb hf) (closed.records hid.2 hf)⟩
  unrecorded plain id hid := w'.unrecorded plain id hid.1
  fresh := w'.fresh
  unseen := List.forall_mem_cons.2
    ⟨fun id hid => retire_omits h (w'.not_live_of_next hid) (w'.fresh id hid), w'.unseen⟩
  capped := w'.capped
  start_le := w'.start_le
  live_lt id hid := w'.live_lt id hid.1
  retired_lt id hid :=
    hid.elim (w'.retired_lt id) fun hid => w'.live_lt id (h.found.settles_live hid).1
  apart id hid hlive :=
    hid.elim (fun hid => w'.apart id hid hlive.1) fun hid => hlive.2 id hid .refl
  unbound _ := retire_unbound h
  guarded m hm := by
    rcases List.mem_cons.1 hm with rfl | hm
    · exact retire_guarded h
    · exact (w'.guarded m hm).mono (fun _ h => .inl h) (Nat.le_refl _) (fun _ h => .inl h.1)
        fun _ _ _ h => h
  sound := by
    refine List.forall_mem_cons.2 ⟨?_, w'.sound⟩
    exact (retire_guarded h).respected w'.resolved fun _ => retire_unbound h
  respected :=
    .cons (fun m hm => (w'.guarded m hm).respected w'.resolved w'.unbound) w'.respected

theorem later_retire : Later w (retire w w' env schemes h) where
  plain := h.later.plain
  start := h.later.start
  past := h.later.past
  next := h.later.next
  birth := h.later.birth
  live id hid := ⟨h.later.live id hid, fun _ hx => hx.live id hid⟩
  live_new id hid := h.later.live_new id hid.1
  retired id hid := .inl (h.later.retired id hid)
  levels := h.later.levels
  solves := h.later.solves
  frame := h.later.frame
  unlowered := h.later.unlowered
  omits := h.later.omits
  asks id hid asks fields hf :=
    retireMarks_good (h.later.asks id hid asks fields hf)
      ((Subst.closed_avoids _ _).records (fun _ hx => hx.live id hid) hf)
  strict strict :=
    have strict' := h.later.strict strict
    ⟨fun id hid => strict'.start id hid.1, strict'.disciplined⟩
  recent := by
    obtain ⟨new, heq, hnew⟩ := h.later.recent
    refine ⟨.generalized env w.next schemes w'.subst :: new, ?_, fun m hm => ?_⟩
    · simp only [retire]
      rw [heq]
      rfl
    · rcases List.mem_cons.1 hm with rfl | hm
      · refine ⟨⟨Nat.le_refl _, fun id hid => .inl (h.envGood.live hid)⟩,
          fun id hid hlive omits => retire_omits h (h.later.not_live hid hlive).2 ?_⟩
        exact h.later.omits id hid hlive omits
      · exact hnew m hm

theorem schemeGood_retire {σ : Scheme} (hσ : σ ∈ schemes) :
    (retire w w' env schemes h).SchemeGood σ where
  free v hv hfree := by
    have known := allVars_iff.1 (h.found.good σ hσ).1 v hv
    refine ⟨⟨known.1, fun x hx => ?_⟩, known.2⟩
    exact hx.free σ hσ v.id ⟨mentions_iff.2 ⟨v, hv, rfl⟩, hfree⟩
  bound q hq := w'.live_lt _ (h.found.live hσ hq)
  recordless plain := (h.found.good σ hσ).2 plain

end Retire

/-! ## Plain worlds -/

section Plain

variable {w : World} (plain : w.plain)

include plain in
theorem leads_plain {x q : Nat} (hx : w.live x) (leads : w.subst.Leads x q) :
    x = q ∨ ∃ t, w.subst.types.get? x = some t ∧ t.mentions q = true := by
  have closed : w.subst.Closed w.live := by
    intro id other hid hstep
    cases hstep with
    | binding ht hmem =>
      obtain ⟨v, hv, rfl⟩ := mentions_iff.1 hmem
      exact within_iff.1 (w.keeps.types hid ht).within v hv
    | field hf _ _ => simp [w.unrecorded plain id hid] at hf
  exact w.resolved.of_leads closed (w.unrecorded plain) hx leads

include plain in
theorem mentions_image_of_leads {x q : Nat} (hx : w.live x) (leads : w.subst.Leads x q)
    (unbound : w.subst.isBound q = false) : (w.subst.image x).mentions q = true := by
  rcases leads_plain plain hx leads with rfl | ⟨t, ht, hq⟩
  · rw [Subst.image_unbound unbound]
    exact mentions_var.2 rfl
  · rw [Subst.image_bound ht, mentions_erase]
    exact hq

theorem mentions_image {x y : Nat} (hx : w.live x) (hy : (w.subst.image x).mentions y = true) :
    w.live y ∧ w.subst.isBound y = false := by
  cases ht : w.subst.types.get? x with
  | none =>
    have unbound := Subst.isBound_eq_false.2 ht
    rw [Subst.image_unbound unbound] at hy
    obtain rfl := mentions_var.1 hy
    exact ⟨hx, unbound⟩
  | some t =>
    rw [Subst.image_bound ht, mentions_erase] at hy
    obtain ⟨v, hv, rfl⟩ := mentions_iff.1 hy
    exact ⟨within_iff.1 (w.keeps.types hx ht).within v hv, within_iff.1 (w.resolved _ _ ht) v hv⟩

theorem Later.mentions_image {w w' : World} (later : Later w w') {x id : Nat} :
    (w'.subst.image x).mentions id = true ↔
      ∃ y, (w.subst.image x).mentions y = true ∧ (w'.subst.image y).mentions id = true := by
  rw [← later.solves x, mentions_subst]
  constructor
  · rintro ⟨v, hv, hid⟩
    exact ⟨v.id, mentions_iff.2 ⟨v, hv, rfl⟩, hid⟩
  · rintro ⟨y, hy, hid⟩
    obtain ⟨v, hv, rfl⟩ := mentions_iff.1 hy
    exact ⟨v, hv, hid⟩

end Plain

/-! ## Only the environment live -/

section Focus

variable {w : World} {env : Env}

def led (w : World) (env : Env) (id : Nat) : Prop := ∃ x, env.Free x ∧ w.subst.Leads x id

theorem closed_led (w : World) (env : Env) : w.subst.Closed (w.led env) :=
  Subst.closed_leads w.subst env.Free

def focusMarks (w : World) (env : Env) : Marks :=
  { w.toMarks with live := fun id => w.live id ∧ w.led env id }

theorem focusMarks_good {t : Ty} (good : w.Good t) (led : Within (w.led env) t) :
    (w.focusMarks env).Good w.subst t := by
  refine ⟨allVars_iff.2 fun v hv => ?_, good.2⟩
  have known := allVars_iff.1 good.1 v hv
  exact ⟨⟨known.1, within_iff.1 led v hv⟩, known.2⟩

def focus (w : World) (env : Env) : World :=
  { w with
    toMarks := w.focusMarks env
    keeps := ⟨fun hid ht => focusMarks_good (w.keeps.types hid.1 ht) ((closed_led w env).types hid.2 ht),
      fun hid hb hf =>
        focusMarks_good (w.keeps.records hid.1 hb hf) ((closed_led w env).records hid.2 hf)⟩
    unrecorded := fun plain id hid => w.unrecorded plain id hid.1
    live_lt := fun id hid => w.live_lt id hid.1
    apart := fun id hid hlive => w.apart id hid hlive.1
    guarded := fun m hm => (w.guarded m hm).mono (fun _ h => h) (Nat.le_refl _)
      (fun _ h => .inl h.1) fun _ _ _ h => h }

theorem focus_envGood (henv : w.EnvGood env) : (w.focus env).EnvGood env where
  values entry hentry := by
    have good := henv.values entry hentry
    have scheme {σ : Scheme} (hσ : w.SchemeGood σ) (hfree : ∀ id, σ.Free id → env.Free id) :
        (w.focus env).SchemeGood σ := by
      refine ⟨fun v hv free => ?_, hσ.bound, hσ.recordless⟩
      have known := hσ.free v hv free
      exact ⟨⟨known.1, v.id, hfree v.id ⟨mentions_iff.2 ⟨v, hv, rfl⟩, free⟩, .refl⟩, known.2⟩
    obtain ⟨name, b⟩ := entry
    cases b with
    | value σ => exact ⟨scheme good.1 fun id hid => ⟨_, hentry, hid⟩, good.2⟩
    | foreign σ given => exact ⟨scheme good.1 fun id hid => ⟨_, hentry, hid⟩, good.2⟩
    | constructor c => exact ⟨good.closed, good.bound, good.recordless⟩
  types entry hentry target htarget := by
    have good := henv.types entry hentry target htarget
    exact ⟨good.closed, good.bound, fun p hp hlive => good.dead p hp hlive.1, good.born,
      good.records⟩
  params := henv.params

end Focus

section Settle

variable {w w' v' : World} {env : Env} {schemes : List Scheme} (plain : w.plain)
  (henv : w.EnvGood env) (later : Later w w') (found : w'.Found env schemes)
  {σ : Scheme} (hσ : σ ∈ schemes) {q : TypeVar} (hq : q ∈ σ.vars)

include plain henv later found hσ hq in
theorem Found.image_led {y : Nat} (hy : w.live y) (led : w.led env y) :
    (w'.subst.image y).mentions q.id = false := by
  obtain ⟨x, hx, leads⟩ := led
  refine Bool.eq_false_iff.2 fun hmem => found.unused σ hσ q hq ?_
  have image : (w'.subst.image x).mentions q.id = true := by
    rcases leads_plain plain (henv.live hx) leads with rfl | ⟨t, ht, hmid⟩
    · exact hmem
    · refine later.mentions_image.2 ⟨y, ?_, hmem⟩
      rw [Subst.image_bound ht, mentions_erase]
      exact hmid
  have active : ¬w.retired q.id := fun hretired =>
    w'.apart _ (later.retired _ hretired) (found.live hσ hq)
  refine Env.exists_mem_freeVars w'.resolved hx image fun entry hentry hfree => ?_
  refine Bool.eq_false_iff.2 fun hbinds => active ?_
  obtain ⟨u, hu, hid⟩ := Scheme.binds_iff.1 hbinds
  have good := henv.values entry hentry
  obtain ⟨name, b⟩ := entry
  cases b with
  | value σ => exact hid ▸ good.2 plain u hu
  | foreign σ given => exact hid ▸ good.2 plain u hu
  | constructor c => exact hfree.elim

include plain henv later found hσ hq in
theorem Found.new_of_focus (focused : Later (w.focus env) v') (same : v'.progress = w'.progress)
    (found' : v'.Found env schemes) :
    w.next ≤ q.id ∧ ∀ x, w.live x → ¬w'.subst.Leads x q.id := by
  have apart {y : Nat} (hy : (w.focus env).live y) : (w'.subst.image y).mentions q.id = false :=
    found.image_led plain henv later hσ hq hy.1 hy.2
  have unbound := found.unbound σ hσ q hq
  have new : w.next ≤ q.id := by
    rcases focused.live_new _ (found'.live hσ hq) with hlive | hnew
    · have hmem := apart hlive
      rw [Subst.image_unbound unbound] at hmem
      simp [mentions, vars] at hmem
    · exact hnew
  refine ⟨new, fun x hx leads => ?_⟩
  have image := mentions_image_of_leads (later.plain ▸ plain) (later.live x hx) leads unbound
  obtain ⟨y, hxy, hyq⟩ := later.mentions_image.1 image
  obtain ⟨hlive, hunbound⟩ := mentions_image hx hxy
  by_cases hy : (w.focus env).live y
  · simp [apart hy] at hyq
  · -- The run from the environment alone leaves `y` unbound, so `y` is the variable itself.
    have frame : w'.subst.isBound y = false := by
      have kept := focused.frame y (w.live_lt y hlive) hy
      rw [show v'.subst = w'.subst from congrArg Progress.subst same] at kept
      exact kept.trans hunbound
    rw [Subst.image_unbound frame] at hyq
    have heq : y = q.id := mentions_var.1 hyq
    exact absurd (heq ▸ w.live_lt y hlive) (Nat.not_lt.2 new)

include plain henv later found hσ hq in
theorem Found.settles (focused : Later (w.focus env) v') (same : v'.progress = w'.progress)
    (found' : v'.Found env schemes) : Settles w w' schemes q.id := by
  obtain ⟨new, live⟩ := found.new_of_focus plain henv later hσ hq focused same found'
  have started : w'.start ≤ q.id := by
    rw [later.start]
    exact Nat.le_trans w.start_le new
  refine ⟨⟨σ, hσ, Scheme.binds_iff.2 ⟨q, hq, rfl⟩⟩, live, fun σ' hσ' x hx leads => ?_⟩
  obtain ⟨v, hv, rfl⟩ := mentions_iff.1 hx.1
  have hlive : w'.live v.id := within_iff.1 (found.good σ' hσ').within v hv
  have unbound : w'.subst.isBound v.id = false :=
    within_iff.1 (found.settled σ hσ (List.ne_nil_of_mem hq) σ' hσ') v hv
  rcases leads_plain (later.plain ▸ plain) hlive leads with heq | ⟨t, ht, -⟩
  · have binds := found.shared σ hσ q hq started σ' hσ' (heq ▸ hx.1)
    rw [← heq, hx.2] at binds
    simp at binds
  · simp [Subst.isBound_eq_false.1 unbound] at ht

end Settle

/-! ## Solutions -/

/-- A solution of a world leaves the retired variables as they are, and puts none of them in the
place of a live one. -/
structure Solution (w : World) (θ : Nat → Ty) : Prop where
  solves : Subst.Solves θ w.subst
  erased : ∀ id, (θ id).erase = θ id
  retired : ∀ id, w.retired id → θ id = ofId id
  apart : ∀ id, w.live id → ∀ q, w.retired q → (θ id).mentions q = false

theorem Later.solution {w w' : World} (later : Later w w') {θ : Nat → Ty} (h : w'.Solution θ) :
    w.Solution θ where
  solves := h.solves.trans later.solves
  erased := h.erased
  retired id hid := h.retired id (later.retired id hid)
  apart id hid q hq := h.apart id (later.live id hid) q (later.retired q hq)

theorem solution_of_retire {w w' : World} {env : Env} {schemes : List Scheme} (plain : w'.plain)
    (retires : Retires w w' env schemes) {θ : Nat → Ty}
    (h : (retire w w' env schemes retires).Solution θ) : w'.Solution θ where
  solves := h.solves
  erased := h.erased
  retired id hid := h.retired id (.inl hid)
  apart id hid q hq := by
    refine Bool.eq_false_iff.2 fun hmem => ?_
    rw [← h.solves id, mentions_subst] at hmem
    obtain ⟨v, hv, hmem⟩ := hmem
    obtain ⟨hlive, unbound⟩ := mentions_image hid (mentions_iff.2 ⟨v, hv, rfl⟩)
    by_cases settles : Settles w w' schemes v.id
    · rw [h.retired v.id (.inr settles)] at hmem
      exact w'.apart q hq (mentions_var.1 hmem ▸ hlive)
    · -- An unbound variable leads to itself alone, so it is still live.
      refine Bool.eq_false_iff.1 (h.apart v.id ⟨hlive, fun x hx leads => ?_⟩ q (.inl hq)) hmem
      rcases leads_plain plain hlive leads with rfl | ⟨t, ht, -⟩
      · exact settles hx
      · simp [Subst.isBound_eq_false.1 unbound] at ht

/-! ## Keeping schemes in the history -/

variable {α : Type} {w : World} {env : Env}

theorem Yields.both {v : World} (same : v.progress = w.progress) {m : Infer α}
    {post post' : α → World → Prop} (h : w.Yields m post) (h' : v.Yields m post') :
    w.Yields m fun a w' => post a w' ∧ ∃ v', v'.progress = w'.progress ∧ Later v v' ∧ post' a v' := by
  unfold Yields at h h' ⊢
  rw [same] at h'
  cases hm : m w.progress with
  | error e p =>
    rw [hm] at h
    exact h
  | ok a p =>
    rw [hm] at h h'
    obtain ⟨w', rfl, later, ha⟩ := h
    obtain ⟨v', hp, later', ha'⟩ := h'
    exact ⟨w', rfl, later, ha, v', hp, later', ha'⟩

theorem Yields.drawnSoFar {f : Nat → Infer α} {post : α → World → Prop}
    (h : w.Yields (f w.next) post) : w.Yields (Infer.drawnSoFar >>= f) post := h

structure SameLevels (w w' : World) : Prop where
  subst : w.subst = w'.subst
  start : w.start = w'.start
  birth : w.birth = w'.birth

theorem SameLevels.of_marks {w w' : World} (hs : w.subst = w'.subst)
    (hmarks : w.toMarks = w'.toMarks) : w.SameLevels w' :=
  ⟨hs, congrArg Marks.start hmarks, congrArg Marks.birth hmarks⟩

theorem Yields.noteSchemes (schemes : α → List Scheme) (henv : w.EnvGood env) {m : Infer α}
    {mid : α → World → Prop}
    (h : w.Yields m fun a w' => w'.Found env (schemes a) ∧ mid a w')
    (h' : (w.focus env).Yields m fun a w' => w'.Found env (schemes a)) :
    w.Yields (do
      let drawn ← Infer.drawnSoFar
      let a ← m
      Infer.noteSchemes env drawn (schemes a)
      return a) fun a w'' => (∀ σ ∈ schemes a, w''.BindingGood (.value σ)) ∧
        ∃ w', mid a w' ∧ w''.SameLevels w' ∧ (w.plain → ∀ θ, w''.Solution θ → w'.Solution θ) := by
  have same : (w.focus env).progress = w.progress := rfl
  have both := Yields.both same h h'
  refine .drawnSoFar ?_
  unfold Yields at both ⊢
  cases hm : m w.progress with
  | error e p =>
    rw [hm] at both
    rw [run_bind_error hm]
    exact both
  | ok a p =>
    rw [hm] at both
    obtain ⟨w', rfl, later, ⟨found, ha⟩, v', same, focused, found'⟩ := both
    rw [run_bind_ok hm]
    have settles : w'.plain → ∀ σ ∈ schemes a, ∀ q ∈ σ.vars, Settles w w' (schemes a) q.id := by
      intro plain σ hσ q hq
      exact found.settles (later.plain ▸ plain) henv later hσ hq focused same found'
    have retires : Retires w w' env (schemes a) := ⟨later, henv, found, settles⟩
    refine ⟨retire w w' env (schemes a) retires, rfl, later_retire retires, fun σ hσ => ?_, w', ha,
      ⟨rfl, rfl, rfl⟩, fun plain θ hθ => solution_of_retire (later.plain ▸ plain) retires hθ⟩
    exact ⟨schemeGood_retire retires hσ, fun plain q hq => .inr (settles plain σ hσ q hq)⟩

end Polytype.World
