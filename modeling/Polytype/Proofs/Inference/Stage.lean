import Polytype.Proofs.Inference.Let
import Polytype.Proofs.Unification.Watch

/-!
# Stages of a typable program

A stage is what inference works on together with a solution, which says what each variable drawn so
far stands for in a given typing. The solution guides inference: unification is asked to make types
equal that the solution makes equal, so it succeeds and leaves the solution one (`exists_unify`). A
variable that is drawn may stand for any type (`draw`). The watches of a stage are those of the
`let`s around the expression at hand.

`g.Succeeds m post` says that running `m` from the stage `g` succeeds, and ends in a later stage
where the result satisfies `post`.
-/

namespace Polytype

open Ty Infer

namespace Subst

structure Below (s : Subst) (n : Nat) : Prop where
  types : ∀ {id t}, s.types.get? id = some t → id < n ∧ Within (· < n) t
  levels : ∀ {id l}, s.levels.get? id = some l → id < n

theorem Below.mono {s : Subst} {m n : Nat} (h : s.Below m) (hle : m ≤ n) : s.Below n where
  types ht := ⟨Nat.lt_of_lt_of_le (h.types ht).1 hle,
    within_iff.2 fun v hv => Nat.lt_of_lt_of_le (within_iff.1 (h.types ht).2 v hv) hle⟩
  levels hl := Nat.lt_of_lt_of_le (h.levels hl) hle

theorem Below.evolve {definition : Ty → Option Ty} (hdef : ∀ t, definition t = none)
    {inputs : List Ty} {s s' : Subst} {n : Nat} (h : s.Below n)
    (evolves : Evolves definition inputs s s') (resolved : s.Resolved)
    (records : ∀ id, s.records.get? id = none) (hinputs : ∀ t ∈ inputs, Within (· < n) t) :
    s'.Below n := by
  have keeps : s.Keeps (· < n) (Within (· < n)) :=
    ⟨fun _ ht => (h.types ht).2, fun _ _ hf => by simp [records] at hf⟩
  have ext := evolves.extension (hereditary_within (· < n)) (by simp [hdef]) s'.levelsAbove_zero
    resolved keeps hinputs
  have bound {id : Nat} {t : Ty} (ht : s'.types.get? id = some t) : id < n := by
    by_contra hid
    have frame := ext.frame id hid
    cases hold : s.types.get? id with
    | none =>
      rw [isBound_eq_false.2 hold, isBound_eq_false, ht] at frame
      simp at frame
    | some u => exact hid (h.types hold).1
  refine ⟨fun ht => ⟨bound ht, ext.keeps.types (bound ht) ht⟩, fun {id l} hl => ?_⟩
  rcases ext.origin id l hl with hold | ⟨v, hv, rfl, -⟩
  · exact h.levels hold
  · exact everywhere_var.1 hv

variable {s : Subst} {n : Nat} {δ δ' : Nat → Ty}

theorem Solves.agree (h : Solves δ s) (below : s.Below n) (agree : ∀ id < n, δ' id = δ id) :
    Solves δ' s := by
  intro id
  cases ht : s.types.get? id with
  | none => rw [image_unbound (isBound_eq_false.2 ht), subst_var]
  | some t =>
    obtain ⟨hid, within⟩ := below.types ht
    have solved := h id
    rw [image_bound ht, subst_erase] at solved ⊢
    rw [agree id hid, ← solved]
    exact subst_congr fun v hv => agree _ (within_iff.1 within v hv)

end Subst

namespace Watch

variable {ω : Watch} {δ δ' : Nat → Ty}

theorem confines_congr {id : Nat} (h : δ' id = δ id) : ω.Confines δ' id ↔ ω.Confines δ id := by
  unfold Confines
  rw [h]

theorem admits_congr {v : TypeVar} (h : δ' v.id = δ v.id) : ω.Admits δ' v ↔ ω.Admits δ v := by
  unfold Admits
  rw [confines_congr h]

theorem Holds.agree {s : Subst} {n : Nat} (h : ω.Holds δ s) (below : s.Below n)
    (records : ∀ id, s.records.get? id = none) (agree : ∀ id < n, δ' id = δ id) :
    ω.Holds δ' s where
  levels id l hl := by
    have same : ω.bottom δ' id = ω.bottom δ id := by
      unfold bottom
      rw [confines_congr (agree id (below.levels hl))]
    rw [same]
    exact h.levels id l hl
  keeps := by
    refine ⟨fun {id t} hid ht => ?_, fun _ _ hf => by simp [records] at hf⟩
    obtain ⟨hlt, within⟩ := below.types ht
    have covered : ω.Covers δ id := by
      unfold Covers at hid ⊢
      rwa [confines_congr (agree id hlt)] at hid
    have admitted := allVars_iff.1 (h.keeps.types covered ht)
    exact allVars_iff.2 fun v hv =>
      (admits_congr (agree _ (within_iff.1 within v hv))).2 (admitted v hv)

end Watch

/-- What inference works on, with a solution that it is guided by. -/
structure Stage where
  progress : Progress
  solution : Nat → Ty
  watched : Watch → Prop
  resolved : progress.subst.Resolved
  firstOrder : progress.subst.FirstOrder
  solves : Subst.Solves solution progress.subst
  erased : ∀ id, (solution id).erase = solution id
  below : progress.subst.Below progress.next
  start_le : ∀ ω, watched ω → ω.start ≤ progress.next
  holds : ∀ ω, watched ω → ω.Holds solution progress.subst

namespace Stage

abbrev subst (g : Stage) : Subst := g.progress.subst

abbrev next (g : Stage) : Nat := g.progress.next

abbrev read (g : Stage) (t : Ty) : Ty := t.subst g.solution

structure Good (g : Stage) (t : Ty) : Prop where
  firstOrder : t.FirstOrder
  below : Within (· < g.next) t
  admits : ∀ ω, g.watched ω → AllVars (ω.Admits g.solution) t

def Above (g : Stage) (level : Nat) : Prop := ∀ ω, g.watched ω → ω.floor < level

structure Later (g g' : Stage) : Prop where
  next : g.next ≤ g'.next
  agree : ∀ id < g.next, g'.solution id = g.solution id
  watched : g'.watched = g.watched

theorem Later.refl (g : Stage) : Later g g := ⟨Nat.le_refl _, fun _ _ => rfl, rfl⟩

theorem Later.trans {g g' g'' : Stage} (h : Later g g') (h' : Later g' g'') : Later g g'' where
  next := Nat.le_trans h.next h'.next
  agree id hid := (h'.agree id (Nat.lt_of_lt_of_le hid h.next)).trans (h.agree id hid)
  watched := h'.watched.trans h.watched

section Later

variable {g g' : Stage} (h : Later g g')

include h in
theorem Later.admits {ω : Watch} {v : TypeVar} (hv : v.id < g.next)
    (hω : ω.Admits g.solution v) : ω.Admits g'.solution v :=
  (Watch.admits_congr (h.agree _ hv)).2 hω

include h in
theorem Later.good {t : Ty} (ht : g.Good t) : g'.Good t where
  firstOrder := ht.firstOrder
  below := within_iff.2 fun v hv => Nat.lt_of_lt_of_le (within_iff.1 ht.below v hv) h.next
  admits ω hω := by
    rw [h.watched] at hω
    exact allVars_iff.2 fun v hv =>
      h.admits (within_iff.1 ht.below v hv) (allVars_iff.1 (ht.admits ω hω) v hv)

include h in
theorem Later.read {t : Ty} (ht : g.Good t) : g'.read t = g.read t :=
  subst_congr fun v hv => h.agree _ (within_iff.1 ht.below v hv)

include h in
theorem Later.above {level : Nat} (hl : g.Above level) : g'.Above level := by
  unfold Above
  rw [h.watched]
  exact hl

end Later

variable {g : Stage} {t : Ty}

theorem good_apply (ht : g.Good t) : g.Good (g.subst.apply t) where
  firstOrder := g.firstOrder.keeps.apply hereditary_firstOrder g.subst.levelsAbove_zero ht.firstOrder
  below := by
    have keeps : g.subst.Keeps (· < g.next) (Within (· < g.next)) :=
      ⟨fun _ hu => (g.below.types hu).2, fun _ _ hf => by simp [g.firstOrder.records] at hf⟩
    exact keeps.apply (hereditary_within _) g.subst.levelsAbove_zero ht.below
  admits ω hω := (g.holds ω hω).apply (ht.admits ω hω)

theorem read_apply (g : Stage) (t : Ty) : g.read (g.subst.apply t) = g.read t :=
  g.solves.subst_apply g.resolved t

/-! ## Types at hand -/

section Good

theorem good_const (g : Stage) (name : String) : g.Good (.const name) :=
  ⟨⟨.const trivial, .const trivial⟩, .const trivial, fun _ _ => .const trivial⟩

theorem good_literal (g : Stage) (value : Literal) : g.Good value.ty := by
  cases value <;> exact g.good_const _

theorem good_app {name : String} (ht : g.Good t) : g.Good (.app (.const name) [t]) where
  firstOrder := ⟨.app trivial (.const trivial) (by simpa using ht.firstOrder.1),
    .app trivial (.const trivial) (by simpa using ht.firstOrder.2)⟩
  below := .app trivial (.const trivial) (by simpa using ht.below)
  admits ω hω := .app trivial (.const trivial) (by simpa using ht.admits ω hω)

theorem good_tuple {ts : List Ty} (hts : ∀ t ∈ ts, g.Good t) : g.Good (.tuple ts) where
  firstOrder := ⟨.tuple trivial fun t ht => (hts t ht).firstOrder.1,
    .tuple trivial fun t ht => (hts t ht).firstOrder.2⟩
  below := .tuple trivial fun t ht => (hts t ht).below
  admits ω hω := .tuple trivial fun t ht => (hts t ht).admits ω hω

theorem good_func {ts : List Ty} (hts : ∀ t ∈ ts, g.Good t) (ht : g.Good t) :
    g.Good (.func ts t) where
  firstOrder := ⟨.func trivial (fun t ht => (hts t ht).firstOrder.1) ht.firstOrder.1,
    .func trivial (fun t ht => (hts t ht).firstOrder.2) ht.firstOrder.2⟩
  below := .func trivial (fun t ht => (hts t ht).below) ht.below
  admits ω hω := .func trivial (fun t ht => (hts t ht).admits ω hω) (ht.admits ω hω)

theorem Good.params {ts : List Ty} (h : g.Good (.func ts t)) : ∀ u ∈ ts, g.Good u := fun u hu =>
  ⟨⟨(everywhere_func.1 h.firstOrder.1).2.1 u hu, (everywhere_func.1 h.firstOrder.2).2.1 u hu⟩,
    (everywhere_func.1 h.below).2.1 u hu,
    fun ω hω => (everywhere_func.1 (h.admits ω hω)).2.1 u hu⟩

theorem Good.result {ts : List Ty} (h : g.Good (.func ts t)) : g.Good t :=
  ⟨⟨(everywhere_func.1 h.firstOrder.1).2.2, (everywhere_func.1 h.firstOrder.2).2.2⟩,
    (everywhere_func.1 h.below).2.2, fun ω hω => (everywhere_func.1 (h.admits ω hω)).2.2⟩

end Good

/-! ## Drawing a variable -/

/-- The solution with the next variable standing for a type. -/
def drawn (g : Stage) (τ : Ty) (id : Nat) : Ty := if id = g.next then τ.erase else g.solution id

theorem drawn_agree (g : Stage) (τ : Ty) : ∀ id < g.next, g.drawn τ id = g.solution id :=
  fun _ hid => if_neg (Nat.ne_of_lt hid)

def draw (g : Stage) (τ : Ty) : Stage where
  progress := { g.progress with next := g.next + 1 }
  solution := g.drawn τ
  watched := g.watched
  resolved := g.resolved
  firstOrder := g.firstOrder
  solves := g.solves.agree g.below (g.drawn_agree τ)
  erased id := by
    unfold drawn
    split
    · exact erase_erase τ
    · exact g.erased id
  below := g.below.mono (Nat.le_succ _)
  start_le ω hω := Nat.le_trans (g.start_le ω hω) (Nat.le_succ _)
  holds ω hω := (g.holds ω hω).agree g.below g.firstOrder.records (g.drawn_agree τ)

theorem later_draw (g : Stage) (τ : Ty) : Later g (g.draw τ) :=
  ⟨Nat.le_succ _, g.drawn_agree τ, rfl⟩

theorem good_draw {level : Nat} (above : g.Above level) (τ : Ty) :
    (g.draw τ).Good (.var ⟨g.next, level⟩) where
  firstOrder := ⟨.var trivial, .var trivial⟩
  below := .var (Nat.lt_succ_self _)
  admits ω hω := .var (.inr ⟨g.start_le ω hω, above ω hω⟩)

theorem read_draw (g : Stage) (τ : Ty) (level : Nat) :
    (g.draw τ).read (.var ⟨g.next, level⟩) = τ.erase := if_pos rfl

/-! ## Another substitution -/

def advance (g : Stage) (s : Subst) (history : List Milestone) (resolved : s.Resolved)
    (firstOrder : s.FirstOrder) (solves : Subst.Solves g.solution s) (below : s.Below g.next)
    (holds : ∀ ω, g.watched ω → ω.Holds g.solution s) : Stage where
  progress := { g.progress with subst := s, history }
  solution := g.solution
  watched := g.watched
  resolved := resolved
  firstOrder := firstOrder
  solves := solves
  erased := g.erased
  below := below
  start_le := g.start_le
  holds := holds

def touch (g : Stage) (events : Array Event) (history : List Milestone) : Stage :=
  { g with progress := { g.progress with events, history } }

theorem later_touch (g : Stage) (events : Array Event) (history : List Milestone) :
    Later g (g.touch events history) :=
  ⟨Nat.le_refl _, fun _ _ => rfl, rfl⟩

/-! ## Runs -/

def Succeeds {α : Type} (g : Stage) (m : Infer α) (post : α → Stage → Prop) : Prop :=
  ∃ a g', m g.progress = .ok a g'.progress ∧ Later g g' ∧ post a g'

variable {α β : Type}

theorem Succeeds.pure {post : α → Stage → Prop} {a : α} (h : post a g) :
    g.Succeeds (pure a) post :=
  ⟨a, g, rfl, .refl g, h⟩

theorem Succeeds.bind {m : Infer α} {f : α → Infer β} {mid : α → Stage → Prop}
    {post : β → Stage → Prop} (h : g.Succeeds m mid)
    (hf : ∀ a g', Later g g' → mid a g' → g'.Succeeds (f a) post) : g.Succeeds (m >>= f) post := by
  obtain ⟨a, g', hm, later, ha⟩ := h
  obtain ⟨b, g'', hn, later', hb⟩ := hf a g' later ha
  exact ⟨b, g'', (run_bind_ok hm).trans hn, later.trans later', hb⟩

theorem Succeeds.mono {m : Infer α} {post post' : α → Stage → Prop} (h : g.Succeeds m post)
    (himp : ∀ a g', Later g g' → post a g' → post' a g') : g.Succeeds m post' := by
  obtain ⟨a, g', hm, later, ha⟩ := h
  exact ⟨a, g', hm, later, himp a g' later ha⟩

theorem Succeeds.getSubst {f : Subst → Infer α} {post : α → Stage → Prop}
    (h : g.Succeeds (f g.subst) post) : g.Succeeds (Infer.getSubst >>= f) post := h

theorem Succeeds.resolved {t : Ty} {f : Ty → Infer α} {post : α → Stage → Prop}
    (h : g.Succeeds (f (g.subst.apply t)) post) : g.Succeeds (Infer.resolved t >>= f) post := h

theorem succeeds_log (event : Event) : g.Succeeds (log event) fun _ g' => g'.subst = g.subst :=
  ⟨(), g.touch (g.progress.events.push event) g.progress.history, rfl, g.later_touch _ _, rfl⟩

theorem succeeds_noteSchemes (env : Env) (drawn : Nat) (schemes : List Scheme) :
    g.Succeeds (noteSchemes env drawn schemes) fun _ _ => True :=
  ⟨(), g.touch g.progress.events (.generalized env drawn schemes g.subst :: g.progress.history),
    rfl, g.later_touch _ _, trivial⟩

theorem succeeds_drawnSoFar : g.Succeeds drawnSoFar fun _ _ => True :=
  ⟨g.next, g, rfl, .refl g, trivial⟩

theorem succeeds_fresh {level : Nat} (above : g.Above level) (τ : Ty) :
    g.Succeeds (Infer.fresh level) fun t g' =>
      g'.Good t ∧ g'.read t = τ.erase ∧ ∀ id, t.mentions id = true → g.next ≤ id := by
  refine ⟨_, g.draw τ, rfl, g.later_draw τ, good_draw above τ, g.read_draw τ level, fun id hid => ?_⟩
  exact Nat.le_of_eq (mentions_var.1 hid)

theorem succeeds_freshList {level : Nat} (above : g.Above level) (types : List Ty) :
    g.Succeeds (freshList level types.length) fun ts g' => (∀ t ∈ ts, g'.Good t) ∧
      ts.map g'.read = types.map erase ∧ ∀ t ∈ ts, ∀ id, t.mentions id = true → g.next ≤ id := by
  induction types generalizing g with
  | nil => exact .pure ⟨by simp, rfl, by simp⟩
  | cons τ types ih =>
    refine (succeeds_fresh above τ).bind fun t g' later ⟨good, heq, new⟩ => ?_
    refine (ih (later.above above)).bind fun ts g'' later' ⟨goods, heqs, news⟩ => .pure ?_
    refine ⟨List.forall_mem_cons.2 ⟨later'.good good, goods⟩, ?_,
      List.forall_mem_cons.2 ⟨new, fun u hu id hid => Nat.le_trans later.next (news u hu id hid)⟩⟩
    rw [List.map_cons, List.map_cons, heqs, later'.read good, heq]

theorem succeeds_unifyAt {env : Env} (hdef : ∀ t, env.expand t = none) (span : Span)
    {expected actual : Ty} (hexpected : g.Good expected) (hactual : g.Good actual)
    (h : g.read expected = g.read actual) :
    g.Succeeds (unifyAt env span expected actual) fun _ _ => True := by
  obtain ⟨s, hunify, resolved, firstOrder, solves, holds⟩ := exists_unify hdef g.resolved
    g.firstOrder g.solves hexpected.firstOrder hactual.firstOrder h
  have below : s.Below g.next := g.below.evolve hdef (Subst.evolves_unify hunify) g.resolved
    g.firstOrder.records (by simp [hexpected.below, hactual.below])
  refine .getSubst ?_
  rw [hunify]
  exact ⟨(), g.advance s (.solved s :: g.progress.history) resolved firstOrder solves below
    fun ω hω => holds ω (g.holds ω hω) (hexpected.admits ω hω) (hactual.admits ω hω), rfl,
    ⟨Nat.le_refl _, fun _ _ => rfl, rfl⟩, trivial⟩

/-! ## Instances -/

structure SchemeGood (g : Stage) (σ : Scheme) : Prop where
  firstOrder : σ.ty.FirstOrder
  bound : ∀ v ∈ σ.vars, v.id < g.next
  below : Within (· < g.next) σ.ty
  admits : ∀ ω, g.watched ω → ∀ v ∈ σ.ty.vars, σ.binds v.id = false → ω.Admits g.solution v

theorem Later.schemeGood {g' : Stage} (h : Later g g') {σ : Scheme} (hσ : g.SchemeGood σ) :
    g'.SchemeGood σ where
  firstOrder := hσ.firstOrder
  bound v hv := Nat.lt_of_lt_of_le (hσ.bound v hv) h.next
  below := within_iff.2 fun v hv => Nat.lt_of_lt_of_le (within_iff.1 hσ.below v hv) h.next
  admits ω hω v hv free := by
    rw [h.watched] at hω
    exact h.admits (within_iff.1 hσ.below v hv) (hσ.admits ω hω v hv free)

section Instance

variable {σ : Scheme} {types : List Ty}

theorem good_instance (hσ : g.SchemeGood σ) (htypes : ∀ u ∈ types, g.Good u)
    (hlength : σ.vars.length = types.length)
    (apart : ∀ p ∈ σ.vars, ∀ u ∈ types, u.mentions p.id = false) :
    g.Good ((Subst.ofPairs (σ.vars.zip types)).apply σ.ty) := by
  have free {v : TypeVar} (hv : ∀ p ∈ σ.vars, p.id ≠ v.id) : σ.binds v.id = false := by
    refine Bool.eq_false_iff.2 fun hbinds => ?_
    obtain ⟨p, hp, hid⟩ := Scheme.binds_iff.1 hbinds
    exact hv p hp hid
  refine ⟨?_, within_iff.2 fun v hv => ?_, fun ω hω => allVars_iff.2 fun v hv => ?_⟩
  · rw [Subst.apply_ofPairs apart]
    have hereditary : Hereditary anyId anyLevel Ty.FirstOrder := hereditary_firstOrder
    refine hereditary.mapVars hσ.firstOrder fun v _ => ?_
    cases hget : (Subst.ofPairs (σ.vars.zip types)).types.get? v.id with
    | none => exact ⟨.var trivial, .var trivial⟩
    | some u =>
      obtain ⟨pair, hpair, -, rfl⟩ := Subst.mem_of_get?_ofPairs hget
      exact (htypes _ (List.of_mem_zip hpair).2).firstOrder
  · rcases Subst.mem_vars_instance apart hlength hv with ⟨u, hu, hv⟩ | ⟨hv, -⟩
    · exact within_iff.1 (htypes u hu).below v hv
    · exact within_iff.1 hσ.below v hv
  · rcases Subst.mem_vars_instance apart hlength hv with ⟨u, hu, hv⟩ | ⟨hv, hnew⟩
    · exact allVars_iff.1 ((htypes u hu).admits ω hω) v hv
    · exact hσ.admits ω hω v hv (free hnew)

theorem read_instance {η : Nat → Ty} (hlength : σ.vars.length = types.length)
    (apart : ∀ p ∈ σ.vars, ∀ u ∈ types, u.mentions p.id = false)
    (htypes : types.map g.read = σ.vars.map fun v => (η v.id).erase)
    (hη : ∀ v ∈ σ.ty.vars, σ.binds v.id = false → η v.id = g.solution v.id) :
    g.read ((Subst.ofPairs (σ.vars.zip types)).apply σ.ty) = (σ.ty.subst η).erase := by
  rw [read, Subst.subst_instance apart, erase_subst]
  refine subst_congr fun v hv => ?_
  by_cases hbinds : σ.binds v.id = true
  · obtain ⟨p, hp, hid⟩ := Scheme.binds_iff.1 hbinds
    obtain ⟨u, -, hget⟩ := Subst.exists_filling apart hlength hp
    rw [hid] at hget
    obtain ⟨pair, hpair, hid', rfl⟩ := Subst.mem_of_get?_ofPairs hget
    rw [Subst.image_bound hget, subst_erase, ← hid']
    have paired : List.Forall₂ (· = ·) (types.map g.read)
        (σ.vars.map fun v => (η v.id).erase) := by
      rw [List.forall₂_eq_eq_eq]
      exact htypes
    rw [List.forall₂_map_left_iff, List.forall₂_map_right_iff] at paired
    exact (List.forall₂_iff_zip.1 paired.flip).2 hpair
  · have free : σ.binds v.id = false := by simpa using hbinds
    have unbound : ∀ p ∈ σ.vars, p.id ≠ v.id := fun p hp hid =>
      hbinds (Scheme.binds_iff.2 ⟨p, hp, hid⟩)
    rw [Subst.image_ofPairs unbound, subst_var, hη v hv free, g.erased]

theorem succeeds_instantiate {level : Nat} (above : g.Above level) (hσ : g.SchemeGood σ)
    {η : Nat → Ty} (hη : ∀ v ∈ σ.ty.vars, σ.binds v.id = false → η v.id = g.solution v.id) :
    g.Succeeds (instantiate σ level) fun t g' => g'.Good t ∧ g'.read t = (σ.ty.subst η).erase := by
  have fresh := succeeds_freshList above (σ.vars.map fun v => η v.id)
  rw [List.length_map] at fresh
  refine fresh.bind fun types g₁ later₁ ⟨good, heq, new⟩ => ?_
  refine (succeeds_log _).bind fun _ g₂ later₂ _ => .pure ?_
  have later := later₁.trans later₂
  have hlength : σ.vars.length = types.length := by
    simpa using (congrArg List.length heq).symm
  have apart : ∀ p ∈ σ.vars, ∀ u ∈ types, u.mentions p.id = false := fun p hp u hu =>
    Bool.eq_false_iff.2 fun hmem => absurd (hσ.bound p hp) (Nat.not_lt.2 (new u hu _ hmem))
  refine ⟨good_instance (later.schemeGood hσ) (fun u hu => later₂.good (good u hu)) hlength apart,
    read_instance hlength apart ?_ fun v hv free => ?_⟩
  · rw [List.map_congr_left fun u hu => later₂.read (good u hu), heq, List.map_map]
    rfl
  · rw [hη v hv free, later.agree _ (within_iff.1 hσ.below v hv)]

end Instance

end Stage

end Polytype
