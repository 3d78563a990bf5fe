import Polytype.Proofs.Subst.Omission

/-!
# Worlds

A world is what inference works on together with marks that say what each variable is for. Live
variables may occur in the types at hand; their bindings and fields mention live variables only.
Retired variables are quantified for good, or are parameters of a definition, and stay unbound. A
variable drawn since `start` was born at some level, and all its occurrences are at levels between
its current level and that one. What has not been drawn yet occurs nowhere. In a plain world there
are no records.

`Later w w'` says how a world may grow: new variables may be live or retired, live variables may be
bound and lowered, and all others are left alone. If the levels of all live variables are kept, and
nothing leads to a higher level, that stays so (`Strict`).
-/

namespace Polytype

open Ty

structure Marks where
  plain : Prop
  start : Nat
  past : List Milestone
  birth : Nat → Nat
  live : Nat → Prop
  retired : Nat → Prop

namespace Marks

variable (g : Marks) (s : Subst)

/-- The current level of a variable. -/
def level (id : Nat) : Nat := (s.levels.get? id).getD (g.birth id)

def Knows (v : TypeVar) : Prop :=
  g.live v.id ∧ (g.start ≤ v.id → g.level s v.id ≤ v.level ∧ v.level ≤ g.birth v.id)

def Good (t : Ty) : Prop := AllVars (g.Knows s) t ∧ (g.plain → Recordless t)

variable {g s}

theorem hereditary_good : Hereditary g.live (g.level s) (g.Good s) := by
  refine (hereditary_allVars (fun _ h => h.1) ?_).and
    (hereditary_recordless.imp g.plain)
  intro v l h hlo hl
  exact ⟨h.1, fun hid => ⟨hlo, Nat.le_trans hl (h.2 hid).2⟩⟩

theorem Good.within {t : Ty} (h : g.Good s t) : Within g.live t :=
  allVars_iff.2 fun v hv => (allVars_iff.1 h.1 v hv).1

theorem level_eq {id l : Nat} (h : s.levels.get? id = some l) : g.level s id = l := by
  simp [level, h]

theorem levelsAbove_level : s.LevelsAbove (g.level s) := fun _ _ h => Nat.le_of_eq (level_eq h)

theorem level_le {id : Nat} : s.level g.birth id ≤ g.level s id := by
  cases h : s.levels.get? id with
  | none => simp [level, h, Subst.level_of_none h]
  | some l =>
    rw [level_eq h, Subst.level_of_some h]
    exact Nat.min_le_left _ _

end Marks

/-! A world may start at any point. Then its whole history is past. -/

theorem Progress.history_start (p : Progress) : p.history = [] ++ p.history := rfl

theorem Progress.unseen_start (p : Progress) :
    ∀ m ∈ ([] : List Milestone), ∀ id, p.next ≤ id → m.Omits id := by simp

/-- What inference works on, with marks that fit. -/
structure World extends Marks where
  progress : Progress
  recent : List Milestone
  history : progress.history = recent ++ past
  resolved : progress.subst.Resolved
  keeps : progress.subst.Keeps live (toMarks.Good progress.subst)
  unrecorded : plain → ∀ id, live id → progress.subst.records.get? id = none
  fresh : ∀ id, progress.next ≤ id → progress.subst.Omits id
  unseen : ∀ m ∈ recent, ∀ id, progress.next ≤ id → m.Omits id
  capped : ∀ id l, start ≤ id → progress.subst.levels.get? id = some l → l ≤ birth id
  start_le : start ≤ progress.next
  live_lt : ∀ id, live id → id < progress.next
  retired_lt : ∀ id, retired id → id < progress.next
  apart : ∀ id, retired id → ¬live id
  unbound : ∀ id, retired id → progress.subst.isBound id = false
  guarded : ∀ m ∈ recent, m.Guarded plain live retired progress.next progress.subst
  sound : ∀ m ∈ recent, m.RespectedBy plain m.subst
  respected : recent.Pairwise fun later m => m.RespectedBy plain later.subst

namespace World

open Subst (isBound_eq_false)

abbrev subst (w : World) : Subst := w.progress.subst

abbrev next (w : World) : Nat := w.progress.next

theorem not_live_of_next (w : World) {id : Nat} (h : w.next ≤ id) : ¬w.live id :=
  fun hlive => absurd (w.live_lt id hlive) (Nat.not_lt.2 h)

abbrev levelOf (w : World) : Nat → Nat := w.toMarks.level w.subst

abbrev Good (w : World) : Ty → Prop := w.toMarks.Good w.subst

def Asks (w : World) (id : Nat) : Prop :=
  ∀ fields, w.subst.records.get? id = some fields → w.Good (.record fields)

/-- The levels of all live variables are kept, and nothing leads to a higher level. -/
structure Strict (w : World) : Prop where
  start : ∀ id, w.live id → w.start ≤ id
  disciplined : w.subst.Disciplined w.birth

structure Later (w w' : World) : Prop where
  plain : w'.plain = w.plain
  start : w'.start = w.start
  past : w'.past = w.past
  next : w.next ≤ w'.next
  birth : ∀ id < w.next, w'.birth id = w.birth id
  live : ∀ id, w.live id → w'.live id
  live_new : ∀ id, w'.live id → w.live id ∨ w.next ≤ id
  retired : ∀ id, w.retired id → w'.retired id
  levels : ∀ id < w.next, w.start ≤ id → w'.levelOf id ≤ w.levelOf id
  solves : Subst.Solves w'.subst.image w.subst
  frame : ∀ id < w.next, ¬w.live id → w'.subst.isBound id = w.subst.isBound id
  unlowered : ∀ id < w.next, ¬w.live id → w'.subst.levels.get? id = w.subst.levels.get? id
  omits : ∀ id < w.next, ¬w.live id → w.subst.Omits id → w'.subst.Omits id
  asks : ∀ id, w.live id → w.Asks id → w'.Asks id
  strict : w.Strict → w'.Strict
  recent : ∃ new, w'.recent = new ++ w.recent ∧ ∀ m ∈ new, m.Above w.live w.next ∧
    ∀ id < w.next, ¬w.live id → w.subst.Omits id → m.Omits id

theorem Later.refl (w : World) : Later w w where
  plain := rfl
  start := rfl
  past := rfl
  next := Nat.le_refl _
  birth _ _ := rfl
  live _ h := h
  live_new _ h := .inl h
  retired _ h := h
  levels _ _ _ := Nat.le_refl _
  solves := w.resolved.image_idem
  frame _ _ _ := rfl
  unlowered _ _ _ := rfl
  omits _ _ _ h := h
  asks _ _ h := h
  strict h := h
  recent := ⟨[], rfl, by simp⟩

theorem Later.not_live {w w' : World} (h : Later w w') {id : Nat} (hid : id < w.next)
    (hlive : ¬w.live id) : id < w'.next ∧ ¬w'.live id :=
  ⟨Nat.lt_of_lt_of_le hid h.next, fun hid' =>
    (h.live_new id hid').elim hlive fun hnew => absurd hid (Nat.not_lt.2 hnew)⟩

theorem Later.trans {w w' w'' : World} (h : Later w w') (h' : Later w' w'') : Later w w'' where
  plain := h'.plain.trans h.plain
  start := h'.start.trans h.start
  past := h'.past.trans h.past
  next := Nat.le_trans h.next h'.next
  birth id hid := (h'.birth id (Nat.lt_of_lt_of_le hid h.next)).trans (h.birth id hid)
  live id hid := h'.live id (h.live id hid)
  live_new id hid := by
    rcases h'.live_new id hid with hid | hid
    · exact h.live_new id hid
    · exact .inr (Nat.le_trans h.next hid)
  retired id hid := h'.retired id (h.retired id hid)
  levels id hid hstart :=
    Nat.le_trans (h'.levels id (Nat.lt_of_lt_of_le hid h.next) (h.start ▸ hstart))
      (h.levels id hid hstart)
  solves := h'.solves.trans h.solves
  frame id hid hlive := by
    obtain ⟨hid', hlive'⟩ := h.not_live hid hlive
    exact (h'.frame id hid' hlive').trans (h.frame id hid hlive)
  unlowered id hid hlive := by
    obtain ⟨hid', hlive'⟩ := h.not_live hid hlive
    exact (h'.unlowered id hid' hlive').trans (h.unlowered id hid hlive)
  omits id hid hlive omits := by
    obtain ⟨hid', hlive'⟩ := h.not_live hid hlive
    exact h'.omits id hid' hlive' (h.omits id hid hlive omits)
  asks id hid asks := h'.asks id (h.live id hid) (h.asks id hid asks)
  strict strict := h'.strict (h.strict strict)
  recent := by
    obtain ⟨new, heq, hnew⟩ := h.recent
    obtain ⟨newer, heq', hnewer⟩ := h'.recent
    refine ⟨newer ++ new, by rw [heq', heq, List.append_assoc], fun m hm => ?_⟩
    rcases List.mem_append.1 hm with hm | hm
    · refine ⟨(hnewer m hm).1.mono h.next h.live_new, fun id hid hlive omits => ?_⟩
      obtain ⟨hid', hlive'⟩ := h.not_live hid hlive
      exact (hnewer m hm).2 id hid' hlive' (h.omits id hid hlive omits)
    · exact hnew m hm

section Later

variable {w w' : World} (h : Later w w')

include h in
theorem Later.knows {v : TypeVar} (hv : w.Knows w.subst v) : w'.Knows w'.subst v := by
  have hid := w.live_lt _ hv.1
  refine ⟨h.live _ hv.1, fun hstart => ?_⟩
  have hstart : w.start ≤ v.id := h.start ▸ hstart
  have bounds := hv.2 hstart
  exact ⟨Nat.le_trans (h.levels _ hid hstart) bounds.1, (h.birth _ hid).symm ▸ bounds.2⟩

include h in
theorem Later.good {t : Ty} (ht : w.Good t) : w'.Good t :=
  ⟨allVars_iff.2 fun v hv => h.knows (allVars_iff.1 ht.1 v hv), fun plain => ht.2 (h.plain ▸ plain)⟩

end Later

theorem good_apply {w : World} {t : Ty} (ht : w.Good t) : w.Good (w.subst.apply t) :=
  w.keeps.apply Marks.hereditary_good Marks.levelsAbove_level ht

/-! ## Drawing variables -/

section Draw

variable (w : World) (count level : Nat) (keep : Prop)

/-- The marks after drawing variables at a level, which are live if they are kept and retired at once
if not. -/
def drawMarks : Marks :=
  { w.toMarks with
    birth := fun id => if w.next ≤ id then level else w.birth id
    live := fun id => w.live id ∨ keep ∧ w.next ≤ id ∧ id < w.next + count
    retired := fun id => w.retired id ∨ ¬keep ∧ w.next ≤ id ∧ id < w.next + count }

variable {w count level keep}

theorem drawMarks_birth {id : Nat} (h : id < w.next) :
    (w.drawMarks count level keep).birth id = w.birth id := by
  simp [drawMarks, Nat.not_le.2 h]

theorem drawMarks_level {id : Nat} (h : id < w.next) :
    (w.drawMarks count level keep).level w.subst id = w.levelOf id := by
  simp [levelOf, Marks.level, drawMarks_birth h]

theorem drawMarks_good {t : Ty} (ht : w.Good t) :
    (w.drawMarks count level keep).Good w.subst t := by
  refine ⟨allVars_iff.2 fun v hv => ?_, ht.2⟩
  have known := allVars_iff.1 ht.1 v hv
  have hid := w.live_lt _ known.1
  exact ⟨.inl known.1, fun hstart => by
    rw [drawMarks_level hid, drawMarks_birth hid]
    exact known.2 hstart⟩

variable (w count level keep)

def draw : World where
  toMarks := w.drawMarks count level keep
  progress := { w.progress with next := w.next + count }
  recent := w.recent
  history := w.history
  resolved := w.resolved
  keeps := by
    refine ⟨fun {id t} hid ht => ?_, fun {id fields} hid unbound hf => ?_⟩
    · rcases hid with hid | ⟨-, hid, -⟩
      · exact drawMarks_good (w.keeps.types hid ht)
      · exact absurd (isBound_eq_false.1 (w.fresh id hid).unbound) (by simp [ht])
    · rcases hid with hid | ⟨-, hid, -⟩
      · exact drawMarks_good (w.keeps.records hid unbound hf)
      · exact absurd (w.fresh id hid).unrecorded (by simp [hf])
  unrecorded plain id hid := by
    rcases hid with hid | ⟨-, hid, -⟩
    · exact w.unrecorded plain id hid
    · exact (w.fresh id hid).unrecorded
  fresh id hid := w.fresh id (Nat.le_trans (Nat.le_add_right _ _) hid)
  unseen m hm id hid := w.unseen m hm id (Nat.le_trans (Nat.le_add_right _ _) hid)
  capped id l hstart hl := by
    have hid : id < w.next := by
      refine Nat.lt_of_not_le fun hid => ?_
      simp [(w.fresh id hid).unlowered] at hl
    rw [drawMarks_birth hid]
    exact w.capped id l hstart hl
  start_le := Nat.le_trans w.start_le (Nat.le_add_right _ _)
  live_lt id hid := by
    rcases hid with hid | ⟨-, -, hid⟩
    · exact Nat.lt_of_lt_of_le (w.live_lt id hid) (Nat.le_add_right _ _)
    · exact hid
  retired_lt id hid := by
    rcases hid with hid | ⟨-, -, hid⟩
    · exact Nat.lt_of_lt_of_le (w.retired_lt id hid) (Nat.le_add_right _ _)
    · exact hid
  apart id hid hlive := by
    rcases hid with hid | ⟨hdrop, hid, -⟩ <;> rcases hlive with hlive | ⟨hkeep, hlive, -⟩
    · exact w.apart id hid hlive
    · exact absurd (w.retired_lt id hid) (Nat.not_lt.2 hlive)
    · exact absurd (w.live_lt id hlive) (Nat.not_lt.2 hid)
    · exact hdrop hkeep
  unbound id hid := by
    rcases hid with hid | ⟨-, hid, -⟩
    · exact w.unbound id hid
    · exact (w.fresh id hid).unbound
  guarded m hm := by
    refine (w.guarded m hm).mono (fun _ => .inl) (Nat.le_add_right _ _) (fun id hid => ?_)
      fun _ _ _ h => h
    exact hid.imp_right fun h => h.2.1
  sound := w.sound
  respected := w.respected

theorem later_draw : Later w (w.draw count level keep) where
  plain := rfl
  start := rfl
  past := rfl
  next := Nat.le_add_right _ _
  birth _ hid := drawMarks_birth hid
  live _ h := .inl h
  live_new _ h := h.imp_right fun h => h.2.1
  retired _ h := .inl h
  levels _ hid _ := Nat.le_of_eq (drawMarks_level hid)
  solves := w.resolved.image_idem
  frame _ _ _ := rfl
  unlowered _ _ _ := rfl
  omits _ _ _ h := h
  asks _ _ asks fields hf := drawMarks_good (asks fields hf)
  strict strict := by
    refine ⟨fun id hid => ?_, strict.disciplined.of_omits fun id => ?_⟩
    · rcases hid with hid | ⟨-, hid, -⟩
      · exact strict.start id hid
      · exact Nat.le_trans w.start_le hid
    · rcases Nat.lt_or_ge id w.next with hid | hid
      · exact .inl (drawMarks_birth hid)
      · exact .inr (w.fresh id hid)
  recent := ⟨[], rfl, by simp⟩

variable {w count level keep}

theorem levelOf_draw {id : Nat} (hid : w.next ≤ id) :
    (w.draw count level keep).levelOf id = level := by
  have birth : (w.draw count level keep).birth id = level := if_pos hid
  have none : (w.draw count level keep).subst.levels.get? id = none := (w.fresh id hid).unlowered
  simp [levelOf, Marks.level, none, birth]

theorem good_draw {id : Nat} (hid : w.next ≤ id) (hlt : id < w.next + count) :
    (w.draw count level True).Good (.var ⟨id, level⟩) := by
  have birth : (w.draw count level True).birth id = level := if_pos hid
  exact ⟨.var ⟨.inr ⟨trivial, hid, hlt⟩,
    fun _ => ⟨Nat.le_of_eq (levelOf_draw hid), Nat.le_of_eq birth.symm⟩⟩, fun _ => .var trivial⟩

end Draw

/-! ## Solving -/

/-- What definitions may do: the type that a type stands for has no other variables. -/
structure Defines (w : World) (definition : Ty → Option Ty) : Prop where
  ids : ∀ t t', definition t = some t' → ∀ v ∈ t'.vars, t.mentions v.id = true
  vars : ∀ t t', Within w.live t → definition t = some t' → ∀ v ∈ t'.vars, v ∈ t.vars
  between : ∀ (s : Subst) t t', AllVars (s.Between w.birth) t → definition t = some t' →
    AllVars (s.Between w.birth) t'
  plain : w.plain → ∀ t, definition t = none

theorem Strict.between {w : World} (strict : w.Strict) {v : TypeVar} (hv : w.Knows w.subst v) :
    w.subst.Between w.birth v :=
  have levels := hv.2 (strict.start _ hv.1)
  ⟨Nat.le_trans Marks.level_le levels.1, levels.2⟩

section Evolve

variable {w : World} {definition : Ty → Option Ty} {inputs : List Ty} {s' : Subst}
  (h : Subst.Evolves definition inputs w.subst s') (hdef : w.Defines definition)
  (hinputs : ∀ t ∈ inputs, w.Good t)

include hdef in
theorem Defines.good (t t' : Ty) (ht : w.toMarks.Good s' t) (h : definition t = some t') :
    w.toMarks.Good s' t' := by
  refine ⟨allVars_iff.2 fun v hv => ?_, fun plain => ?_⟩
  · exact allVars_iff.1 ht.1 v (hdef.vars t t' ht.within h v hv)
  · simp [hdef.plain plain] at h

include h hdef hinputs in
theorem evolve_levels :
    (∀ id, w.start ≤ id → w.toMarks.level s' id ≤ w.levelOf id) ∧
      (∀ id l, w.start ≤ id → s'.levels.get? id = some l → l ≤ w.birth id) ∧
      ∀ id, ¬w.live id → s'.levels.get? id = w.subst.levels.get? id := by
  -- No level rises above the birth of its variable, so new entries lower it.
  let N : TypeVar → Prop := fun v => w.live v.id ∧ (w.start ≤ v.id → v.level ≤ w.birth v.id)
  have hN : Hereditary w.live anyLevel (AllVars N) :=
    hereditary_allVars (fun _ h => h.1) fun v l h _ hl =>
      ⟨h.1, fun hid => Nat.le_trans hl (h.2 hid)⟩
  have weaken : ∀ t, w.Good t → AllVars N t := fun t ht =>
    allVars_iff.2 fun v hv =>
      have known := allVars_iff.1 ht.1 v hv
      ⟨known.1, fun hid => (known.2 hid).2⟩
  have ext := h.extension hN (fun t t' ht heq => allVars_iff.2 fun v hv =>
      allVars_iff.1 ht v (hdef.vars t t'
        (allVars_iff.2 fun u hu => (allVars_iff.1 ht u hu).1) heq v hv))
    (Subst.levelsAbove_zero s') w.resolved (w.keeps.mono weaken)
    fun t ht => weaken t (hinputs t ht)
  refine ⟨fun id hid => ?_, fun id l hid hl => ?_, fun id hid => ?_⟩
  · cases hl : w.subst.levels.get? id with
    | some l =>
      obtain ⟨l', hle, hget⟩ := ext.lowered id l hl
      calc w.toMarks.level s' id = l' := Marks.level_eq hget
        _ ≤ l := hle
        _ = w.levelOf id := (Marks.level_eq hl).symm
    | none =>
      cases hl' : s'.levels.get? id with
      | none => simp [levelOf, Marks.level, hl, hl']
      | some l =>
        rcases ext.origin id l hl' with hsome | ⟨v, hv, rfl, hlt⟩
        · simp [hl] at hsome
        · have bound := (everywhere_var.1 hv).2 hid
          simp only [levelOf, Marks.level, hl, hl', Option.getD_some, Option.getD_none]
          omega
  · rcases ext.origin id l hl with hsome | ⟨v, hv, rfl, hlt⟩
    · exact w.capped id l hid hsome
    · have bound := (everywhere_var.1 hv).2 hid
      omega
  · cases hl : s'.levels.get? id with
    | none =>
      cases hold : w.subst.levels.get? id with
      | none => rfl
      | some l =>
        obtain ⟨l', -, hget⟩ := ext.lowered id l hold
        simp [hl] at hget
    | some l =>
      rcases ext.origin id l hl with hsome | ⟨v, hv, rfl, -⟩
      · exact hsome.symm
      · exact absurd (everywhere_var.1 hv).1 hid

include h hdef hinputs in
theorem evolve_good {t : Ty} (ht : w.Good t) : w.toMarks.Good s' t := by
  obtain ⟨levels, -, -⟩ := evolve_levels h hdef hinputs
  refine ⟨allVars_iff.2 fun v hv => ?_, ht.2⟩
  have known := allVars_iff.1 ht.1 v hv
  exact ⟨known.1, fun hid => ⟨Nat.le_trans (levels _ hid) (known.2 hid).1, (known.2 hid).2⟩⟩

include h hdef hinputs in
theorem evolve_extends : w.subst.Extends w.live (w.toMarks.Good s') s' :=
  h.extension Marks.hereditary_good hdef.good Marks.levelsAbove_level w.resolved
    (w.keeps.mono fun _ => evolve_good h hdef hinputs)
    fun t ht => evolve_good h hdef hinputs (hinputs t ht)

include h hdef hinputs in
theorem evolve_keeps {C : Nat → Prop} (hlive : ∀ id, w.live id → C id)
    (keeps : w.subst.Keeps C (Within C)) : s'.Keeps C (Within C) := by
  refine (h.extension (hereditary_within C) (fun t t' ht heq => ?_) (Subst.levelsAbove_zero s')
    w.resolved keeps fun t ht => ?_).keeps
  · refine within_iff.2 fun v hv => ?_
    obtain ⟨u, hu, hid⟩ := mentions_iff.1 (hdef.ids t t' heq v hv)
    rw [← hid]
    exact within_iff.1 ht u hu
  · exact within_iff.2 fun v hv => hlive _ (within_iff.1 (hinputs t ht).within v hv)

include h hdef hinputs in
theorem evolve_omits {id : Nat} (hlive : ¬w.live id) (omits : w.subst.Omits id) : s'.Omits id := by
  have away {t : Ty} (ht : w.Good t) : t.mentions id = false :=
    within_ne.1 (within_iff.2 fun v hv heq => hlive (heq ▸ within_iff.1 ht.within v hv))
  refine h.omits w.resolved (fun t t' ht heq => Bool.eq_false_iff.2 fun hmem => ?_)
    (fun t ht => away (hinputs t ht)) omits
  obtain ⟨v, hv, rfl⟩ := mentions_iff.1 hmem
  simp [hdef.ids t t' heq v hv] at ht

include h hdef hinputs in
theorem evolve_asks {id : Nat} (hid : w.live id) (asks : w.Asks id) {fields : List (String × Ty)}
    (hf : s'.records.get? id = some fields) : w.toMarks.Good s' (.record fields) := by
  have ext := evolve_extends h hdef hinputs
  have stale : w.subst.Stale (· = id) (w.toMarks.Good s') := by
    rintro _ fields rfl - hf
    exact evolve_good h hdef hinputs (asks fields hf)
  cases hb : s'.isBound id with
  | false => exact ext.keeps.records hid hb hf
  | true => exact ext.stale stale id fields rfl hb hf

include h hdef hinputs in
theorem evolve_guarded {m : Milestone} (hm : m ∈ w.recent) :
    m.Guarded w.plain w.live w.retired w.next s' :=
  (w.guarded m hm).mono (fun _ h => h) (Nat.le_refl _) (fun _ h => .inl h)
    fun _ hlive _ keeps => evolve_keeps h hdef hinputs hlive keeps

include h hdef hinputs in
theorem evolve_unbound {id : Nat} (hid : w.retired id) : s'.isBound id = false := by
  rw [(evolve_extends h hdef hinputs).frame id (w.apart id hid)]
  exact w.unbound id hid

variable (w s')

def evolve : World where
  toMarks := w.toMarks
  progress := { w.progress with subst := s', history := .solved s' :: w.progress.history }
  recent := .solved s' :: w.recent
  history := by simp [w.history]
  resolved := (evolve_extends h hdef hinputs).resolved
  keeps := (evolve_extends h hdef hinputs).keeps
  unrecorded plain id hid := by
    cases hf : s'.records.get? id with
    | none => rfl
    | some fields =>
      have good := evolve_asks h hdef hinputs hid
        (fun fields hf => by simp [w.unrecorded plain id hid] at hf) hf
      exact (everywhere_record.1 (good.2 plain)).1.elim
  fresh id hid := evolve_omits h hdef hinputs (w.not_live_of_next hid) (w.fresh id hid)
  unseen := List.forall_mem_cons.2
    ⟨fun id hid => evolve_omits h hdef hinputs (w.not_live_of_next hid) (w.fresh id hid), w.unseen⟩
  capped := (evolve_levels h hdef hinputs).2.1
  start_le := w.start_le
  live_lt := w.live_lt
  retired_lt := w.retired_lt
  apart := w.apart
  unbound _ := evolve_unbound h hdef hinputs
  guarded m hm := by
    rcases List.mem_cons.1 hm with rfl | hm
    · trivial
    · exact evolve_guarded h hdef hinputs hm
  sound := List.forall_mem_cons.2 ⟨trivial, w.sound⟩
  respected := by
    refine .cons (fun m hm => ?_) w.respected
    exact (evolve_guarded h hdef hinputs hm).respected (evolve_extends h hdef hinputs).resolved
      fun _ => evolve_unbound h hdef hinputs

theorem later_evolve : Later w (w.evolve s' h hdef hinputs) where
  plain := rfl
  start := rfl
  past := rfl
  next := Nat.le_refl _
  birth _ _ := rfl
  live _ h := h
  live_new _ h := .inl h
  retired _ h := h
  levels id _ hid := (evolve_levels h hdef hinputs).1 id hid
  solves := (evolve_extends h hdef hinputs).solves
  frame id _ hlive := (evolve_extends h hdef hinputs).frame id hlive
  unlowered id _ hlive := (evolve_levels h hdef hinputs).2.2 id hlive
  omits id _ hlive omits := evolve_omits h hdef hinputs hlive omits
  asks id hid asks fields hf := evolve_asks h hdef hinputs hid asks hf
  strict strict := by
    refine ⟨strict.start, h.disciplined hdef.between strict.disciplined fun t ht => ?_⟩
    exact allVars_iff.2 fun v hv => strict.between (allVars_iff.1 (hinputs t ht).1 v hv)
  recent := by
    refine ⟨[.solved s'], rfl, fun m hm => ?_⟩
    obtain rfl := List.mem_singleton.1 hm
    exact ⟨trivial, fun id _ hlive omits => evolve_omits h hdef hinputs hlive omits⟩

end Evolve

/-! ## Logging -/

def touch (w : World) (failed : List String) (events : Array Event) : World :=
  { w with progress := { w.progress with failed, events } }

theorem later_touch (w : World) (failed : List String) (events : Array Event) :
    Later w (w.touch failed events) :=
  { Later.refl w with strict := fun strict => ⟨strict.start, strict.disciplined⟩ }

end World

end Polytype
