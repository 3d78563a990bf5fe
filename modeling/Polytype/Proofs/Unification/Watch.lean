import Polytype.Proofs.Unification.MostGeneral

/-!
# Levels along a guided run

A solution `δ` says what each variable stands for in the end. A watch is kept on the variables that
come up while the value of a `let` is inferred: each of them stands for a type of allowed variables
alone (`Confines`), or was drawn since the watch began and is above its floor. A variable that is
bound lowers what it is bound to; if it is confined then so is all that it lowers, and if not it is
itself above the floor. So a run of unification that the solution guides keeps a watch (`Holds`).
-/

namespace Polytype

open Ty Goal

namespace Subst

variable {s : Subst} {t : Ty} {lo : Nat → Nat}

theorem mem_vars_of_mem_reachable (hrecords : ∀ id, s.records.get? id = none) {v : TypeVar}
    (h : v ∈ s.reachable t) : v ∈ (s.apply t).vars :=
  forall_reachable (fun _ hfields => by simp [hrecords] at hfields) (fun _ hv => hv) v h

theorem levelsAbove_lowest {s' : Subst} {n : Nat}
    (hlevels : s'.levels = lowest s.levels (s.loweredLevels t n)) (hs : s.LevelsAbove lo)
    (hrecords : ∀ id, s.records.get? id = none) (h : ∀ v ∈ (s.apply t).vars, lo v.id ≤ n) :
    s'.LevelsAbove lo := by
  intro id l hl
  rw [hlevels] at hl
  rcases lowest_origin hl with hold | new
  · exact hs id l hold
  · obtain ⟨heq, v, hv, hid, -⟩ := mem_loweredLevels new
    obtain rfl : l = n := heq
    obtain rfl : v.id = id := hid
    exact h v (mem_vars_of_mem_reachable hrecords hv)

end Subst

/-- What is watched: the variables allowed in the end, the floor, and the first variable drawn. -/
structure Watch where
  allowed : Nat → Prop
  floor : Nat
  start : Nat

namespace Watch

variable (ω : Watch) (δ : Nat → Ty)

def Confines (id : Nat) : Prop := ∀ x, (δ id).mentions x = true → ω.allowed x

/-- The variable may come up. -/
def Admits (v : TypeVar) : Prop := ω.Confines δ v.id ∨ ω.start ≤ v.id ∧ ω.floor < v.level

def Covers (id : Nat) : Prop := ω.Confines δ id ∨ ω.start ≤ id

open Classical in
noncomputable def bottom (id : Nat) : Nat :=
  if ω.start ≤ id ∧ ¬ω.Confines δ id then ω.floor + 1 else 0

structure Holds (s : Subst) : Prop where
  levels : s.LevelsAbove (ω.bottom δ)
  keeps : s.Keeps (ω.Covers δ) (AllVars (ω.Admits δ))

variable {ω δ}

theorem bottom_of_confines {id : Nat} (h : ω.Confines δ id) : ω.bottom δ id = 0 :=
  if_neg fun hid => hid.2 h

theorem bottom_of_lt {id : Nat} (h : id < ω.start) : ω.bottom δ id = 0 :=
  if_neg fun hid => absurd h (Nat.not_lt.2 hid.1)

theorem bottom_le (id : Nat) : ω.bottom δ id ≤ ω.floor + 1 := by
  unfold bottom
  split
  · exact Nat.le_refl _
  · exact Nat.zero_le _

theorem hereditary_admits :
    Hereditary (ω.Covers δ) (ω.bottom δ) (AllVars (ω.Admits δ)) := by
  refine hereditary_allVars (fun v hv => hv.imp_right And.left) fun v l hv hlo _ => ?_
  by_cases confined : ω.Confines δ v.id
  · exact .inl confined
  · have hstart := (hv.resolve_left confined).1
    rw [bottom, if_pos ⟨hstart, confined⟩] at hlo
    exact .inr ⟨hstart, hlo⟩

theorem Confines.vars {id : Nat} {t : Ty} (h : ω.Confines δ id) (heq : δ id = t.subst δ)
    {v : TypeVar} (hv : v ∈ t.vars) : ω.Confines δ v.id := by
  intro x hx
  refine h x ?_
  rw [heq, mentions_subst]
  exact ⟨v, hv, hx⟩

theorem bottom_le_of_eq {v : TypeVar} {t : Ty} (hv : ω.Admits δ v) (heq : δ v.id = t.subst δ)
    {u : TypeVar} (hu : u ∈ t.vars) : ω.bottom δ u.id ≤ v.level := by
  rcases hv with confined | ⟨-, above⟩
  · rw [bottom_of_confines (confined.vars heq hu)]
    exact Nat.zero_le _
  · exact Nat.le_trans (bottom_le u.id) above

theorem levelsAbove_bind {s : Subst} {v : TypeVar} {t : Ty} (holds : ω.Holds δ s)
    (hrecords : ∀ id, s.records.get? id = none) (hs : s.Resolved) (hv : ω.Admits δ v)
    (ht : s.Settled t) (heq : δ v.id = t.subst δ) : (s.bind v t).LevelsAbove (ω.bottom δ) := by
  refine Subst.levelsAbove_lowest rfl holds.levels hrecords fun w hw => ?_
  obtain ⟨x, rfl, -, hx | ⟨u, hu, t', ht', -⟩⟩ := hs.mem_vars_apply hw
  · simpa using bottom_le_of_eq hv heq hx
  · simp [Subst.isBound_eq_false.1 (within_iff.1 ht u hu)] at ht'

theorem confines_of_get? {s : Subst} (solves : Subst.Solves δ s) {id : Nat} {t : Ty}
    (ht : s.types.get? id = some t) (h : ω.Confines δ id) : AllVars (ω.Admits δ) t := by
  refine allVars_iff.2 fun v hv => .inl (h.vars ?_ hv)
  rw [← solves id, Subst.image_bound ht, subst_erase]

theorem Holds.apply {s : Subst} (holds : ω.Holds δ s) {t : Ty} (ht : AllVars (ω.Admits δ) t) :
    AllVars (ω.Admits δ) (s.apply t) :=
  holds.keeps.apply hereditary_admits holds.levels ht

end Watch

variable {δ : Nat → Ty} {ω : Watch} {definition : Ty → Option Ty}

theorem Guided.holds (hdef : ∀ t, definition t = none) {p : Problem} {final : Subst}
    (h : p.solve definition = .ok final) (guided : Guided δ p.subst p.goals)
    (holds : ω.Holds δ p.subst)
    (proper : ∀ g ∈ p.goals, g.Proper (AllVars (ω.Admits δ)) p.subst) : ω.Holds δ final := by
  refine Problem.solve_induction (motive := fun s goals => Guided δ s goals → ω.Holds δ s →
    (∀ g ∈ goals, g.Proper (AllVars (ω.Admits δ)) s) → ω.Holds δ final) ?_ ?_ ?_ h guided holds
    proper
  · exact fun _ holds _ => holds
  · intro s goal new rest hsplit ih guided holds proper
    obtain ⟨front, others⟩ := List.forall_mem_cons.1 proper
    refine ih (guided.next hdef (.split hsplit)) holds (List.forall_mem_append.2 ⟨?_, others⟩)
    exact hsplit.proper Watch.hereditary_admits (by simp [hdef]) holds.levels guided.resolved
      holds.keeps front
  · intro s goal s' new rest hmove ih guided holds proper
    obtain ⟨front, others⟩ := List.forall_mem_cons.1 proper
    have equation := guided.equated goal List.mem_cons_self
    have levels : s'.LevelsAbove (ω.bottom δ) := by
      cases hmove with
      | expected =>
        exact Watch.levelsAbove_bind holds guided.firstOrder.records guided.resolved
          (everywhere_var.1 front.1.1) front.2.2 equation
      | actual =>
        exact Watch.levelsAbove_bind holds guided.firstOrder.records guided.resolved
          (everywhere_var.1 front.2.1) front.1.2 equation.symm
      | record => exact equation.elim
    obtain ⟨ext, hnew⟩ := hmove.extends Watch.hereditary_admits levels guided.resolved holds.keeps
      front
    refine ih (guided.next hdef (.move hmove)) ⟨levels, ext.keeps⟩ fun g hg => ?_
    obtain ⟨given, hgiven, rfl⟩ := List.mem_map.1 hg
    exact proper_refresh Watch.hereditary_admits levels ext.resolved ext.keeps
      (List.forall_mem_append.2 ⟨hnew, others⟩ given hgiven)

theorem exists_unify (hdef : ∀ t, definition t = none) {s : Subst} {expected actual : Ty}
    (hs : s.Resolved) (hfirst : s.FirstOrder) (solves : Subst.Solves δ s)
    (hexpected : expected.FirstOrder) (hactual : actual.FirstOrder)
    (h : expected.subst δ = actual.subst δ) :
    ∃ s', unify definition expected actual s = .ok s' ∧ s'.Resolved ∧ s'.FirstOrder ∧
      Subst.Solves δ s' ∧ ∀ ω : Watch, ω.Holds δ s → AllVars (ω.Admits δ) expected →
        AllVars (ω.Admits δ) actual → ω.Holds δ s' := by
  have guided := guided_unify hs hfirst solves hexpected hactual h
  obtain ⟨s', hsolve, final⟩ := Guided.solve
    (p := { subst := s, expansions := expansionLimit,
            goals := [.fits false (s.apply expected) (s.apply actual)] }) guided hdef
  refine ⟨s', hsolve, final.resolved, final.firstOrder, final.solves, fun ω holds hwe hwa => ?_⟩
  refine Guided.holds hdef hsolve guided holds fun g hg => ?_
  obtain rfl := List.mem_singleton.1 hg
  exact ⟨⟨holds.apply hwe, hs.settled_apply _⟩, holds.apply hwa, hs.settled_apply _⟩

end Polytype
