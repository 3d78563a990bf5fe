import Polytype.Proofs.Subst.Image
import Polytype.Unification.Solution

namespace Polytype

open Ty Goal

/-- The goals that replace a goal under an unchanged substitution. -/
inductive Splits (definition : Ty → Option Ty) (s : Subst) : Goal → List Goal → Prop
  | var {exact v w} : v.id = w.id → Splits definition s (fits exact (.var v) (.var w)) []
  | const {exact name} : Splits definition s (fits exact (.const name) (.const name)) []
  | app {exact head head' args args'} : head.erase = head'.erase → args.length = args'.length →
      Splits definition s (fits exact (.app head args) (.app head' args'))
        (fitsAll (exact || head.isNamed "Ref") args args')
  | func {exact params params' result result'} : params.length = params'.length →
      Splits definition s (fits exact (.func params result) (.func params' result'))
        (fitsAll exact params' params ++ [fits exact result result'])
  | tuple {exact elements elements'} : elements.length = elements'.length →
      Splits definition s (fits exact (.tuple elements) (.tuple elements'))
        (fitsAll exact elements elements')
  | record {exact fields fields'} :
      Splits definition s (fits exact (.record fields) (.record fields'))
        (fitsFields exact fields fields' fields)
  | known {v field t shape known} : s.recordShape v = some shape →
      Assoc.get? shape field = some known →
      Splits definition s (carries v field t) [fits false known (s.apply t)]
  | expected {exact expected actual t} : definition expected = some t →
      Splits definition s (fits exact expected actual) [fits exact (s.apply t) actual]
  | actual {exact expected actual t} : definition actual = some t →
      Splits definition s (fits exact expected actual) [fits exact expected (s.apply t)]

/-- The substitution that meets a goal, and the goals this adds. -/
inductive Moves (s : Subst) : Goal → Subst → List Goal → Prop
  | expected {exact v t} : t.mentions v.id = false → s.isBound v.id = false →
      Moves s (fits exact (.var v) t) (s.bind v t) (((s.recordShape v).map (demands t)).getD [])
  | actual {exact v t} : t.mentions v.id = false → s.isBound v.id = false →
      Moves s (fits exact t (.var v)) (s.bind v t) (((s.recordShape v).map (demands t)).getD [])
  | record {v field t} :
      ((s.recordShape v).bind fun shape => Assoc.get? shape field) = none →
      Moves s (carries v field t) (s.requireField v field t) []

/-- The variable that a field is carried to although the variable is already bound. -/
def Goal.late (s : Subst) : Goal → List Nat
  | carries v _ _ => if s.isBound v.id then [v.id] else []
  | _ => []

namespace Problem

variable {definition : Ty → Option Ty} {p q : Problem} {rest : List Goal}

inductive Next (definition : Ty → Option Ty) (s : Subst) (goal : Goal) (rest : List Goal) :
    Subst → List Goal → Prop
  | split {new} : Splits definition s goal new → Next definition s goal rest s (new ++ rest)
  | move {s' new} : Moves s goal s' new →
      Next definition s goal rest s' ((new ++ rest).map (refresh s'))

theorem assign_cases {v : TypeVar} {t : Ty} (h : p.assign v t rest = .continued q) :
    t.mentions v.id = false ∧ p.subst.isBound v.id = false ∧ q.subst = p.subst.bind v t ∧
      q.goals = ((((p.subst.recordShape v).map (demands t)).getD []) ++ rest).map
        (refresh (p.subst.bind v t)) := by
  unfold assign at h
  split at h
  · simp at h
  · rename_i free
    simp only [Bool.or_eq_true, not_or, Bool.not_eq_true] at free
    simp only [resume, Outcome.continued.injEq] at h
    subst h
    exact ⟨free.1, free.2, rfl, rfl⟩

theorem split_next {goal : Goal} {new : List Goal} (hnew : Splits definition p.subst goal new)
    (h : p.split new rest = .continued q) : Next definition p.subst goal rest q.subst q.goals := by
  simp only [split, Outcome.continued.injEq] at h
  subst h
  exact .split hnew

theorem pairwise_next {goal : Goal} {new : List Goal} {expected actual : Ty}
    {expectedParts actualParts : List Ty}
    (hnew : expectedParts.length = actualParts.length → Splits definition p.subst goal new)
    (h : p.pairwise expected actual expectedParts actualParts new rest = .continued q) :
    Next definition p.subst goal rest q.subst q.goals := by
  unfold pairwise at h
  split at h
  · exact split_next (hnew ‹_›) h
  · simp at h

theorem expand_next {exact : Bool} {expected actual : Ty}
    (h : p.expand definition exact expected actual rest = .continued q) :
    Next definition p.subst (fits exact expected actual) rest q.subst q.goals := by
  unfold expand at h
  split at h
  · simp at h
  rename_i left _
  split at h
  · rename_i t ht
    exact split_next (p := { p with expansions := left }) (.expected ht) h
  split at h
  · rename_i t ht
    exact split_next (p := { p with expansions := left }) (.actual ht) h
  · simp at h

theorem meet_cases {goal : Goal} (h : p.meet definition goal rest = .continued q) :
    Next definition p.subst goal rest q.subst q.goals := by
  cases goal with
  | impossible clash => simp [meet] at h
  | carries v field t =>
    simp only [meet] at h
    split at h
    · rename_i known hknown
      obtain ⟨shape, hshape, hfield⟩ := Option.bind_eq_some_iff.1 hknown
      exact split_next (.known hshape hfield) h
    · rename_i hnone
      simp only [resume, Outcome.continued.injEq] at h
      subst h
      exact .move (.record hnone)
  | fits exact expected actual =>
    have assigned {v : TypeVar} {t : Ty}
        (hmove : t.mentions v.id = false → p.subst.isBound v.id = false →
          Moves p.subst (fits exact expected actual) (p.subst.bind v t)
            (((p.subst.recordShape v).map (demands t)).getD []))
        (h : p.assign v t rest = .continued q) :
        Next definition p.subst (fits exact expected actual) rest q.subst q.goals := by
      obtain ⟨fresh, unbound, hs, hgoals⟩ := assign_cases h
      rw [hs, hgoals]
      exact .move (hmove fresh unbound)
    simp only [meet] at h
    split at h
    · split at h
      · exact split_next (.var ‹_›) h
      · exact assigned .expected h
    · exact assigned .expected h
    · exact assigned .actual h
    · split at h
      · rename_i heq
        subst heq
        exact split_next .const h
      · exact expand_next h
    · split at h
      · exact pairwise_next (.app (same_iff.1 ‹_›)) h
      · exact expand_next h
    · exact pairwise_next .func h
    · exact pairwise_next .tuple h
    · exact split_next .record h
    · exact expand_next h

theorem solve_nil (hp : p.goals = []) : p.solve definition = .ok p.subst := by
  unfold solve
  split
  · rfl
  · simp_all

theorem solve_failed {goal : Goal} {clash : Clash} (hp : p.goals = goal :: rest)
    (h : p.meet definition goal rest = .failed clash) : p.solve definition = .error clash := by
  unfold solve
  split
  · simp_all
  · rename_i front others hfront
    obtain ⟨rfl, rfl⟩ := List.cons.inj (hp.symm.trans hfront)
    split <;> simp_all

theorem solve_continued {goal : Goal} (hp : p.goals = goal :: rest)
    (h : p.meet definition goal rest = .continued q) :
    p.solve definition = q.solve definition := by
  rw [solve]
  split
  · simp_all
  · rename_i front others hfront
    obtain ⟨rfl, rfl⟩ := List.cons.inj (hp.symm.trans hfront)
    split <;> simp_all

/-- The variables that a run carries a field to when they are already bound. -/
def late (definition : Ty → Option Ty) (p : Problem) : List Nat :=
  match _hp : p.goals with
  | [] => []
  | goal :: rest =>
    match _h : p.meet definition goal rest with
    | .failed _ => goal.late p.subst
    | .continued q => goal.late p.subst ++ q.late definition
termination_by p.measure
decreasing_by exact meet_below _hp _h

theorem late_nil (hp : p.goals = []) : p.late definition = [] := by
  unfold late
  split
  · rfl
  · simp_all

theorem late_continued {goal : Goal} (hp : p.goals = goal :: rest)
    (h : p.meet definition goal rest = .continued q) :
    p.late definition = goal.late p.subst ++ q.late definition := by
  rw [late]
  split
  · simp_all
  · rename_i front others hfront
    obtain ⟨rfl, rfl⟩ := List.cons.inj (hp.symm.trans hfront)
    split <;> simp_all

/-- Induction along a successful run, from its end, with the variables for which fields come late
from there on. -/
theorem solve_induction_late {final : Subst} {motive : List Nat → Subst → List Goal → Prop}
    (done : motive [] final [])
    (split : ∀ {later s goal new rest}, Splits definition s goal new →
      motive later s (new ++ rest) → motive (goal.late s ++ later) s (goal :: rest))
    (move : ∀ {later s goal s' new rest}, Moves s goal s' new →
      motive later s' ((new ++ rest).map (refresh s')) →
      motive (goal.late s ++ later) s (goal :: rest))
    (h : p.solve definition = .ok final) : motive (p.late definition) p.subst p.goals := by
  induction p using Problem.solve.induct definition with
  | case1 p hp =>
    rw [solve_nil hp] at h
    cases h
    rw [late_nil hp]
    exact hp ▸ done
  | case2 p goal rest hp clash hmeet =>
    rw [solve_failed hp hmeet] at h
    cases h
  | case3 p goal rest hp q hmeet ih =>
    have later := ih (solve_continued hp hmeet ▸ h)
    rw [late_continued hp hmeet, hp]
    generalize q.subst = s', q.goals = goals, meet_cases hmeet = next at later
    cases next with
    | split hsplit => exact split hsplit later
    | move hmove => exact move hmove later

theorem solve_induction {final : Subst} {motive : Subst → List Goal → Prop}
    (done : motive final [])
    (split : ∀ {s goal new rest}, Splits definition s goal new → motive s (new ++ rest) →
      motive s (goal :: rest))
    (move : ∀ {s goal s' new rest}, Moves s goal s' new →
      motive s' ((new ++ rest).map (refresh s')) → motive s (goal :: rest))
    (h : p.solve definition = .ok final) : motive p.subst p.goals :=
  solve_induction_late (motive := fun _ => motive) done split move h

end Problem

end Polytype
