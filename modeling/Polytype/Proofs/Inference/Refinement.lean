import Mathlib
import Polytype.Env.Prelude
import Polytype.Proofs.Inference.Steps

namespace Polytype

open Progress Ty

namespace Subst

/-- The second substitution knows all that the first one does, and maybe more. -/
structure Refines (s s' : Subst) : Prop where
  resolved : s'.Resolved
  apply_apply : ∀ t, (s'.apply (s.apply t)).same (s'.apply t) = true
  level_le : ∀ v, s'.isBound v.id = false → (s'.relevel v).level ≤ (s.relevel v).level

theorem level_relevel_le {s s' : Subst}
    (lowered : ∀ id l, s.levels.get? id = some l → ∃ l' ≤ l, s'.levels.get? id = some l')
    (v : TypeVar) : (s'.relevel v).level ≤ (s.relevel v).level := by
  cases h : s.levels.get? v.id with
  | none =>
    have kept : s.relevel v = v := by simp [relevel, h]
    rw [kept, relevel]
    split
    · exact Nat.min_le_right _ _
    · exact Nat.le_refl _
  | some l =>
    obtain ⟨l', hle, h'⟩ := lowered v.id l h
    simp only [relevel, h, h']
    omega

theorem Extends.refines {C : Nat → Prop} {P : Ty → Prop} {s s' : Subst} (h : s.Extends C P s')
    (hs : s.Resolved) : s.Refines s' where
  resolved := h.resolved
  apply_apply t := by
    rw [Ty.same_iff, h.resolved.erase_apply, h.resolved.erase_apply]
    exact h.solves.subst_apply hs t
  level_le v _ := level_relevel_le h.lowered v

end Subst

namespace Infer

theorem Stepwise.refines {α : Type} {m : Infer α} {p q : Progress} {a : α}
    (h : Stepwise (fun _ => True) m) (hp : p.subst.Resolved) (run : m p = .ok a q) :
    p.subst.Refines q.subst :=
  ((h.ok run).extends hp).refines hp

/-- Whatever inference is given, if it succeeds from a resolved substitution, it ends in one that
refines it: for expressions, patterns, the value of a `let` and the values of a group. -/
theorem subst_refines (env : Env) (level : Nat) {p : Progress} (hp : p.subst.Resolved)
    (q : Progress) :
    (∀ e t, expr env level e p = .ok t q → p.subst.Refines q.subst) ∧
    (∀ pattern t bound, checkPattern env level pattern t p = .ok bound q →
      p.subst.Refines q.subst) ∧
    (∀ name written value recursive σ, letBinding env level name written value recursive p = .ok σ q →
      p.subst.Refines q.subst) ∧
    ∀ bindings schemes, group env level bindings p = .ok schemes q → p.subst.Refines q.subst := by
  have anywhere : Env.Nesting fun _ => True := fun _ _ _ => trivial
  have values (e : Expr) := stepwise_expr anywhere e
  refine ⟨fun e t run => ?_, fun pattern t bound run => ?_,
    fun name written value recursive σ run => ?_, fun bindings schemes run => ?_⟩
  · exact (values e env level trivial).refines hp run
  · exact (stepwise_checkPattern trivial pattern t).refines hp run
  · exact (stepwise_letBinding trivial level anywhere name written (values value)
      recursive).refines hp run
  · exact (stepwise_group trivial level anywhere fun b _ => values b.value).refines hp run

namespace Refinement

/-- A function `f` is known to take what `r` is, and nothing is known about `r`. -/
def start : Progress where
  subst := { types := [(101, .func [.var ⟨100, 1⟩] .int)] }
  next := 102

def scope : Env := Prelude.env.extendMono [("r", .var ⟨100, 1⟩), ("f", .var ⟨101, 1⟩)]

def call : Expr := .apply (.var ⟨"f", {}⟩) [.var ⟨"r", {}⟩] {}

def sum : Expr := .binary .add call (.field (.var ⟨"r", {}⟩) "size" {}) {}

def sized : Pattern := .record [⟨"size", .var ⟨"n", {}⟩, {}⟩] {}

end Refinement

open Refinement in
theorem subst_refines_start : start.subst.Resolved ∧
    (∃ t q, expr scope 0 sum start = .ok t q ∧ t.same .int = true ∧
      start.subst.Refines q.subst) ∧
    (∃ bound q, checkPattern scope 0 sized (.var ⟨100, 1⟩) start = .ok bound q ∧
      start.subst.Refines q.subst) ∧
    (∃ σ q, letBinding scope 0 ⟨"total", {}⟩ none sum false start = .ok σ q ∧
      start.subst.Refines q.subst) ∧
    ∃ schemes q, group scope 0 [⟨⟨"total", {}⟩, none, .lambda [] sum {}, {}⟩] start =
      .ok schemes q ∧ start.subst.Refines q.subst := by
  have resolved : start.subst.Resolved := by
    intro id t h
    have bound := Assoc.mem_of_get? h
    simp only [start, List.mem_singleton, Prod.mk.injEq] at bound
    obtain ⟨rfl, rfl⟩ := bound
    refine within_iff.2 fun w hw => ?_
    obtain rfl : w = ⟨100, 1⟩ := by simpa [Ty.vars, Ty.varsList, Ty.int] using hw
    rfl
  have inferred : ((expr scope 0 sum).run' start).any (·.same .int) = true := by cbv
  have checked : ((checkPattern scope 0 sized (.var ⟨100, 1⟩)).run' start).any
      (fun _ => true) = true := by cbv
  have bound : ((letBinding scope 0 ⟨"total", {}⟩ none sum false).run' start).any
      (fun _ => true) = true := by cbv
  have grouped : ((group scope 0 [⟨⟨"total", {}⟩, none, .lambda [] sum {}, {}⟩]).run' start).any
      (fun _ => true) = true := by cbv
  obtain ⟨t, q₁, run₁, int⟩ := exists_run_of_any inferred
  obtain ⟨names, q₂, run₂, -⟩ := exists_run_of_any checked
  obtain ⟨σ, q₃, run₃, -⟩ := exists_run_of_any bound
  obtain ⟨schemes, q₄, run₄, -⟩ := exists_run_of_any grouped
  refine ⟨resolved, ⟨t, q₁, run₁, int, ?_⟩, ⟨names, q₂, run₂, ?_⟩, ⟨σ, q₃, run₃, ?_⟩, schemes, q₄,
    run₄, ?_⟩
  · exact (subst_refines scope 0 resolved q₁).1 sum t run₁
  · exact (subst_refines scope 0 resolved q₂).2.1 sized _ names run₂
  · exact (subst_refines scope 0 resolved q₃).2.2.1 _ none sum false σ run₃
  · exact (subst_refines scope 0 resolved q₄).2.2.2 _ schemes run₄

end Infer

end Polytype
