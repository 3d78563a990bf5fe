import Mathlib
import Polytype.Proofs.Module.World

namespace Polytype

open Ty

/-- A variable that a `let` or a group quantifies, of which nothing older and nothing that the
schemes leave free leads to it, is unbound and out of reach from the environment in the
substitution found, in every later one of the check and in the last one. In a module without records
that holds of every quantified variable. -/
theorem quantified_respected (options : CheckOptions) (m : Module) {later earlier : List Milestone}
    {env : Env} {drawn : Nat} {schemes : List Scheme} {s : Subst}
    (h : (Checker.run options m.name .start m.declarations).progress.history =
      later ++ .generalized env drawn schemes s :: earlier)
    {σ : Scheme} (hσ : σ ∈ schemes) {q : TypeVar} (hq : q ∈ σ.vars)
    (condition : m.Plain ∨ Isolated s drawn schemes q.id) {s' : Subst}
    (hs' : s' = s ∨ s' ∈ later.map Milestone.subst ∨
      s' = (Checker.run options m.name .start m.declarations).progress.subst) :
    s'.isBound q.id = false ∧ ¬env.Reaches s' q.id := by
  obtain ⟨w, started, reached⟩ :=
    (Checker.at_start m.Plain).run options m.name fun plain => plain
  have hplain : w.plain = m.Plain := started.plain
  have hpast : w.past = [] := started.past
  have hprogress := reached.progress
  have recent : w.recent = later ++ .generalized env drawn schemes s :: earlier := by
    have history := w.history
    rw [hpast, hprogress, h, List.append_nil] at history
    exact history.symm
  have found : Milestone.generalized env drawn schemes s ∈ w.recent := by simp [recent]
  have condition : w.plain ∨ Isolated s drawn schemes q.id := by rwa [hplain]
  rcases hs' with rfl | hs' | rfl
  · exact w.sound _ found σ hσ q hq condition
  · obtain ⟨m', hm', rfl⟩ := List.mem_map.1 hs'
    have ordered := w.respected
    rw [recent, List.pairwise_append] at ordered
    exact ordered.2.2 m' hm' _ List.mem_cons_self σ hσ q hq condition
  · rw [← hprogress]
    exact (w.guarded _ found).respected w.resolved w.unbound σ hσ q hq condition

def identityModule : Module where
  -- let identity = (x) => x; let point = identity({ x = 1 })
  name := "identity"
  declarations :=
    [.value ⟨"identity", {}⟩ none (.lambda [⟨⟨"x", {}⟩, none⟩] (.var ⟨"x", {}⟩) {}) false {},
     .value ⟨"point", {}⟩ none
       (.apply (.var ⟨"identity", {}⟩)
         [.record [.field ⟨"x", .literal (.int 1) {}, {}⟩] {}] {}) false {}]

theorem quantified_respected_identity :
    let p := (Checker.run {} identityModule.name .start identityModule.declarations).progress
    let σ : Scheme := ⟨[⟨7, 2⟩], func [var ⟨7, 2⟩] (var ⟨7, 2⟩)⟩
    .generalized Prelude.env 7 [σ] {} ∈ p.history ∧ p.subst.isBound 7 = false ∧
      ¬Prelude.env.Reaches p.subst 7 := by
  intro p σ
  have found : .generalized Prelude.env 7 [σ] {} ∈ p.history := by
    refine List.mem_reverse.1 (List.mem_of_getElem? (?_ : p.history.reverse[1]? = _))
    simp only [p, σ]
    cbv
  -- The substitution is still empty, so that each variable leads to itself alone.
  have leads {x id : Nat} (h : Subst.Leads {} x id) : x = id := by
    cases h with
    | refl => rfl
    | step hstep _ =>
      cases hstep with
      | binding ht _ => simp at ht
      | field hf _ _ => simp at hf
  have isolated : Isolated {} 7 [σ] 7 := by
    refine ⟨fun x hx h => absurd (leads h) (Nat.ne_of_lt hx), fun σ' hσ' x hx h => ?_⟩
    obtain rfl := List.mem_singleton.1 hσ'
    obtain rfl := leads h
    exact absurd hx.2 (by decide)
  obtain ⟨later, earlier, history⟩ := List.append_of_mem found
  exact ⟨found, quantified_respected {} identityModule history List.mem_cons_self
    List.mem_cons_self (.inr isolated) (.inr (.inr rfl))⟩

def Env.fieldMentions (env : Env) (s : Subst) (id : Nat) : Bool :=
  (env.freeVars s).any fun v => !s.isBound v.id &&
    ((s.records.get? v.id).getD []).any fun field => (s.apply field.2).mentions id

theorem Env.reaches_of_fieldMentions {env : Env} {s : Subst} {id : Nat}
    (h : env.fieldMentions s id = true) : env.Reaches s id := by
  simp only [fieldMentions, List.any_eq_true, Bool.and_eq_true, Bool.not_eq_true'] at h
  obtain ⟨v, hv, unbound, field, hfield, hmem⟩ := h
  cases hfields : s.records.get? v.id with
  | none => simp [hfields] at hfield
  | some fields =>
    rw [hfields, Option.getD_some] at hfield
    exact .field (.start ⟨v, hv, rfl⟩) unbound hfields hfield hmem

/-- `let rec loop = () => loop()`, and a match of which the bound `z` is an open record:
`let bad = match ((x) => loop())(1) { z => let h = () => z.name in (h() + 1, h() ++ "s") }` -/
def sharedField : Module where
  name := "shared"
  declarations :=
    [.value ⟨"loop", {}⟩ none (.lambda [] (.apply (.var ⟨"loop", {}⟩) [] {}) {}) true {},
     .value ⟨"bad", {}⟩ none
       (.case
         (.apply (.lambda [⟨⟨"x", {}⟩, none⟩] (.apply (.var ⟨"loop", {}⟩) [] {}) {})
           [.literal (.int 1) {}] {})
         [⟨.var ⟨"z", {}⟩, none,
           .letIn ⟨"h", {}⟩ none (.lambda [] (.field (.var ⟨"z", {}⟩) "name" {}) {}) false
             (.tuple
               [.binary .add (.apply (.var ⟨"h", {}⟩) [] {}) (.literal (.int 1) {}) {},
                .binary .concat (.apply (.var ⟨"h", {}⟩) [] {}) (.literal (.string "s") {}) {}] {})
             {}, {}⟩] {}) false {}]

/-- The type of the field `name` of `z` is quantified although `z` is in scope, so that the field is
an integer at one use and a string at another. -/
theorem quantified_reached :
    ∃ env drawn schemes s, .generalized env drawn schemes s ∈
      (Checker.run {} sharedField.name .start sharedField.declarations).progress.history ∧
      ∃ σ ∈ schemes, ∃ q ∈ σ.vars, env.Reaches s q.id := by
  have found : ((Checker.run {} sharedField.name .start
      sharedField.declarations).progress.history.any fun
    | .generalized env _ schemes s =>
      schemes.any fun σ => σ.vars.any fun q => env.fieldMentions s q.id
    | .solved _ => false) = true := by cbv
  obtain ⟨m, hm, h⟩ := List.any_eq_true.1 found
  cases m with
  | solved s => simp at h
  | generalized env drawn schemes s =>
    obtain ⟨σ, hσ, h⟩ := List.any_eq_true.1 h
    obtain ⟨q, hq, h⟩ := List.any_eq_true.1 h
    exact ⟨env, drawn, schemes, s, hm, σ, hσ, q, hq, Env.reaches_of_fieldMentions h⟩

end Polytype
