import Polytype.Env.Prelude
import Polytype.Proofs.Env.Fields
import Polytype.Proofs.Env.Parameters

/-!
# Chains of names

Unfolding a type, asking for its fields or its constructors and looking for a function all follow
one chain of names, each for a limited number of steps. Unfolding and looking for a function replace
as many names as the limit says, while the other two look at as many types and so stop one name
earlier. Up to there they all read the same type; further on `unfold` may lead to a type that has
fields or constructors to be found when the chain as a whole has none.
-/

namespace Polytype.Env

open Ty

variable {env : Env} {t u : Ty}

/-! ## Unfolding -/

theorem unfoldWithin_stop (h : env.expand t = none) (steps : Nat) : env.unfoldWithin steps t = t := by
  cases steps with
  | zero => rfl
  | succ steps => simp [unfoldWithin, h]

theorem unfoldWithin_expand (h : env.expand t = some u) (steps : Nat) :
    env.unfoldWithin (steps + 1) t = env.unfoldWithin steps u := by
  simp [unfoldWithin, h]

theorem unfoldWithin_add {steps : Nat} (h : env.expand (env.unfoldWithin steps t) = none)
    (more : Nat) : env.unfoldWithin (steps + more) t = env.unfoldWithin steps t := by
  induction steps generalizing t with
  | zero => exact unfoldWithin_stop h _
  | succ steps ih =>
    cases hexpand : env.expand t with
    | none => rw [unfoldWithin_stop hexpand, unfoldWithin_stop hexpand]
    | some u =>
      rw [unfoldWithin_expand hexpand] at h
      rw [Nat.succ_add, unfoldWithin_expand hexpand, unfoldWithin_expand hexpand, ih h]

theorem calleeWithin_eq (steps : Nat) (t : Ty) :
    env.calleeWithin steps t = env.unfoldWithin steps t := by
  induction steps generalizing t with
  | zero => rfl
  | succ steps ih =>
    cases h : env.expand t with
    | none =>
      rw [unfoldWithin_stop h]
      cases t <;> simp [calleeWithin, h]
    | some u =>
      rw [unfoldWithin_expand h, ← ih]
      cases t with
      | const | app => simp [calleeWithin, h]
      | _ => cases h

/-! ## Fields -/

theorem recordFieldsWithin_iff {steps : Nat} {fields : List (String × Ty)} :
    env.recordFieldsWithin (steps + 1) t = some fields ↔
      env.unfoldWithin steps t = .record fields := by
  induction steps generalizing t with
  -- Only `t` itself is looked at, so a name that stands for a record is none yet.
  | zero => cases t <;> simp [recordFieldsWithin, unfoldWithin]
  | succ steps ih =>
    cases h : env.expand t with
    | some u => rw [recordFieldsWithin_expand h, unfoldWithin_expand h, ih]
    | none =>
      rw [unfoldWithin_stop h]
      cases t with
      | record given => simp [recordFieldsWithin]
      | _ => simp [recordFieldsWithin, h]

/-! ## Constructors -/

theorem alternativesWithin_expand (h : env.expand t = some u) (steps : Nat) :
    env.alternativesWithin (steps + 1) t = env.alternativesWithin steps u := by
  obtain ⟨d, target, hd, htarget, rfl⟩ := expand_eq_some h
  rw [alternativesWithin, hd]
  cases hbody : d.body with
  | abstract | variant => simp [hbody, Body.target?] at htarget
  | synonym other =>
    obtain rfl : other = target := by simpa [hbody, Body.target?] using htarget
    simp only [hbody]
  -- A named record has no constructors, and neither has the record itself.
  | record fields =>
    obtain rfl : .record fields = target := by simpa [hbody, Body.target?] using htarget
    have unnamed : env.definitionOf? (d.instantiate t.args (.record fields)) = none :=
      definitionOf?_eq_none env rfl
    simp only [hbody, alternativesWithin_eq_none unnamed]

theorem alternativesWithin_stop (h : env.expand t = none) (steps : Nat) :
    env.alternativesWithin (steps + 1) t = env.alternativesWithin 1 t := by
  rw [alternativesWithin, alternativesWithin]
  cases hd : env.definitionOf? t with
  | none => rfl
  | some d =>
    cases hbody : d.body with
    | synonym target => simp [expand, hd, hbody, Body.target?] at h
    | abstract | record | variant => simp only [hbody]

theorem alternativesWithin_eq {steps : Nat} (h : env.expand (env.unfoldWithin steps t) = none) :
    env.alternativesWithin (steps + 1) t = env.alternativesWithin 1 (env.unfoldWithin steps t) := by
  induction steps generalizing t with
  | zero => rfl
  | succ steps ih =>
    cases hexpand : env.expand t with
    | none => rw [unfoldWithin_stop hexpand, alternativesWithin_stop hexpand]
    | some u =>
      rw [unfoldWithin_expand hexpand] at h ⊢
      rw [alternativesWithin_expand hexpand, ih h]

theorem expand_eq_none_of_alternativesWithin {steps : Nat} {found : List Alternative}
    (h : env.alternativesWithin (steps + 1) t = some found) :
    env.expand (env.unfoldWithin steps t) = none := by
  induction steps generalizing t with
  | zero =>
    cases hexpand : env.expand t with
    | none => exact hexpand
    | some u =>
      rw [alternativesWithin_expand hexpand] at h
      cases h
  | succ steps ih =>
    cases hexpand : env.expand t with
    | none => rwa [unfoldWithin_stop hexpand]
    | some u =>
      rw [alternativesWithin_expand hexpand] at h
      rw [unfoldWithin_expand hexpand]
      exact ih h

/-! ## The readers agree -/

theorem unfold_eq (h : env.expand (env.unfoldWithin (aliasDepth - 1) t) = none) :
    env.unfold t = env.unfoldWithin (aliasDepth - 1) t :=
  unfoldWithin_add h 1

theorem unfold_of_recordFields {fields : List (String × Ty)} (h : env.recordFields t = some fields) :
    env.unfold t = .record fields := by
  have reached : env.unfoldWithin (aliasDepth - 1) t = .record fields := recordFieldsWithin_iff.1 h
  rw [unfold_eq (by rw [reached]; rfl), reached]

theorem alternatives_unfold (h : env.expand (env.unfoldWithin (aliasDepth - 1) t) = none) :
    env.alternatives t = env.alternatives (env.unfold t) := by
  have stopped := @alternativesWithin_stop env _ h (aliasDepth - 1)
  rw [unfold_eq h]
  exact (alternativesWithin_eq h).trans stopped.symm

/-- A chain with as many names as the limit or more has no fields and no constructors to be found,
although `unfold` gets to the end of one with exactly as many. -/
theorem readers_at_limit (going : env.expand (env.unfoldWithin (aliasDepth - 1) t) ≠ none) :
    env.recordFields t = none ∧ env.alternatives t = none := by
  refine ⟨Option.eq_none_iff_forall_ne_some.2 fun fields hfields => ?_,
    Option.eq_none_iff_forall_ne_some.2 fun found hfound => ?_⟩
  · have reached : env.unfoldWithin (aliasDepth - 1) t = .record fields :=
      recordFieldsWithin_iff.1 hfields
    rw [reached] at going
    exact going rfl
  · exact going (expand_eq_none_of_alternativesWithin hfound)

theorem HasField.recordFields {name : String} (has : env.HasField t name)
    (short : env.expand (env.unfoldWithin (aliasDepth - 1) t) = none) :
    ∃ fields, env.recordFields t = some fields ∧ name ∈ Assoc.keys fields := by
  obtain ⟨steps, fields, hfields, hname⟩ := has
  cases steps with
  | zero => cases hfields
  | succ steps =>
    suffices env.unfoldWithin (aliasDepth - 1) t = .record fields from
      ⟨fields, recordFieldsWithin_iff.2 this, hname⟩
    have reached := recordFieldsWithin_iff.1 hfields
    -- Where the record was found and where the chain ends are one place.
    rcases Nat.le_total steps (aliasDepth - 1) with hle | hle
    · obtain ⟨more, hmore⟩ := Nat.exists_eq_add_of_le hle
      rw [hmore, unfoldWithin_add (by rw [reached]; rfl), reached]
    · obtain ⟨more, rfl⟩ := Nat.exists_eq_add_of_le hle
      rwa [unfoldWithin_add short] at reached

/-- What is read of a type is what is read of the type behind its names, and a function is found
there exactly. So are fields and constructors if the chain has fewer names than are replaced at most;
if it has more, `unfold` stops at a name and neither fields nor constructors are found. -/
theorem readers_agree (env : Env) (t : Ty) :
    (∀ fields, env.recordFields t = some fields → env.unfold t = .record fields) ∧
    (∀ found, env.alternatives t = some found → env.alternatives (env.unfold t) = some found) ∧
    (∀ params result, env.callee t = .func params result ↔ env.unfold t = .func params result) ∧
    (env.expand (env.unfoldWithin (aliasDepth - 1) t) = none →
      (∀ fields, env.recordFields t = some fields ↔ env.unfold t = .record fields) ∧
      env.alternatives t = env.alternatives (env.unfold t)) ∧
    (env.expand (env.unfold t) ≠ none →
      env.recordFields t = none ∧ env.alternatives t = none ∧
      ∀ fields, env.unfold t ≠ .record fields) := by
  refine ⟨fun fields => unfold_of_recordFields, fun found h => ?_, fun params result => ?_,
    fun short => ⟨fun fields => ?_, alternatives_unfold short⟩, fun long => ?_⟩
  · exact alternatives_unfold (expand_eq_none_of_alternativesWithin h) ▸ h
  · rw [callee, calleeWithin_eq, unfold]
  · rw [unfold_eq short]
    exact recordFieldsWithin_iff
  · obtain ⟨fields, constructors⟩ := readers_at_limit fun ended => long (unfold_eq ended ▸ ended)
    refine ⟨fields, constructors, fun fields h => ?_⟩
    rw [h] at long
    exact long rfl

/-! ## Chains of any length -/

def aliased : Env := Prelude.env.define ⟨"Same", [⟨7, 0⟩], .synonym (.var ⟨7, 0⟩)⟩

def layers (t : Ty) : Nat → Ty
  | 0 => t
  | n + 1 => .app (.const "Same") [layers t n]

theorem vars_layers (n : Nat) : (layers t n).vars = t.vars := by
  induction n with
  | zero => rfl
  | succ n ih => simp only [layers, vars, varsList, List.append_nil, List.nil_append, ih]

theorem expand_layers (h : t.vars = []) (n : Nat) :
    aliased.expand (layers t (n + 1)) = some (layers t n) := by
  have apart : ∀ p ∈ [(⟨7, 0⟩ : TypeVar)], ∀ u ∈ [layers t n], u.mentions p.id = false := by
    simp [mentions, vars_layers, h]
  have bound := Subst.get?_ofPairs apart rfl (by simp) 7
  have filled := Subst.apply_ofPairs apart (.var ⟨7, 0⟩)
  rw [mapVars, bound] at filled
  exact congrArg some filled

theorem unfoldWithin_layers (h : t.vars = []) (steps n : Nat) :
    aliased.unfoldWithin steps (layers t (n + steps)) = layers t n := by
  induction steps with
  | zero => rfl
  | succ steps ih => rw [← Nat.add_assoc, unfoldWithin_expand (expand_layers h _), ih]

theorem unfoldWithin_layers_end (h : t.vars = []) (ended : aliased.expand t = none) (n more : Nat) :
    aliased.unfoldWithin (n + more) (layers t n) = t := by
  have reached : aliased.unfoldWithin n (layers t n) = t := by
    simpa [layers] using unfoldWithin_layers h n 0
  rw [unfoldWithin_add (by rwa [reached]), reached]

theorem readers_layers (h : t.vars = []) (n : Nat) :
    aliased.recordFields (layers t (n + aliasDepth)) = none ∧
      aliased.alternatives (layers t (n + aliasDepth)) = none := by
  refine readers_at_limit ?_
  have reached := unfoldWithin_layers h (aliasDepth - 1) (n + 1)
  rw [show n + 1 + (aliasDepth - 1) = n + aliasDepth by rw [aliasDepth]] at reached
  rw [reached, expand_layers h]
  simp

theorem readers_agree_layers :
    aliased.recordFields (layers (.record [("x", .int)]) 2) = some [("x", .int)] ∧
    aliased.alternatives (layers (.app (.const "Option") [.int]) 2) =
      some [⟨"Some", [.int]⟩, ⟨"None", []⟩] ∧
    aliased.callee (layers (.func [.int] .bool) 64) = .func [.int] .bool := by
  have point : aliased.unfoldWithin (aliasDepth - 1) (layers (.record [("x", .int)]) 2) =
      .record [("x", .int)] := unfoldWithin_layers_end rfl rfl 2 61
  have option : aliased.unfoldWithin (aliasDepth - 1) (layers (.app (.const "Option") [.int]) 2) =
      .app (.const "Option") [.int] := unfoldWithin_layers_end rfl rfl 2 61
  refine ⟨?_, ?_, ?_⟩
  · obtain ⟨fields, -⟩ := (readers_agree aliased _).2.2.2.1 (by rw [point]; rfl)
    exact (fields _).2 (unfoldWithin_layers_end rfl rfl 2 62)
  · obtain ⟨-, constructors⟩ := (readers_agree aliased _).2.2.2.1 (by rw [option]; rfl)
    rw [constructors, unfold_eq (by rw [option]; rfl), option]
    rfl
  · exact ((readers_agree aliased _).2.2.1 _ _).2 (unfoldWithin_layers_end rfl rfl 64 0)

/-- The limit cuts off constructors that `unfold` brings within reach. -/
theorem readers_differ_layers :
    let t := layers (.app (.const "Option") [.int]) 65
    aliased.alternatives t = none ∧
      aliased.alternatives (aliased.unfold t) = some [⟨"Some", [.int]⟩, ⟨"None", []⟩] := by
  intro t
  have reached : aliased.unfold t = layers (.app (.const "Option") [.int]) 1 :=
    unfoldWithin_layers rfl 64 1
  have going := @expand_layers (.app (.const "Option") [.int]) rfl 0
  refine ⟨(readers_layers rfl 1).2, ?_⟩
  rw [reached, alternatives, aliasDepth, alternativesWithin_expand going]
  rfl

/-- Behind exactly as many names as the limit, `unfold` gets to a type of which no fields and no
constructors are found. -/
theorem readers_differ_at_limit (h : t.vars = []) (ended : aliased.expand t = none) :
    aliased.unfold (layers t aliasDepth) = t ∧ aliased.recordFields (layers t aliasDepth) = none ∧
      aliased.alternatives (layers t aliasDepth) = none :=
  ⟨unfoldWithin_layers_end h ended aliasDepth 0, readers_layers h 0⟩

example :
    aliased.unfold (layers (.record [("x", .int)]) 64) = .record [("x", .int)] ∧
      aliased.recordFields (layers (.record [("x", .int)]) 64) = none := by
  obtain ⟨reached, fields, -⟩ := @readers_differ_at_limit (.record [("x", .int)]) rfl rfl
  exact ⟨reached, fields⟩

end Polytype.Env
