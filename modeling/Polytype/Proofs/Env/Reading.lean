import Polytype.Env.Alias

namespace Polytype.Env

theorem definitionOf?_eq_none {t : Ty} (env : Env) (h : t.headName? = none) :
    env.definitionOf? t = none := by
  simp [definitionOf?, h]

theorem expand_eq_some {env : Env} {t u : Ty} (h : env.expand t = some u) :
    ∃ d target, env.definitionOf? t = some d ∧ d.body.target? = some target ∧
      u = d.instantiate t.args target := by
  obtain ⟨d, hd, h⟩ := Option.bind_eq_some_iff.1 h
  obtain ⟨target, ht, rfl⟩ := Option.map_eq_some_iff.1 h
  exact ⟨d, target, hd, ht, rfl⟩

theorem alternativesWithin_eq_none {env : Env} {t : Ty} (h : env.definitionOf? t = none)
    (steps : Nat) : env.alternativesWithin steps t = none := by
  cases steps with
  | zero => rfl
  | succ steps => simp [alternativesWithin, h]

theorem recordFieldsWithin_eq_none {env : Env} {t : Ty} (h : env.expand t = none)
    (hrec : ∀ fields, t ≠ .record fields) (steps : Nat) :
    env.recordFieldsWithin steps t = none := by
  cases steps with
  | zero => rfl
  | succ steps =>
    cases t with
    | record fields => exact absurd rfl (hrec fields)
    | _ => simp [recordFieldsWithin, h]

theorem alternativesWithin_of_recordFieldsWithin {env : Env} {t : Ty} {steps steps' : Nat}
    {fields : List (String × Ty)} (h : env.recordFieldsWithin steps t = some fields) :
    env.alternativesWithin steps' t = none := by
  induction steps generalizing t steps' with
  | zero => simp [recordFieldsWithin] at h
  | succ steps ih =>
    cases steps' with
    | zero => rfl
    | succ steps' =>
      cases he : env.expand t with
      | none =>
        cases t with
        | record fields => exact alternativesWithin_eq_none (definitionOf?_eq_none env rfl) _
        | _ => simp [recordFieldsWithin, he] at h
      | some u =>
        obtain ⟨d, target, hd, ht, rfl⟩ := expand_eq_some he
        have hu : env.recordFieldsWithin steps (d.instantiate t.args target) = some fields := by
          cases t with
          | record fields => simp [definitionOf?, Ty.headName?] at hd
          | _ => simpa [recordFieldsWithin, he] using h
        simp only [alternativesWithin, hd]
        cases hb : d.body with
        | abstract => rfl
        | record fields => rfl
        | variant alternatives => simp [hb, Body.target?] at ht
        | synonym other =>
          obtain rfl : other = target := by simpa [hb, Body.target?] using ht
          exact ih hu

theorem alternatives_of_recordFields {env : Env} {t : Ty} {fields : List (String × Ty)}
    (h : env.recordFields t = some fields) : env.alternatives t = none :=
  alternativesWithin_of_recordFieldsWithin h

theorem recordFields_of_alternatives {env : Env} {t : Ty} {alternatives : List Alternative}
    (h : env.alternatives t = some alternatives) : env.recordFields t = none := by
  cases hf : env.recordFields t with
  | none => rfl
  | some fields => simp [alternatives_of_recordFields hf] at h

/-! ## What replacing names keeps -/

section Chain

variable {env : Env} {P : Ty → Prop} (expands : ∀ {t u}, P t → env.expand t = some u → P u)

include expands

theorem unfold_induction {t : Ty} (ht : P t) : P (env.unfold t) := by
  unfold unfold
  generalize aliasDepth = steps
  fun_induction unfoldWithin env steps t with
  | case1 | case3 => exact ht
  | case2 steps t u hu ih => exact ih (expands ht hu)

theorem recordFields_induction {t : Ty} (ht : P t) {fields : List (String × Ty)}
    (h : env.recordFields t = some fields) : P (.record fields) := by
  unfold recordFields at h
  generalize aliasDepth = steps at h
  induction steps generalizing t with
  | zero => simp [recordFieldsWithin] at h
  | succ steps ih =>
    cases t with
    | record given =>
      obtain rfl : given = fields := by simpa [recordFieldsWithin] using h
      exact ht
    | _ =>
      obtain ⟨u, hu, h⟩ := Option.bind_eq_some_iff.1 h
      exact ih (expands ht hu) h

theorem callee_induction {t : Ty} (ht : P t) : P (env.callee t) := by
  unfold callee
  generalize aliasDepth = steps
  fun_induction calleeWithin env steps t with
  | case1 | case2 | case3 | case5 => exact ht
  | case4 steps t _ _ u hu ih => exact ih (expands ht hu)

end Chain

/-! ## Types without a visible body -/

def Bodiless (env : Env) (t : Ty) : Prop :=
  (∀ fields, t ≠ .record fields) ∧ ∀ d, env.definitionOf? t = some d → d.body = .abstract

theorem bodiless_tuple (env : Env) (types : List Ty) : env.Bodiless (.tuple types) := by
  refine ⟨fun fields h => by simp at h, fun d hd => ?_⟩
  simp [definitionOf?_eq_none env (t := .tuple types) rfl] at hd

theorem bodiless_of_named {env : Env} {t : Ty} {name : String} {params : List TypeVar}
    (hd : env.definition? name = some ⟨name, params, .abstract⟩) (hn : t.isNamed name) :
    env.Bodiless t := by
  have head : t.headName? = some name := by simpa [Ty.isNamed] using hn
  refine ⟨?_, ?_⟩
  · rintro fields rfl
    simp [Ty.headName?] at head
  · intro d h
    obtain ⟨h, -⟩ := Option.filter_eq_some_iff.1 h
    simp only [head, Option.bind_some, hd, Option.some.injEq] at h
    rw [← h]

theorem Bodiless.expand {env : Env} {t : Ty} (h : env.Bodiless t) : env.expand t = none := by
  cases he : env.expand t with
  | none => rfl
  | some u =>
    obtain ⟨d, target, hd, ht, -⟩ := expand_eq_some he
    simp [h.2 d hd, Body.target?] at ht

theorem Bodiless.recordFields {env : Env} {t : Ty} (h : env.Bodiless t) :
    env.recordFields t = none :=
  recordFieldsWithin_eq_none h.expand h.1 _

theorem Bodiless.alternatives {env : Env} {t : Ty} (h : env.Bodiless t) :
    env.alternatives t = none := by
  cases hd : env.definitionOf? t with
  | none => exact alternativesWithin_eq_none hd _
  | some d => simp [Env.alternatives, aliasDepth, alternativesWithin, hd, h.2 d hd]

/-! ## Constructors of a variant -/

/-- The constructors of a type come from one variant, with arguments in place of its
parameters. -/
theorem alternatives_variant {env : Env} {t : Ty} {found : List Alternative} {steps : Nat}
    (h : env.alternativesWithin steps t = some found) :
    ∃ name d alternatives, env.definition? name = some d ∧ d.body = .variant alternatives ∧
      found.map (·.name) = alternatives.map (·.name) := by
  induction steps generalizing t with
  | zero => simp [alternativesWithin] at h
  | succ steps ih =>
    cases hd : env.definitionOf? t with
    | none => simp [alternativesWithin, hd] at h
    | some d =>
      simp only [alternativesWithin, hd] at h
      cases hb : d.body with
      | abstract => simp [hb] at h
      | record fields => simp [hb] at h
      | synonym target =>
        rw [hb] at h
        exact ih h
      | variant alternatives =>
        simp only [hb, Option.some.injEq] at h
        obtain ⟨name, -, hname⟩ := Option.bind_eq_some_iff.1 (Option.filter_eq_some_iff.1 hd).1
        refine ⟨name, d, alternatives, hname, hb, ?_⟩
        rw [← h, List.map_map]
        rfl

end Polytype.Env
