import Polytype.Proofs.Module.Run
import Polytype.Proofs.Renaming.Declaration

namespace Polytype

open Infer

def Renaming.shift (start count : Nat) (h : 0 < start) : Renaming where
  toFun i := if i < start then i else i + count
  strictMono := by
    intro i j hij
    dsimp only
    split <;> split <;> omega
  zero := if_pos h

theorem Infer.next_le_declaration (scope : Scope) (d : Declaration) (p : Progress) :
    p.next ≤ (stateOf (declaration scope d p)).next := by
  let κ : Comparison := ⟨.shift 1 0 Nat.one_pos, 0, []⟩
  have avoids : d.Avoids κ.hidden := fun _ _ => List.not_mem_nil
  exact (alike_declaration scope avoids p).1

namespace Checker

variable {options : CheckOptions} {moduleName : String}

structure Alike (κ : Comparison) (c c' : Checker) : Prop where
  progress : κ.Matches c.progress c'.progress
  scope : c'.scope = rename κ.ids c.scope
  errors : c'.errors = c.errors.map (rename κ.ids)

theorem next_le_run (c : Checker) (ds : List Declaration) :
    c.progress.next ≤ (run options moduleName c ds).progress.next := by
  induction ds generalizing c with
  | nil => exact Nat.le_refl _
  | cons d rest ih =>
    have up := next_le_declaration c.scope d c.progress
    cases outcome : declaration c.scope d c.progress with
    | ok scope progress =>
      rw [outcome] at up
      rw [run_ok outcome]
      exact Nat.le_trans up (ih { c with progress, scope })
    | error e p =>
      rw [outcome] at up
      rw [run_error outcome]
      split
      · exact up
      · exact Nat.le_trans up (ih (c.recover moduleName d e p))

variable {κ : Comparison} {c c' : Checker}

theorem Alike.recover (h : Alike κ c c') (d : Declaration) (e : TypeError) {p p' : Progress}
    (hp : κ.Matches p p') :
    Alike κ (c.recover moduleName d e p) (c'.recover moduleName d (rename κ.ids e) p') where
  progress := by
    refine ⟨h.progress.subst, hp.next, fun name hname => ?_⟩
    simp only [Checker.recover, List.contains_append, hp.failed name hname]
  scope := by
    have declared := Scope.filter_name_rename κ.ids (fun name => !d.boundValues.contains name)
      c.scope.declared
    simp only [Checker.recover, h.scope, Scope.rename_env, Scope.rename_declared,
      Env.without_rename, Scope.rename_mk, declared]
  errors := by
    simp [Checker.recover, h.errors]

theorem Alike.run (h : Alike κ c c') {ds : List Declaration}
    (avoids : ∀ d ∈ ds, d.Avoids κ.hidden)
    (below : (run options moduleName c ds).progress.next ≤ κ.limit) :
    Alike κ (run options moduleName c ds) (run options moduleName c' ds) := by
  induction ds generalizing c c' with
  | nil => exact h
  | cons d rest ih =>
    obtain ⟨first, others⟩ := List.forall_mem_cons.1 avoids
    have alike := (alike_declaration c.scope first c.progress).2 c'.progress h.progress
    rw [← h.scope] at alike
    cases outcome : declaration c.scope d c.progress with
    | ok scope progress =>
      rw [run_ok outcome] at below ⊢
      rw [outcome] at alike
      have ends := alike (Nat.le_trans (next_le_run { c with progress, scope } rest) below)
      generalize outcome' : declaration c'.scope d c'.progress = result at ends
      cases ends with
      | ok hq =>
        rw [run_ok outcome']
        exact ih ⟨hq, rfl, h.errors⟩ others below
    | error e p =>
      rw [run_error outcome] at below ⊢
      rw [outcome] at alike
      have reached : p.next ≤ κ.limit := by
        split at below
        · exact below
        · exact Nat.le_trans (next_le_run (c.recover moduleName d e p) rest) below
      have ends := alike reached
      generalize outcome' : declaration c'.scope d c'.progress = result at ends
      cases ends with
      | error hq =>
        rw [run_error outcome']
        cases hstop : options.stopOnFirstError with
        | true => exact h.recover d e hq
        | false =>
          simp only [hstop] at below
          exact ih (h.recover d e hq) others below

/-! ## What a check has reached -/

theorem defineAll_rename (ρ : Renaming) (env : Env) (definitions : List Definition) :
    (rename ρ env).defineAll (definitions.map (rename ρ)) = rename ρ (env.defineAll definitions) := by
  induction definitions generalizing env with
  | nil => rfl
  | cons d definitions ih =>
    refine Eq.trans ?_ (ih (env.define d))
    rw [← Env.define_rename]
    rfl

theorem prelude_fixed {ρ : Renaming} (h : ∀ i < Prelude.size, ρ i = i) :
    rename ρ Prelude.env = Prelude.env := by
  have fixed (i : Nat) (hi : i < Prelude.size) : rename ρ (Prelude.v i) = Prelude.v i :=
    congrArg (TypeVar.mk · 0) (h i hi)
  simp only [Prelude.size] at fixed
  have definitions : Prelude.definitions.map (rename ρ) = Prelude.definitions := by
    simp [Prelude.definitions, fixed]
  have values : (Assoc.mapValues Binding.value Prelude.values).map (rename ρ) =
      Assoc.mapValues Binding.value Prelude.values := by
    simp [Prelude.values, Assoc.mapValues, fixed]
  have defined : rename ρ (Env.empty.defineAll Prelude.definitions) =
      Env.empty.defineAll Prelude.definitions := by
    rw [← defineAll_rename, definitions]
    rfl
  calc rename ρ Prelude.env
      = (rename ρ (Env.empty.defineAll Prelude.definitions)).extendAll
          ((Assoc.mapValues Binding.value Prelude.values).map (rename ρ)) :=
        (Env.extendAll_rename ..).symm
    _ = Prelude.env := by rw [defined, values]; rfl

theorem reached_fixed (options : CheckOptions) (moduleName : String) (ds : List Declaration)
    {ρ : Renaming}
    (h : ∀ i < (run options moduleName .start ds).progress.next, ρ i = i) :
    Alike ⟨ρ, (run options moduleName .start ds).progress.next, []⟩
      (run options moduleName .start ds) (run options moduleName .start ds) := by
  generalize hlimit : (run options moduleName .start ds).progress.next = limit at h
  have drawn : Prelude.size ≤ limit := hlimit ▸ next_le_run .start ds
  have start : Alike ⟨ρ, limit, []⟩ start start := by
    refine ⟨⟨rfl, fun i hi => h _ hi, fun _ _ => rfl⟩, ?_, rfl⟩
    refine congrArg (Scope.mk · []) ?_
    exact (prelude_fixed fun i hi => h i (Nat.lt_of_lt_of_le hi drawn)).symm
  exact start.run (fun _ _ _ _ => List.not_mem_nil) (Nat.le_of_eq hlimit)

/-! ## The end of a check -/

theorem finalTypes_rename (ρ : Renaming) (s : Subst) (declared : List Declared) :
    (finalTypes options (rename ρ s) (declared.map (rename ρ))).2 =
      (finalTypes options s declared).2.map (rename ρ) := by
  induction declared with
  | nil => rfl
  | cons d rest ih =>
    obtain ⟨name, σ, span⟩ := d
    simp only [List.map_cons, Declared.rename_mk, finalTypes, Subst.applyScheme_rename,
      Scheme.freeVars_rename, List.isEmpty_map, ih]
    split
    · rfl
    · rfl

end Checker

end Polytype
