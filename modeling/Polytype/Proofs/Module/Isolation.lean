import Mathlib
import Polytype.Proofs.Inference.Steps
import Polytype.Proofs.Renaming.Checker

/-!
# A failed declaration is isolated

A declaration that fails leaves the substitution and the scope as they were, if it names nothing
that is in scope already. What it leaves behind are the variables it drew and the names that are
known to have failed. So if no later declaration mentions these names, the module is checked as it
would be without the declaration, up to a renaming of variables.
-/

namespace Polytype

open Infer

/-! ## Names that are not in scope -/

theorem Progress.Steps.failed {scopes : Env → Prop} {p q : Progress} (h : Steps scopes p q) :
    q.failed = p.failed := by
  induction h with
  | refl => rfl
  | tail _ step ih => cases step <;> exact ih

theorem Infer.failed_of_error {scope : Scope} {d : Declaration} {p q : Progress} {e : TypeError}
    (h : declaration scope d p = .error e q) : q.failed = p.failed := by
  have nesting : Env.Nesting fun _ => True := fun _ _ _ => trivial
  exact Progress.Steps.failed ((stepwise_declaration nesting trivial d).error h)

/-- The name is neither in scope nor declared. -/
def Scope.Lacks (scope : Scope) (name : String) : Prop :=
  scope.env.lookup name = none ∧ scope.declared? name = none

namespace Scope.Lacks

variable {scope : Scope} {name : String}

theorem add (h : scope.Lacks name) {d : Declaration} {definitions : List Definition}
    {values : List Bound} (brings : d.Brings definitions values) (unbound : name ∉ d.boundValues) :
    (scope.add definitions values).Lacks name := by
  have constructors : ∀ definition ∈ definitions, ∀ c ∈ definition.constructors, c.name ≠ name := by
    rintro definition hdefinition c hc rfl
    exact unbound (Declaration.mem_boundValues.2 (.inr (brings.constructors _ hdefinition c hc)))
  rcases Scope.bindAll_cases { scope with env := scope.env.defineAll definitions } values name with
    ⟨v, mem, rfl, -⟩ | ⟨-, lookup, declared⟩
  · have named : v.name ∈ d.valueNames := brings.names ▸ List.mem_map_of_mem mem
    exact (unbound (Declaration.mem_boundValues.2 (.inl named))).elim
  · refine ⟨lookup.trans ?_, declared.trans h.2⟩
    exact (Env.lookup_defineAll_of_ne constructors).trans h.1

theorem without_eq {names : List String} (h : ∀ name ∈ names, scope.Lacks name) :
    (⟨scope.env.without names, scope.declared.filter fun d => !names.contains d.name⟩ : Scope) =
      scope := by
  have values : Assoc.filterKeys (fun name => !names.contains name) scope.env.values =
      scope.env.values := by
    refine List.filter_eq_self.2 fun entry mem => ?_
    have key : entry.1 ∈ Assoc.keys scope.env.values := List.mem_map_of_mem mem
    have kept : entry.1 ∉ names := fun hname => Assoc.get?_eq_none.1 (h entry.1 hname).1 key
    simpa using kept
  have declared : (scope.declared.filter fun d => !names.contains d.name) = scope.declared := by
    refine List.filter_eq_self.2 fun d mem => ?_
    have kept : d.name ∉ names := by
      intro hname
      simpa using List.find?_eq_none.1 (h d.name hname).2 d mem
    simpa using kept
  rw [Env.without, values, declared]

end Scope.Lacks

namespace Checker

variable {options : CheckOptions} {moduleName : String} {c : Checker}

theorem lacks_recover {name : String} (h : c.scope.Lacks name) (d : Declaration) (e : TypeError)
    (p : Progress) : (c.recover moduleName d e p).scope.Lacks name := by
  constructor
  · rw [recover, Env.lookup, Env.without, Assoc.get?_filterKeys]
    split
    · exact h.1
    · rfl
  · refine List.find?_eq_none.2 fun declared mem => ?_
    exact List.find?_eq_none.1 h.2 declared (List.mem_of_mem_filter mem)

theorem lacks_run {name : String} (h : c.scope.Lacks name) {ds : List Declaration}
    (unbound : ∀ d ∈ ds, name ∉ d.boundValues) :
    (run options moduleName c ds).scope.Lacks name := by
  induction ds generalizing c with
  | nil => exact h
  | cons d rest ih =>
    obtain ⟨first, others⟩ := List.forall_mem_cons.1 unbound
    cases outcome : declaration c.scope d c.progress with
    | ok scope progress =>
      obtain ⟨definitions, values, brings, rfl⟩ := returns_declaration c.scope d _ _ _ outcome
      rw [run_ok outcome]
      exact ih (h.add brings first) others
    | error e p =>
      have kept : (c.recover moduleName d e p).scope.Lacks name := lacks_recover h d e p
      rw [run_error outcome]
      split
      · exact kept
      · exact ih kept others

/-! ## The errors of a run -/

theorem run_prepend (errors : List TypeError) (c : Checker) (ds : List Declaration) :
    run options moduleName { c with errors := errors ++ c.errors } ds =
      { run options moduleName c ds with
        errors := errors ++ (run options moduleName c ds).errors } := by
  induction ds generalizing c with
  | nil => rfl
  | cons d rest ih =>
    cases outcome : declaration c.scope d c.progress with
    | ok scope progress =>
      rw [run_ok outcome, run_ok (c := { c with errors := errors ++ c.errors }) outcome]
      exact ih { c with progress, scope }
    | error e p =>
      have recovered : { c with errors := errors ++ c.errors }.recover moduleName d e p =
          { c.recover moduleName d e p with
            errors := errors ++ (c.recover moduleName d e p).errors } := by
        simp only [recover, List.append_assoc]
      rw [run_error outcome, run_error (c := { c with errors := errors ++ c.errors }) outcome,
        recovered]
      split
      · rfl
      · exact ih (c.recover moduleName d e p)

def cleared (c : Checker) : Checker := { c with errors := [] }

theorem run_eq_cleared (c : Checker) (ds : List Declaration) :
    run options moduleName c ds =
      { run options moduleName c.cleared ds with
        errors := c.errors ++ (run options moduleName c.cleared ds).errors } := by
  refine Eq.trans ?_ (run_prepend c.errors c.cleared ds)
  simp [cleared]

end Checker

/-- The errors of a check. -/
def reported : Except (List TypeError) TypedModule → List TypeError
  | .ok _ => []
  | .error errors => errors

namespace Checker

variable {options : CheckOptions} {moduleName : String}

/-- The errors of the values whose type is not determined. -/
def unresolved (options : CheckOptions) (c : Checker) : List TypeError :=
  (finalTypes options c.progress.subst c.scope.declared).2

theorem finish_eq (continues : options.stopOnFirstError = false) (m : Module) (c : Checker) :
    c.finish options m =
      if (c.errors ++ c.unresolved options).isEmpty then
        .ok ⟨m, c.scope.env.applySubst c.progress.subst,
          (finalTypes options c.progress.subst c.scope.declared).1⟩
      else .error (c.errors ++ c.unresolved options) := by
  simp [finish, continues, unresolved]

theorem reported_finish (continues : options.stopOnFirstError = false) (m : Module) (c : Checker) :
    reported (c.finish options m) = c.errors ++ c.unresolved options := by
  rw [finish_eq continues]
  split
  · exact (List.isEmpty_iff.1 ‹_›).symm
  · rfl

theorem finish_error (continues : options.stopOnFirstError = false) (m : Module) {c : Checker}
    (h : c.errors ≠ []) : c.finish options m = .error (c.errors ++ c.unresolved options) := by
  rw [finish_eq continues, if_neg]
  simp [h]

theorem Alike.unresolved {κ : Comparison} {c c' : Checker} (h : Alike κ c c') :
    c'.unresolved options = (c.unresolved options).map (rename κ.ids) := by
  rw [Checker.unresolved, h.progress.subst, h.scope]
  exact finalTypes_rename ..

/-! ## The check after a declaration that failed -/

theorem alike_recovered {before : List Declaration} {d : Declaration} {e : TypeError}
    {p : Progress} {c : Checker} (hc : run options moduleName .start before = c)
    (fails : declaration c.scope d c.progress = .error e p)
    (fresh : ∀ name ∈ d.boundValues, c.scope.Lacks name) (limit : Nat) :
    ∃ ρ : Renaming, c.errors.map (rename ρ) = c.errors ∧
      Alike ⟨ρ, limit, d.boundValues⟩ c.cleared (c.recover moduleName d e p).cleared := by
  have drawn : Prelude.size ≤ c.progress.next := hc ▸ next_le_run .start before
  have later : c.progress.next ≤ p.next := by
    have up := next_le_declaration c.scope d c.progress
    rwa [fails] at up
  -- The ids that the declaration drew are left out.
  let ρ : Renaming := .shift c.progress.next (p.next - c.progress.next)
    (Nat.lt_of_lt_of_le (by decide) drawn)
  have reached : Alike ⟨ρ, c.progress.next, []⟩ c c := by
    have fixed := reached_fixed (ρ := ρ) options moduleName before
    rw [hc] at fixed
    exact fixed fun i hi => if_pos hi
  refine ⟨ρ, reached.errors.symm, ⟨reached.progress.subst, ?_, ?_⟩, ?_, rfl⟩
  · intro i _
    have above : ¬c.progress.next + i < c.progress.next := by omega
    refine (if_neg above).trans ?_
    change c.progress.next + i + (p.next - c.progress.next) = p.next + i
    omega
  · intro name hname
    have unbound : name ∉ d.boundValues := hname
    simp [cleared, recover, failed_of_error fails, unbound]
  · exact (Scope.Lacks.without_eq fresh).trans reached.scope

theorem run_isolated (continues : options.stopOnFirstError = false)
    {before after : List Declaration} {d : Declaration} {e : TypeError} {p : Progress} {c : Checker}
    (hc : run options moduleName .start before = c)
    (fails : declaration c.scope d c.progress = .error e p)
    (fresh : ∀ name ∈ d.boundValues, c.scope.Lacks name)
    (avoided : ∀ later ∈ after, later.Avoids d.boundValues) :
    ∃ (ρ : Renaming) (later : List TypeError),
      c.errors.map (rename ρ) = c.errors ∧
      (run options moduleName .start (before ++ after)).errors = c.errors ++ later ∧
      (run options moduleName .start (before ++ d :: after)).errors =
        c.errors ++ e :: later.map (rename ρ) ∧
      (run options moduleName .start (before ++ d :: after)).unresolved options =
        ((run options moduleName .start (before ++ after)).unresolved options).map (rename ρ) := by
  let rest := run options moduleName c.cleared after
  let others := run options moduleName (c.recover moduleName d e p).cleared after
  obtain ⟨ρ, kept, recovered⟩ := alike_recovered hc fails fresh rest.progress.next
  have alike : Alike ⟨ρ, rest.progress.next, d.boundValues⟩ rest others :=
    recovered.run avoided (Nat.le_refl _)
  -- Both runs go on from checks that are alike up to the variables drawn for `d`.
  have goesOn : options.stopOnFirstError = true →
      (run options moduleName .start before).errors = [] := by simp [continues]
  have without : run options moduleName .start (before ++ after) =
      { rest with errors := c.errors ++ rest.errors } := by
    rw [run_append goesOn, hc, run_eq_cleared]
  have present : run options moduleName .start (before ++ d :: after) =
      { others with errors := (c.errors ++ [e]) ++ others.errors } := by
    rw [run_append goesOn, hc, run_error fails, continues, if_neg Bool.false_ne_true,
      run_eq_cleared]
    rfl
  refine ⟨ρ, rest.errors, kept, ?_, ?_, ?_⟩
  · rw [without]
  · simp [present, alike.errors]
  · rw [without, present]
    exact alike.unresolved

end Checker

/-- If later declarations do not mention what a failed declaration would bind, then its error is the
only trace of it: the module without it has the same errors, up to the ids of variables. -/
theorem failed_declaration_isolated {options : CheckOptions}
    (continues : options.stopOnFirstError = false) {moduleName : String}
    {before after : List Declaration} {d : Declaration} {c : Checker} {e : TypeError} {p : Progress}
    (hc : Checker.run options moduleName .start before = c)
    (fails : declaration c.scope d c.progress = .error e p)
    (fresh : ∀ name ∈ d.boundValues,
      Prelude.env.lookup name = none ∧ ∀ earlier ∈ before, name ∉ earlier.boundValues)
    (avoided : ∀ later ∈ after, later.Avoids d.boundValues) :
    ∃ (ρ : Renaming) (later unresolved : List TypeError),
      (Checker.run options moduleName .start (before ++ after)).errors = c.errors ++ later ∧
      (Checker.run options moduleName .start (before ++ after)).unresolved options = unresolved ∧
      reported (checkModule options ⟨moduleName, before ++ after⟩).1 =
        c.errors ++ later ++ unresolved ∧
      (checkModule options ⟨moduleName, before ++ d :: after⟩).1 =
        .error (c.errors.map (rename ρ) ++ e :: later.map (rename ρ) ++
          unresolved.map (rename ρ)) := by
  have lacks : ∀ name ∈ d.boundValues, c.scope.Lacks name := by
    intro name hname
    obtain ⟨builtin, earlier⟩ := fresh name hname
    exact hc ▸ Checker.lacks_run ⟨builtin, rfl⟩ earlier
  obtain ⟨ρ, later, kept, without, present, unresolved⟩ :=
    Checker.run_isolated continues hc fails lacks avoided
  refine ⟨ρ, later, _, without, rfl, ?_, ?_⟩
  · rw [Checker.checkModule_eq, Checker.reported_finish continues, without]
  · rw [Checker.checkModule_eq, Checker.finish_error continues _ (by simp [present]), present,
      unresolved, kept]

def identity : Declaration :=
  .value ⟨"same", {}⟩ none (.lambda [⟨⟨"x", {}⟩, none⟩] (.var ⟨"x", {}⟩) {}) false {}

def selfApplication : Declaration :=
  -- let loop = (x) => x(x)
  .value ⟨"loop", {}⟩ none
    (.lambda [⟨⟨"x", {}⟩, none⟩] (.apply (.var ⟨"x", {}⟩) [.var ⟨"x", {}⟩] {}) {}) false {}

def emptyCell : Declaration := .value ⟨"cell", {}⟩ none (.makeRef (.list [] {}) {}) false {}

theorem failed_declaration_isolated_loop :
    ∃ (c : Checker) (e : TypeError) (p : Progress) (ρ : Renaming)
      (later unresolved : List TypeError),
      Checker.run {} "cells" .start [identity] = c ∧
      declaration c.scope selfApplication c.progress = .error e p ∧
      unresolved.length = 1 ∧
      reported (checkModule {} ⟨"cells", [identity, emptyCell]⟩).1 =
        c.errors ++ later ++ unresolved ∧
      (checkModule {} ⟨"cells", [identity, selfApplication, emptyCell]⟩).1 =
        .error (c.errors.map (rename ρ) ++ e :: later.map (rename ρ) ++
          unresolved.map (rename ρ)) := by
  have rejected : ((declaration (Checker.run {} "cells" .start [identity]).scope
      selfApplication).run' (Checker.run {} "cells" .start [identity]).progress).isNone = true := by
    cbv
  have undetermined : ((Checker.run {} "cells" .start [identity, emptyCell]).unresolved {}).length =
      1 := by cbv
  have fresh : ∀ name ∈ selfApplication.boundValues, Prelude.env.lookup name = none ∧
      ∀ earlier ∈ [identity], name ∉ earlier.boundValues :=
    List.forall_mem_singleton.2 ⟨by cbv, by decide⟩
  have avoided : ∀ later ∈ [emptyCell], later.Avoids selfApplication.boundValues :=
    List.forall_mem_singleton.2 fun _ mem => absurd mem List.not_mem_nil
  obtain ⟨e, p, fails⟩ := exists_error_of_isNone rejected
  obtain ⟨ρ, later, unresolved, -, rfl, reports, present⟩ :=
    failed_declaration_isolated rfl rfl fails fresh avoided
  exact ⟨_, e, p, ρ, later, _, rfl, fails, undetermined, reports, present⟩

end Polytype
