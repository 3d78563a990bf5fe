import Polytype.Proofs.Module.Scope

namespace Polytype

open Infer

theorem exists_ok_of_any {ε α : Type} {x : Except ε α} {P : α → Bool}
    (h : x.toOption.any P = true) : ∃ a, x = .ok a ∧ P a = true := by
  cases x with
  | ok a => exact ⟨a, rfl, h⟩
  | error e => simp [Except.toOption] at h

namespace Checker

theorem run_ok {options : CheckOptions} {moduleName : String} {c : Checker} {d : Declaration}
    {scope : Scope} {progress : Progress} (h : declaration c.scope d c.progress = .ok scope progress)
    (rest : List Declaration) : run options moduleName c (d :: rest) =
      run options moduleName { c with progress, scope } rest := by
  rw [run, h]

theorem run_error {options : CheckOptions} {moduleName : String} {c : Checker} {d : Declaration}
    {e : TypeError} {p : Progress} (h : declaration c.scope d c.progress = .error e p)
    (rest : List Declaration) : run options moduleName c (d :: rest) =
      if options.stopOnFirstError then c.recover moduleName d e p
      else run options moduleName (c.recover moduleName d e p) rest := by
  rw [run, h]

theorem mem_errors_run (options : CheckOptions) (moduleName : String) (ds : List Declaration)
    {c : Checker} {e : TypeError} (h : e ∈ c.errors) :
    e ∈ (run options moduleName c ds).errors := by
  induction ds generalizing c with
  | nil => exact h
  | cons d rest ih =>
    cases outcome : declaration c.scope d c.progress with
    | ok scope progress =>
      rw [run_ok outcome]
      exact ih h
    | error e' p =>
      have kept : e ∈ (c.recover moduleName d e' p).errors := List.mem_append_left _ h
      rw [run_error outcome]
      split
      · exact kept
      · exact ih kept

theorem run_append {options : CheckOptions} {moduleName : String} {c : Checker}
    {ds : List Declaration}
    (reached : options.stopOnFirstError = true → (run options moduleName c ds).errors = [])
    (es : List Declaration) : run options moduleName c (ds ++ es) =
      run options moduleName (run options moduleName c ds) es := by
  induction ds generalizing c with
  | nil => rfl
  | cons d rest ih =>
    rw [List.cons_append]
    cases outcome : declaration c.scope d c.progress with
    | ok scope progress =>
      rw [run_ok outcome] at reached
      rw [run_ok outcome, run_ok outcome, ih reached]
    | error e p =>
      rw [run_error outcome] at reached
      rw [run_error outcome, run_error outcome]
      split
      · rename_i stops
        simp [stops, recover] at reached
      · rename_i continues
        rw [if_neg continues] at reached
        exact ih reached

theorem reached_of_append {options : CheckOptions} {moduleName : String} {c : Checker}
    {ds es : List Declaration}
    (reached : options.stopOnFirstError = true → (run options moduleName c (ds ++ es)).errors = [])
    (stops : options.stopOnFirstError = true) : (run options moduleName c ds).errors = [] := by
  induction ds generalizing c with
  | nil =>
    refine List.eq_nil_iff_forall_not_mem.2 fun e mem => ?_
    have kept : e ∈ (run options moduleName c es).errors := mem_errors_run options moduleName es mem
    rw [show (run options moduleName c es).errors = [] from reached stops] at kept
    exact absurd kept List.not_mem_nil
  | cons d rest ih =>
    rw [List.cons_append] at reached
    cases outcome : declaration c.scope d c.progress with
    | ok scope progress =>
      rw [run_ok outcome] at reached ⊢
      exact ih reached
    | error e p =>
      rw [run_error outcome, if_pos stops] at reached ⊢
      exact reached stops

theorem run_cons_ok {options : CheckOptions} {moduleName : String} {c : Checker} {d : Declaration}
    {rest : List Declaration} (h : (run options moduleName c (d :: rest)).errors = []) :
    ∃ scope progress, declaration c.scope d c.progress = .ok scope progress := by
  cases outcome : declaration c.scope d c.progress with
  | ok scope progress => exact ⟨scope, progress, rfl⟩
  | error e p =>
    have failed : e ∈ (c.recover moduleName d e p).errors :=
      List.mem_append_right _ List.mem_cons_self
    rw [run_error outcome] at h
    split at h
    · simp [h] at failed
    · have := mem_errors_run options moduleName rest failed
      simp [h] at this

theorem run_induct {options : CheckOptions} {moduleName : String}
    {P : List Declaration → Scope → Prop}
    (step : ∀ done scope d definitions values, P done scope → d.Brings definitions values →
      P (done ++ [d]) (scope.add definitions values))
    {ds done : List Declaration} {c : Checker} (start : P done c.scope)
    (h : (run options moduleName c ds).errors = []) :
    P (done ++ ds) (run options moduleName c ds).scope := by
  induction ds generalizing done c with
  | nil => simpa [run] using start
  | cons d rest ih =>
    obtain ⟨scope, progress, outcome⟩ := run_cons_ok h
    rw [run_ok outcome] at h ⊢
    obtain ⟨definitions, values, brings, rfl⟩ := returns_declaration c.scope d _ _ _ outcome
    have := ih (step done c.scope d definitions values start brings) h
    rwa [List.append_assoc] at this

theorem finish_ok {options : CheckOptions} {m : Module} {c : Checker} {typed : TypedModule}
    (h : c.finish options m = .ok typed) :
    c.errors = [] ∧ (finalTypes options c.progress.subst c.scope.declared).2 = [] ∧
      typed.env = c.scope.env.applySubst c.progress.subst ∧
      typed.types = (finalTypes options c.progress.subst c.scope.declared).1 := by
  unfold finish at h
  split at h
  · cases h
  · dsimp only at h
    split at h
    · rename_i empty
      obtain rfl := Except.ok.inj h
      obtain ⟨errors, unresolved⟩ := List.append_eq_nil_iff.1 (List.isEmpty_iff.1 empty)
      exact ⟨errors, unresolved, rfl, rfl⟩
    · cases h

theorem checkModule_eq (options : CheckOptions) (m : Module) :
    (checkModule options m).1 = (run options m.name .start m.declarations).finish options m := rfl

end Checker

end Polytype
