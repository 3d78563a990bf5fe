import Polytype.Proofs.Inference.Needs
import Polytype.Proofs.Module.Isolation

namespace Polytype

open Infer

/-- The last of some declarations that binds the name, with those before it. -/
structure Declaration.Latest (name : String) (ds earlier : List Declaration) (d : Declaration) :
    Prop where
  binds : name ∈ d.boundValues
  last : ∃ later, ds = earlier ++ d :: later ∧ ∀ other ∈ later, name ∉ other.boundValues

namespace Declaration.Latest

variable {name : String} {ds earlier earlier' : List Declaration} {d d' : Declaration}

theorem append (h : Latest name ds earlier d) {other : Declaration}
    (unbound : name ∉ other.boundValues) : Latest name (ds ++ [other]) earlier d := by
  obtain ⟨later, rfl, others⟩ := h.last
  refine ⟨h.binds, later ++ [other], by simp, fun d hd => ?_⟩
  rcases List.mem_append.1 hd with hd | hd
  · exact others d hd
  · exact List.mem_singleton.1 hd ▸ unbound

theorem self (binds : name ∈ d.boundValues) : Latest name (ds ++ [d]) ds d :=
  ⟨binds, [], rfl, by simp⟩

theorem unique (h : Latest name ds earlier d) (h' : Latest name ds earlier' d') :
    earlier = earlier' ∧ d = d' := by
  obtain ⟨later, rfl, others⟩ := h.last
  obtain ⟨later', heq, others'⟩ := h'.last
  rcases List.append_eq_append_iff.1 heq with ⟨between, rfl, rest⟩ | ⟨between, rfl, rest⟩
  · cases between with
    | nil =>
      obtain ⟨rfl, -⟩ := List.cons.inj rest
      simp
    | cons first between =>
      obtain ⟨rfl, rfl⟩ := List.cons.inj rest
      exact absurd h'.binds (others d' (by simp))
  · cases between with
    | nil =>
      obtain ⟨rfl, -⟩ := List.cons.inj rest
      simp
    | cons first between =>
      obtain ⟨rfl, rfl⟩ := List.cons.inj rest
      exact absurd h.binds (others' d (by simp))

end Declaration.Latest

def Brought (definitions : List Definition) (values : List Bound) (name : String) (b : Binding) :
    Prop :=
  (∃ v ∈ values, v.name = name ∧ v.binding = b) ∨
    ∃ d ∈ definitions, ∃ c ∈ d.constructors, c.name = name ∧ b = .constructor c

/-- After some declarations the name stands for something that is built in, or for what the last of
them that binds it has brought into scope. -/
inductive Origin (options : CheckOptions) (moduleName : String) (ds : List Declaration)
    (name : String) (b : Binding) : Prop
  | builtin : (∀ d ∈ ds, name ∉ d.boundValues) → Prelude.env.lookup name = some b →
      Origin options moduleName ds name b
  | declared {earlier d c definitions values progress} : d.Latest name ds earlier →
      Checker.run options moduleName .start earlier = c → d.Brings definitions values →
      declaration c.scope d c.progress = .ok (c.scope.add definitions values) progress →
      Brought definitions values name b → Origin options moduleName ds name b

namespace Scope

/-- A name that a declaration binds stands for what the declaration brings; any other name stays as
it is. -/
theorem lookup_add_cases {d : Declaration} {definitions : List Definition} {values : List Bound}
    (brings : d.Brings definitions values) (scope : Scope) (name : String) :
    (∃ b, name ∈ d.boundValues ∧ (scope.add definitions values).env.lookup name = some b ∧
      Brought definitions values name b) ∨
    name ∉ d.boundValues ∧
      (scope.add definitions values).env.lookup name = scope.env.lookup name := by
  rw [Declaration.mem_boundValues]
  rcases add_cases brings scope name with ⟨v, mem, rfl, lookup, -⟩ | ⟨others, lookup, -⟩
  · exact .inl ⟨v.binding, .inl ((mem_valueNames brings).2 ⟨v, mem, rfl⟩), lookup,
      .inl ⟨v, mem, rfl, rfl⟩⟩
  · rcases Env.lookup_defineAll_cases scope.env definitions name with
      ⟨definition, hd, c, hc, rfl, found⟩ | ⟨away, same⟩
    · exact .inl ⟨.constructor c, .inr (brings.constructors definition hd c hc),
        lookup.trans found, .inr ⟨definition, hd, c, hc, rfl, rfl⟩⟩
    · refine .inr ⟨fun bound => ?_, lookup.trans same⟩
      rcases bound with bound | bound
      · exact others bound
      · obtain ⟨definition, hd, c, hc, heq⟩ := brings.defined name bound
        exact away definition hd c hc heq

end Scope

namespace Checker

variable {options : CheckOptions} {moduleName : String}

theorem lookup_recover (c : Checker) (d : Declaration) (e : TypeError) (p : Progress)
    (name : String) : (c.recover moduleName d e p).scope.env.lookup name =
      if name ∈ d.boundValues then none else c.scope.env.lookup name := by
  rw [recover, Env.lookup, Env.without, Assoc.get?_filterKeys]
  by_cases h : name ∈ d.boundValues
  · simp [h]
  · simp [h, Env.lookup]

theorem origin_of_lookup {ds : List Declaration}
    (reached : options.stopOnFirstError = true → (run options moduleName .start ds).errors = [])
    {name : String} {b : Binding}
    (h : (run options moduleName .start ds).scope.env.lookup name = some b) :
    Origin options moduleName ds name b := by
  induction ds using List.reverseRecOn with
  | nil => exact .builtin (by simp) h
  | append_singleton ds d ih =>
    have before := reached_of_append reached
    -- A name that `d` does not bind has its origin before `d`.
    have earlier (unbound : name ∉ d.boundValues)
        (old : (run options moduleName .start ds).scope.env.lookup name = some b) :
        Origin options moduleName (ds ++ [d]) name b := by
      cases ih before old with
      | builtin others found =>
        refine .builtin (fun d' hd' => ?_) found
        rcases List.mem_append.1 hd' with hd' | hd'
        · exact others d' hd'
        · exact List.mem_singleton.1 hd' ▸ unbound
      | declared latest hc brings succeeds brought =>
        exact .declared (latest.append unbound) hc brings succeeds brought
    rw [run_append before] at h
    generalize hc : run options moduleName .start ds = c at *
    cases outcome : declaration c.scope d c.progress with
    | ok scope progress =>
      obtain ⟨definitions, values, brings, rfl⟩ := returns_declaration c.scope d _ _ _ outcome
      rw [run_ok outcome, run] at h
      rcases c.scope.lookup_add_cases brings name with ⟨b', binds, found, brought⟩ | ⟨unbound, same⟩
      · obtain rfl := Option.some.inj (found.symm.trans h)
        exact .declared (.self binds) hc brings outcome brought
      · exact earlier unbound (same.symm.trans h)
    | error e p =>
      have recovered : (c.recover moduleName d e p).scope.env.lookup name = some b := by
        rw [run_error outcome] at h
        split at h
        · exact h
        · exact h
      rw [lookup_recover] at recovered
      split at recovered
      · simp at recovered
      · rename_i unbound
        exact earlier unbound recovered

theorem lookup_of_failed {ds earlier : List Declaration} {d : Declaration} {name : String}
    (reached : options.stopOnFirstError = true → (run options moduleName .start ds).errors = [])
    (latest : d.Latest name ds earlier) {c : Checker} {e : TypeError} {p : Progress}
    (hc : run options moduleName .start earlier = c)
    (fails : declaration c.scope d c.progress = .error e p) :
    (run options moduleName .start ds).scope.env.lookup name = none := by
  cases found : (run options moduleName .start ds).scope.env.lookup name with
  | none => rfl
  | some b =>
    cases origin_of_lookup reached found with
    | builtin others _ =>
      obtain ⟨later, rfl, -⟩ := latest.last
      exact absurd latest.binds (others d (by simp))
    | declared latest' hc' brings succeeds brought =>
      obtain ⟨rfl, rfl⟩ := latest.unique latest'
      obtain rfl := hc.symm.trans hc'
      simp [fails] at succeeds

theorem lacks_of_error (c : Checker) {d : Declaration} (e : TypeError) (p : Progress)
    {name : String} (h : name ∈ d.boundValues) : (c.recover moduleName d e p).scope.Lacks name := by
  refine ⟨by rw [lookup_recover, if_pos h], List.find?_eq_none.2 fun declared mem heq => ?_⟩
  have away := (List.mem_filter.1 mem).2
  rw [beq_iff_eq.1 heq] at away
  simp [h] at away

end Checker

/-- All that a declaration that succeeds needs is built in, or brought into scope by the last
declaration before it that binds the name, which succeeded. So a declaration fails, and adds nothing
to what is in scope, if it needs a name and the last declaration of it failed. -/
theorem needs_resolved {options : CheckOptions} {moduleName : String} {before : List Declaration}
    {c : Checker} (hc : Checker.run options moduleName .start before = c)
    (reached : options.stopOnFirstError = true → c.errors = []) (d : Declaration) :
    (∀ scope progress, declaration c.scope d c.progress = .ok scope progress →
      (∀ name ∈ d.needs.values, ∃ b, c.scope.env.lookup name = some b ∧
        Origin options moduleName before name b) ∧
      ∀ name ∈ d.needs.constructors, ∃ k, c.scope.env.constructor? name = some k ∧
        Origin options moduleName before name (.constructor k)) ∧
    ∀ name earlier failed cause p', name ∈ d.needs.values ∨ name ∈ d.needs.constructors →
      failed.Latest name before earlier →
      declaration (Checker.run options moduleName .start earlier).scope failed
        (Checker.run options moduleName .start earlier).progress = .error cause p' →
      ∃ e p, declaration c.scope d c.progress = .error e p ∧
        (Checker.run options moduleName .start (before ++ [d])).scope.env =
          c.scope.env.without d.boundValues ∧
        ∀ bound ∈ d.boundValues,
          (Checker.run options moduleName .start (before ++ [d])).scope.Lacks bound := by
  subst hc
  refine ⟨fun scope progress succeeds => ?_,
    fun name earlier failed cause p' needed latest fails => ?_⟩
  · have meets := meets_declaration _ d _ _ _ succeeds
    refine ⟨fun name mem => ?_, fun name mem => ?_⟩
    · obtain ⟨b, found⟩ := Option.ne_none_iff_exists'.1 (meets.values name mem)
      exact ⟨b, found, Checker.origin_of_lookup reached found⟩
    · obtain ⟨k, found⟩ := Option.ne_none_iff_exists'.1 (meets.constructors name mem)
      exact ⟨k, found, Checker.origin_of_lookup reached (Env.lookup_of_constructor? found)⟩
  -- The name that failed has been taken out of scope, so a declaration that needs it fails.
  · have gone := Checker.lookup_of_failed reached latest rfl fails
    rw [Checker.run_append reached]
    generalize Checker.run options moduleName .start before = c at *
    cases outcome : declaration c.scope d c.progress with
    | ok scope progress =>
      have meets := meets_declaration _ d _ _ _ outcome
      rcases needed with needed | needed
      · exact absurd gone (meets.values name needed)
      · exact absurd (by simp [Env.constructor?, gone]) (meets.constructors name needed)
    | error e p =>
      have recovered : Checker.run options moduleName c [d] = c.recover moduleName d e p := by
        rw [Checker.run_error outcome]
        split
        · rfl
        · rfl
      rw [recovered]
      exact ⟨e, p, rfl, rfl, fun bound hbound => Checker.lacks_of_error c e p hbound⟩

def applies (f : String) : Declaration :=
  .value ⟨"again", {}⟩ none
    (.lambda [⟨⟨"x", {}⟩, none⟩] (.apply (.var ⟨f, {}⟩) [.var ⟨"x", {}⟩] {}) {}) false {}

/-- The scheme of `same` comes from its declaration. The failed `loop` is not in scope, so what needs
it fails as well. -/
theorem needs_resolved_loop :
    (∃ b, (Checker.run {} "loops" .start [identity]).scope.env.lookup "same" = some b ∧
      Origin {} "loops" [identity] "same" b) ∧
    ∃ c e p, Checker.run {} "loops" .start [identity, selfApplication] = c ∧
      declaration c.scope (applies "loop") c.progress = .error e p ∧
      (Checker.run {} "loops" .start [identity, selfApplication, applies "loop"]).scope.Lacks
        "again" := by
  have accepted : ((declaration (Checker.run {} "loops" .start [identity]).scope
      (applies "same")).run' (Checker.run {} "loops" .start [identity]).progress).any
      (fun _ => true) = true := by cbv
  have rejected : ((declaration (Checker.run {} "loops" .start [identity]).scope
      selfApplication).run' (Checker.run {} "loops" .start [identity]).progress).isNone = true := by
    cbv
  obtain ⟨scope, progress, succeeds, -⟩ := exists_run_of_any accepted
  obtain ⟨cause, p', fails⟩ := exists_error_of_isNone rejected
  have found := (needs_resolved rfl (by simp) (applies "same")).1 scope progress succeeds
  have latest : selfApplication.Latest "loop" ([identity] ++ [selfApplication]) [identity] :=
    .self (List.mem_singleton.2 rfl)
  obtain ⟨e, p, fails', -, lacks⟩ := (needs_resolved rfl (by simp) (applies "loop")).2 "loop"
    [identity] selfApplication cause p' (by decide) latest fails
  exact ⟨found.1 "same" (by decide), _, e, p, rfl, fails', lacks "again" (List.mem_singleton.2 rfl)⟩

end Polytype
