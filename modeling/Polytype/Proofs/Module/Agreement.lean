import Mathlib
import Polytype.Proofs.Env.Free
import Polytype.Proofs.Module.Run

namespace Polytype

open Ty Infer

/-- Some declaration binds the name as a value, and none after it has a constructor of the name. -/
def Declaration.ValueLast (ds : List Declaration) (name : String) : Prop :=
  ∃ before d after, ds = before ++ d :: after ∧ name ∈ d.valueNames ∧
    ∀ later ∈ after, name ∉ later.constructorNames

theorem Declaration.ValueLast.of_append {ds : List Declaration} {d : Declaration} {name : String}
    (h : ValueLast (ds ++ [d]) name) :
    name ∈ d.valueNames ∨ ValueLast ds name ∧ name ∉ d.constructorNames := by
  obtain ⟨before, d', after, heq, mem, others⟩ := h
  rcases List.eq_nil_or_concat after with rfl | ⟨after, last, rfl⟩
  · obtain ⟨-, single⟩ := List.append_inj' heq rfl
    obtain rfl := List.singleton_inj.1 single
    exact .inl mem
  · rw [List.concat_eq_append] at heq others
    rw [← List.cons_append, ← List.append_assoc] at heq
    obtain ⟨rfl, single⟩ := List.append_inj' heq rfl
    obtain rfl := List.singleton_inj.1 single
    refine .inr ⟨⟨before, d', after, rfl, mem, fun later hlater => ?_⟩, ?_⟩
    · exact others later (List.mem_append_left _ hlater)
    · exact others d (List.mem_append_right _ List.mem_cons_self)

/-! ## Names in a scope -/

namespace Scope

def Agrees (scope : Scope) (name : String) : Prop :=
  ∃ b e, scope.env.lookup name = some b ∧ (∀ c, b ≠ .constructor c) ∧
    scope.declared? name = some e ∧ e.scheme = b.scheme

structure Follows (scope : Scope) (done : List Declaration) : Prop where
  names : ∀ name, scope.declared? name ≠ none ↔ ∃ d ∈ done, name ∈ d.valueNames
  lookup : ∀ name, scope.declared? name ≠ none → scope.env.lookup name ≠ none
  tight : ∀ name e, scope.declared? name = some e → e.scheme.Tight
  agrees : ∀ name, Declaration.ValueLast done name → scope.Agrees name

section Add

variable {d : Declaration} {definitions : List Definition} {values : List Bound}
  (brings : d.Brings definitions values) {scope : Scope}

include brings

theorem agrees_add_of_mem {name : String} (h : name ∈ d.valueNames) :
    (scope.add definitions values).Agrees name := by
  rcases add_cases brings scope name with ⟨v, mem, -, lookup, declared⟩ | ⟨others, -, -⟩
  · exact ⟨v.binding, _, lookup, (brings.proper v mem).value, declared, rfl⟩
  · exact absurd h others

theorem Agrees.add {name : String} (agrees : scope.Agrees name) (h : name ∉ d.constructorNames) :
    (scope.add definitions values).Agrees name := by
  rcases add_cases brings scope name with ⟨v, mem, hname, -, -⟩ | ⟨-, lookup, declared⟩
  · exact agrees_add_of_mem brings ((mem_valueNames brings).2 ⟨v, mem, hname⟩)
  · obtain ⟨b, e, hb, value, he, heq⟩ := agrees
    refine ⟨b, e, ?_, value, declared.trans he, heq⟩
    refine lookup.trans ((Env.lookup_defineAll_of_ne fun definition hd c hc heq => ?_).trans hb)
    exact h (heq ▸ brings.constructors definition hd c hc)

theorem Follows.add {done : List Declaration} (follows : scope.Follows done) :
    (scope.add definitions values).Follows (done ++ [d]) := by
  have cases := add_cases brings scope
  refine ⟨fun name => ?_, fun name declared => ?_, fun name e he => ?_, fun name last => ?_⟩
  · have split : (∃ d' ∈ done ++ [d], name ∈ d'.valueNames) ↔
        name ∈ d.valueNames ∨ ∃ d' ∈ done, name ∈ d'.valueNames := by
      simp [or_and_right, exists_or, or_comm]
    rw [split]
    rcases cases name with ⟨v, mem, hname, -, declared⟩ | ⟨others, -, declared⟩
    · exact iff_of_true (by simp [declared]) (.inl ((mem_valueNames brings).2 ⟨v, mem, hname⟩))
    · rw [declared, or_iff_right others]
      exact follows.names name
  · rcases cases name with ⟨v, -, -, lookup, -⟩ | ⟨-, lookup, old⟩
    · simp [lookup]
    · rw [lookup]
      exact Env.lookup_defineAll_ne_none _ (follows.lookup name (old ▸ declared))
  · rcases cases name with ⟨v, mem, -, -, declared⟩ | ⟨-, -, old⟩
    · obtain rfl := Option.some.inj (declared.symm.trans he)
      exact (brings.proper v mem).tight
    · exact follows.tight name e (old.symm.trans he)
  · rcases last.of_append with mem | ⟨last, fresh⟩
    · exact agrees_add_of_mem brings mem
    · exact (follows.agrees name last).add brings fresh

end Add

theorem follows_start : Checker.start.scope.Follows [] where
  names name := by simp [Checker.start, declared?]
  lookup name declared := by simp [Checker.start, declared?] at declared
  tight name e he := by simp [Checker.start, declared?] at he
  agrees name last := by
    obtain ⟨before, d, after, heq, -⟩ := last
    simp at heq

end Scope

/-! ## The types in the end -/

namespace Checker

theorem finalTypes_of_no_errors (s : Subst) {declared : List Declared}
    (h : (finalTypes {} s declared).2 = []) :
    (∀ name, (finalTypes {} s declared).1.get? name =
      (declared.find? (·.name == name)).map fun d => (s.applyScheme d.scheme).ty) ∧
    ∀ d ∈ declared, (s.applyScheme d.scheme).freeVars = [] := by
  induction declared with
  | nil => exact ⟨fun _ => rfl, by simp⟩
  | cons d rest ih =>
    simp only [finalTypes, Bool.true_and, Bool.not_eq_true'] at h ⊢
    split at h
    · simp at h
    · rename_i ground
      obtain ⟨types, free⟩ := ih h
      have closed : (s.applyScheme d.scheme).freeVars = [] := by simpa using ground
      refine ⟨fun name => ?_, List.forall_mem_cons.2 ⟨closed, free⟩⟩
      simp only [if_neg ground, Assoc.get?_insert, types]
      by_cases hname : d.name = name
      · rw [if_pos hname, List.find?_cons_of_pos (by simpa using hname), Option.map_some]
      · rw [if_neg hname, List.find?_cons_of_neg (by simpa using hname)]

end Checker

/-! ## Schemes after a check -/

theorem Scheme.Tight.applyScheme {σ : Scheme} (h : σ.Tight) (s : Subst) :
    (s.applyScheme σ).Tight := by
  rw [Subst.applyScheme_eq]
  intro v hv
  obtain ⟨w, hw, hid⟩ := mentions_iff.1 (h v hv)
  have unbound : (s.unquantified σ).isBound w.id = false := by
    rw [Subst.isBound_eq_false, Subst.get?_types_unquantified, if_pos]
    exact binds_iff.2 ⟨v, hv, hid.symm⟩
  refine mentions_iff.2 ⟨(s.unquantified σ).relevel w, ?_, by simpa using hid⟩
  refine mem_vars_mapVars.2 ⟨w, hw, ?_⟩
  rw [Subst.resolve_unbound unbound]
  exact List.mem_singleton_self _

theorem Scheme.Tight.mentions_eq_binds {σ : Scheme} (h : σ.Tight) (closed : σ.freeVars = [])
    (id : Nat) : σ.ty.mentions id = σ.binds id := by
  rw [Bool.eq_iff_iff]
  constructor
  · intro occurs
    by_contra free
    obtain ⟨v, hv, -⟩ := mem_freeVars.2 ⟨occurs, Bool.eq_false_iff.2 free⟩
    simp [closed] at hv
  · intro binds
    obtain ⟨v, hv, rfl⟩ := binds_iff.1 binds
    exact h v hv

theorem TypedModule.schemeOf_eq {typed : TypedModule} {env : Env} {s : Subst} {name : String}
    {b : Binding} (h : typed.env = env.applySubst s) (hb : env.lookup name = some b) :
    typed.schemeOf name = some (b.mapScheme s.applyScheme).scheme := by
  unfold Env.lookup at hb
  simp [schemeOf, h, Env.applySubst, Env.lookup, hb]

/-- The types of an accepted module are those of the values that its declarations bind, and each of
these names has a scheme. Unless a later declaration has a constructor of the name, the type is that
of the scheme, and its variables are the quantified ones. -/
theorem TypedModule.types_agree {m : Module} {typed : TypedModule}
    (h : (checkModule {} m).1 = .ok typed) :
    (∀ name, name ∈ typed.types.keys ↔ ∃ d ∈ m.declarations, name ∈ d.valueNames) ∧
    (∀ name ∈ typed.types.keys, ∃ σ, typed.schemeOf name = some σ) ∧
    ∀ name, Declaration.ValueLast m.declarations name →
      ∃ σ, typed.schemeOf name = some σ ∧ typed.types.get? name = some σ.ty ∧
        ∀ id, σ.ty.mentions id = σ.binds id := by
  rw [Checker.checkModule_eq] at h
  generalize hc : Checker.run {} m.name .start m.declarations = c at h
  obtain ⟨noErrors, noUnresolved, henv, htypes⟩ := Checker.finish_ok h
  obtain ⟨types, ground⟩ := Checker.finalTypes_of_no_errors _ noUnresolved
  -- Without an error every declaration has been processed, in order.
  have follows : c.scope.Follows m.declarations := by
    subst hc
    exact Checker.run_induct (P := fun done scope => scope.Follows done)
      (fun _ _ _ _ _ follows brings => follows.add brings) Scope.follows_start noErrors
  have keys (name : String) : name ∈ typed.types.keys ↔ c.scope.declared? name ≠ none := by
    rw [← not_iff_not, ← Assoc.get?_eq_none, htypes, types, not_ne_iff, Option.map_eq_none_iff]
    rfl
  refine ⟨fun name => (keys name).trans (follows.names name), fun name mem => ?_, fun name last => ?_⟩
  · obtain ⟨b, hb⟩ := Option.ne_none_iff_exists'.1 (follows.lookup name ((keys name).1 mem))
    exact ⟨_, TypedModule.schemeOf_eq henv hb⟩
  · obtain ⟨b, e, hb, value, he, scheme⟩ := follows.agrees name last
    have mapped : (b.mapScheme c.progress.subst.applyScheme).scheme =
        c.progress.subst.applyScheme e.scheme := by
      rw [scheme]
      cases b with
      | value | foreign => rfl
      | constructor k => exact absurd rfl (value k)
    refine ⟨_, TypedModule.schemeOf_eq henv hb, ?_, ?_⟩
    · rw [htypes, types, mapped]
      exact congrArg (Option.map _) he
    · rw [mapped]
      have tight := (follows.tight name e he).applyScheme c.progress.subst
      exact tight.mentions_eq_binds (ground e (List.mem_of_find?_eq_some he))

def cells : Module where
  -- type Stack = Empty; let cell = ref []; let fill = cell := [1]; foreign hash : ('a) -> Int
  name := "cells"
  declarations :=
    [.types [⟨⟨"Stack", {}⟩, [], .variant [(⟨"Empty", {}⟩, [])], {}⟩] {},
     .value ⟨"cell", {}⟩ none (.makeRef (.list [] {}) {}) false {},
     .value ⟨"fill", {}⟩ none
       (.assign (.var ⟨"cell", {}⟩) (.list [.literal (.int 1) {}] {}) {}) false {},
     .foreign ⟨"hash", {}⟩ (.func [.var "a" {}] (.named "Int" [] {}) {}) "hash" {}]

theorem TypedModule.types_agree_cells : ∃ typed, (checkModule {} cells).1 = .ok typed ∧
    (∃ σ, typed.schemeOf "cell" = some σ ∧ typed.types.get? "cell" = some σ.ty ∧
      ∀ id, σ.ty.mentions id = σ.binds id) ∧
    ∃ σ, typed.schemeOf "hash" = some σ ∧ typed.types.get? "hash" = some σ.ty ∧
      ∀ id, σ.ty.mentions id = σ.binds id := by
  have accepted : (checkModule {} cells).1.toOption.any (fun _ => true) = true := by cbv
  obtain ⟨typed, htyped, -⟩ := exists_ok_of_any accepted
  obtain ⟨-, -, agree⟩ := TypedModule.types_agree htyped
  refine ⟨typed, htyped, agree "cell" ?_, agree "hash" ?_⟩
  · exact ⟨cells.declarations.take 1, _, cells.declarations.drop 2, rfl, by decide, by decide⟩
  · exact ⟨cells.declarations.take 3, _, [], rfl, by decide, by decide⟩

/-- `let Empty = 1; type Stack = Empty` -/
def shadowed : Module where
  name := "shadowed"
  declarations :=
    [.value ⟨"Empty", {}⟩ none (.literal (.int 1) {}) false {},
     .types [⟨⟨"Stack", {}⟩, [], .variant [(⟨"Empty", {}⟩, [])], {}⟩] {}]

/-- The type of the module's value `Empty` is still `Int` when the name stands for the constructor. -/
theorem TypedModule.constructor_disagrees : ∃ typed σ t, (checkModule {} shadowed).1 = .ok typed ∧
    typed.schemeOf "Empty" = some σ ∧ typed.types.get? "Empty" = some t ∧
    σ.ty.same (.const "Stack") = true ∧ t.same .int = true := by
  have found : (checkModule {} shadowed).1.toOption.any (fun typed =>
      (typed.schemeOf "Empty").any (·.ty.same (.const "Stack")) &&
        (typed.types.get? "Empty").any (·.same .int)) = true := by cbv
  obtain ⟨typed, htyped, names⟩ := exists_ok_of_any found
  simp only [Bool.and_eq_true, Option.any_eq_true] at names
  obtain ⟨⟨σ, hσ, stack⟩, t, ht, int⟩ := names
  exact ⟨typed, σ, t, htyped, hσ, ht, stack, int⟩

end Polytype
