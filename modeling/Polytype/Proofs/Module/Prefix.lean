import Polytype.Proofs.Module.Agreement
import Polytype.Proofs.Module.Outermost

namespace Polytype

open Ty Infer

/-! ## Types without variables -/

theorem Ty.subst_of_ground {t : Ty} (ground : t.vars = []) (θ : Nat → Ty) : t.subst θ = t :=
  calc t.subst θ = t.mapVars var := mapVars_congr (by simp [ground])
    _ = t := mapVars_var t

theorem Ty.vars_eq_nil {t : Ty} : t.vars = [] ↔ ∀ id, t.mentions id = false := by
  rw [List.eq_nil_iff_forall_not_mem]
  constructor
  · intro h id
    refine Bool.eq_false_iff.2 fun hmem => ?_
    obtain ⟨v, hv, -⟩ := mentions_iff.1 hmem
    exact h v hv
  · intro h v hv
    have occurs : t.mentions v.id = true := mentions_iff.2 ⟨v, hv, rfl⟩
    simp [h] at occurs

theorem Subst.Solves.get?_of_ground {s s' : Subst} (h : Solves s'.image s) {id : Nat} {t : Ty}
    (ht : s.types.get? id = some t) (ground : t.vars = []) : s'.types.get? id = some t := by
  have image : s'.image id = t := by
    rw [← h id, image_bound ht, subst_erase, subst_of_ground ground]
  cases ht' : s'.types.get? id with
  | none =>
    rw [image_unbound (isBound_eq_false.2 ht')] at image
    simp [← image, vars] at ground
  | some u =>
    rw [image_bound ht'] at image
    have ground' : u.vars = [] := vars_eq_nil.2 fun other => by
      rw [← Bool.not_eq_true, ← mentions_erase, image, Bool.not_eq_true]
      exact vars_eq_nil.1 ground other
    rw [← image, erase, subst_of_ground ground']

/-! ## Schemes that leave nothing open -/

namespace World

variable {w w' : World} {σ : Scheme}

/-- What a scheme leaves free stands for a type without variables, if nothing is free after
substitution. -/
theorem exists_ground (good : w.SchemeGood σ) (dead : ∀ q ∈ σ.vars, ¬w.live q.id)
    (closed : (w.subst.applyScheme σ).freeVars = []) {v : TypeVar} (hv : v ∈ σ.ty.vars)
    (hfree : σ.binds v.id = false) : ∃ t, w.subst.types.get? v.id = some t ∧ t.vars = [] := by
  have hlive := (good.free v hv hfree).1
  have free : σ.Free v.id := ⟨mentions_iff.2 ⟨v, hv, rfl⟩, hfree⟩
  have empty (id : Nat) : (w.subst.image v.id).mentions id = false := by
    refine Bool.eq_false_iff.2 fun hmem => ?_
    have binds : σ.binds id = false := Bool.eq_false_iff.2 fun binds => by
      obtain ⟨q, hq, rfl⟩ := Scheme.binds_iff.1 binds
      exact dead q hq (mentions_image hlive hmem).1
    obtain ⟨u, hu, -⟩ :=
      Scheme.mem_freeVars.2 ((Subst.free_applyScheme w.resolved).2 ⟨binds, v.id, free, hmem⟩)
    simp [closed] at hu
  cases ht : w.subst.types.get? v.id with
  | none =>
    have itself := empty v.id
    rw [Subst.image_unbound (Subst.isBound_eq_false.2 ht)] at itself
    exact absurd (mentions_var.2 rfl) (Bool.eq_false_iff.1 itself)
  | some t =>
    refine ⟨t, rfl, vars_eq_nil.2 fun id => ?_⟩
    rw [← Bool.not_eq_true, ← mentions_erase, ← Subst.image_bound ht, Bool.not_eq_true]
    exact empty id

theorem Onward.applyScheme (h : Onward w w') (good : w.SchemeGood σ)
    (dead : ∀ q ∈ σ.vars, ¬w.live q.id) (closed : (w.subst.applyScheme σ).freeVars = []) :
    w'.subst.applyScheme σ = w.subst.applyScheme σ := by
  rw [Subst.applyScheme_eq, Subst.applyScheme_eq]
  refine congrArg (Scheme.mk σ.vars) (mapVars_congr fun v hv => ?_)
  rw [(Subst.resolved_unquantified w'.resolved).resolve,
    (Subst.resolved_unquantified w.resolved).resolve, Subst.get?_types_unquantified,
    Subst.get?_types_unquantified]
  cases binds : σ.binds v.id with
  | true =>
    obtain ⟨q, hq, hid⟩ := Scheme.binds_iff.1 binds
    have level := h.unlowered q.id (good.bound q hq) (dead q hq)
    rw [hid] at level
    simp [Subst.relevel, Subst.unquantified, level]
  | false =>
    obtain ⟨t, ht, ground⟩ := exists_ground good dead closed hv binds
    simp only [Bool.false_eq_true, if_false, ht, h.solves.get?_of_ground ht ground]
    exact mapVars_congr (by simp [ground])

end World

/-! ## The types of a module -/

theorem Checker.declared?_run {options : CheckOptions} {moduleName name : String} {c : Checker}
    {ds : List Declaration} (accepted : (run options moduleName c ds).errors = [])
    (others : ∀ d ∈ ds, name ∉ d.valueNames) :
    (run options moduleName c ds).scope.declared? name = c.scope.declared? name := by
  have start : (∀ d ∈ ([] : List Declaration), name ∉ d.valueNames) →
      c.scope.declared? name = c.scope.declared? name := fun _ => rfl
  refine run_induct (P := fun done scope => (∀ d ∈ done, name ∉ d.valueNames) →
    scope.declared? name = c.scope.declared? name) ?_ start accepted others
  intro done scope d definitions values same brings others
  obtain ⟨before, last⟩ := List.forall_mem_append.1 others
  rcases Scope.add_cases brings scope name with ⟨v, mem, hname, -, -⟩ | ⟨-, -, declared⟩
  · exact absurd ((Scope.mem_valueNames brings).2 ⟨v, mem, hname⟩) (last d List.mem_cons_self)
  · exact declared.trans (same before)

/-- Let a module be accepted, and again with more declarations after its own. Then a value that none
of these binds has the same type in both; the values that the module binds have one. -/
theorem TypedModule.types_append {m : Module} {more : List Declaration} {typed typed' : TypedModule}
    (h : (checkModule {} m).1 = .ok typed)
    (h' : (checkModule {} { m with declarations := m.declarations ++ more }).1 = .ok typed')
    {name : String} (others : ∀ d ∈ more, name ∉ d.valueNames) :
    typed'.types.get? name = typed.types.get? name ∧
    ((∃ d ∈ m.declarations, name ∈ d.valueNames) → ∃ t, typed.types.get? name = some t) := by
  rw [Checker.checkModule_eq] at h h'
  obtain ⟨noErrors, noUnresolved, -, htypes⟩ := Checker.finish_ok h
  obtain ⟨noErrors', noUnresolved', -, htypes'⟩ := Checker.finish_ok h'
  obtain ⟨types, ground⟩ := Checker.finalTypes_of_no_errors _ noUnresolved
  obtain ⟨types', -⟩ := Checker.finalTypes_of_no_errors _ noUnresolved'
  dsimp only at noErrors' types' htypes'
  rw [Checker.run_append fun _ => noErrors] at noErrors' types' htypes'
  obtain ⟨w, started, outer⟩ := Checker.outer_start.run (fun hp => hp.elim) noErrors
  obtain ⟨w', onward, outer'⟩ := outer.run (fun hp => False.elim (started.plain.mp hp)) noErrors'
  refine ⟨?_, fun bound => ?_⟩
  · rw [htypes', htypes, types', types]
    have declared := Checker.declared?_run noErrors' others
    unfold Scope.declared? at declared
    rw [declared]
    -- The declared scheme is the same, and later substitutions do not touch what is closed.
    refine Option.map_congr fun e found => ?_
    have mem := List.mem_of_find?_eq_some found
    obtain ⟨good, dead⟩ := outer.declared e mem
    have closed := ground e mem
    rw [← outer.progress] at closed ⊢
    rw [← outer'.progress, onward.applyScheme good dead closed]
  · have follows : Scope.Follows _ m.declarations :=
      Checker.run_induct (P := fun done scope => scope.Follows done)
        (fun _ _ _ _ _ follows brings => follows.add brings) Scope.follows_start noErrors
    obtain ⟨e, found⟩ := Option.ne_none_iff_exists'.1 ((follows.names name).2 bound)
    unfold Scope.declared? at found
    exact ⟨_, by rw [htypes, types, found, Option.map_some]⟩

def refills : List Declaration :=
  -- let again = cell := [2]; let fill = hash
  [.value ⟨"again", {}⟩ none
     (.assign (.var ⟨"cell", {}⟩) (.list [.literal (.int 2) {}] {}) {}) false {},
   .value ⟨"fill", {}⟩ none (.var ⟨"hash", {}⟩) false {}]

theorem TypedModule.types_append_refills : ∃ typed typed', (checkModule {} cells).1 = .ok typed ∧
    (checkModule {} { cells with declarations := cells.declarations ++ refills }).1 = .ok typed' ∧
    (∃ t, typed.types.get? "cell" = some t ∧ typed'.types.get? "cell" = some t) ∧
    ∃ t, typed.types.get? "hash" = some t ∧ typed'.types.get? "hash" = some t := by
  have accepted : (checkModule {} cells).1.toOption.any (fun _ => true) = true := by cbv
  have accepted' : (checkModule {} { cells with declarations :=
      cells.declarations ++ refills }).1.toOption.any (fun _ => true) = true := by cbv
  obtain ⟨typed, h, -⟩ := exists_ok_of_any accepted
  obtain ⟨typed', h', -⟩ := exists_ok_of_any accepted'
  have cell : ∀ d ∈ refills, "cell" ∉ d.valueNames := by decide
  have hash : ∀ d ∈ refills, "hash" ∉ d.valueNames := by decide
  obtain ⟨sameCell, bound⟩ := TypedModule.types_append h h' cell
  obtain ⟨sameHash, bound'⟩ := TypedModule.types_append h h' hash
  obtain ⟨t, ht⟩ := bound (by decide)
  obtain ⟨u, hu⟩ := bound' (by decide)
  exact ⟨typed, typed', h, h', ⟨t, ht, sameCell.trans ht⟩, ⟨u, hu, sameHash.trans hu⟩⟩

end Polytype
