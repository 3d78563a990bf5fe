import Polytype.Proofs.Subst.LevelOrder

namespace Polytype.Subst

open Ty

structure Evolves (definition : Ty → Option Ty) (inputs : List Ty) (s s' : Subst) : Prop where
  levels : ∀ {lo}, s'.LevelsAbove lo → s.LevelsAbove lo
  extension : ∀ {C lo P}, Hereditary C lo P → (∀ t t', P t → definition t = some t' → P t') →
    s'.LevelsAbove lo → s.Resolved → s.Keeps C P → (∀ t ∈ inputs, P t) → s.Extends C P s'
  disciplined : ∀ {birth}, (∀ (s : Subst) t t', AllVars (s.Between birth) t →
      definition t = some t' → AllVars (s.Between birth) t') →
    s.Disciplined birth → (∀ t ∈ inputs, AllVars (s.Between birth) t) → s'.Disciplined birth

theorem evolves_unify {definition : Ty → Option Ty} {expected actual : Ty} {s s' : Subst}
    (h : unify definition expected actual s = .ok s') :
    Evolves definition [expected, actual] s s' where
  levels := unify_levelsAbove h
  extension hP hdef hlo resolved keeps inputs :=
    (unify_fits hP hdef h hlo resolved keeps (inputs _ (by simp)) (inputs _ (by simp))).1
  disciplined hdef hd inputs :=
    (disciplined_unify hdef h hd (inputs _ (by simp)) (inputs _ (by simp))).1

theorem evolves_lower {definition : Ty → Option Ty} (s : Subst) (t : Ty) (level : Nat) :
    Evolves definition [t] s (s.lower t level) where
  levels {lo} hlo := by
    unfold LevelsAbove at hlo
    rw [lower_levels] at hlo
    exact (LevelsAbove.of_lowest hlo).1
  extension hP _ hlo resolved keeps inputs :=
    extends_lower hP hlo resolved keeps (inputs _ (by simp))
  disciplined _ hd inputs := hd.lower (inputs _ (by simp))

theorem evolves_requireField {definition : Ty → Option Ty} (s : Subst) (v : TypeVar)
    (field : String) (t : Ty) :
    Evolves definition [.var v, .record [(field, t)]] s (s.requireField v field t) where
  levels {lo} hlo := by
    obtain ⟨level, -, hlevels, -⟩ := exists_requireField s v field t
    unfold LevelsAbove at hlo
    rw [hlevels] at hlo
    exact (@evolves_lower definition s t level).levels hlo
  extension hP _ hlo resolved keeps inputs :=
    extends_requireField hP hlo resolved keeps (inputs _ (by simp)) (inputs _ (by simp))
  disciplined _ hd inputs :=
    hd.requireField (everywhere_var.1 (inputs _ (by simp)))
      ((everywhere_record.1 (inputs (.record [(field, t)]) (by simp))).2 _ List.mem_cons_self)

theorem closeRecords_levels {s s' : Subst} {t : Ty} {level : Nat}
    (h : (s.closeRecords t level).2 = .ok s') {lo : Nat → Nat} (hlo : s'.LevelsAbove lo) :
    s.LevelsAbove lo := by
  fun_induction closeRecords s t level with
  | case1 s hopen =>
    cases h
    exact hlo
  | case2 => simp at h
  | case3 s v fields hopen mentions closed result hrec ih =>
    exact (LevelsAbove.of_lowest (ih (by simpa [hrec] using h))).1

theorem closeRecords_extends {C : Nat → Prop} {lo : Nat → Nat} {P : Ty → Prop}
    (hP : Hereditary C lo P) {s s' : Subst} {t : Ty} {level : Nat}
    (h : (s.closeRecords t level).2 = .ok s') (hlo : s'.LevelsAbove lo) (resolved : s.Resolved)
    (keeps : s.Keeps C P) (ht : P t) : s.Extends C P s' := by
  fun_induction closeRecords s t level with
  | case1 s hopen =>
    cases h
    exact .refl resolved keeps
  | case2 => simp at h
  | case3 s v fields hopen mentions closed result hrec ih =>
    have later : ((s.bind v (.record fields)).closeRecords t level).2 = .ok s' := by
      simpa [hrec] using h
    obtain ⟨hv, hshape⟩ := openRecord?_spec hopen
    have hlo' := closeRecords_levels later hlo
    have above : s.LevelsAbove lo := (LevelsAbove.of_lowest hlo').1
    have hvar : P (.var v) := hP.vars (keeps.apply hP above ht) hv
    have step := extends_bind hP hlo' resolved keeps hvar
      ⟨keeps.recordShape hP above hvar hshape, resolved.settled_recordShape hshape⟩
      (Bool.eq_false_iff.2 mentions) (within_iff.1 (resolved.settled_apply t) v hv)
    exact step.trans (ih later step.resolved step.keeps)

theorem evolves_closeRecords {definition : Ty → Option Ty} {s s' : Subst} {t : Ty} {level : Nat}
    (h : (s.closeRecords t level).2 = .ok s') : Evolves definition [t] s s' where
  levels := closeRecords_levels h
  extension hP _ hlo resolved keeps inputs :=
    closeRecords_extends hP h hlo resolved keeps (inputs _ (by simp))
  disciplined _ hd inputs := hd.closeRecords (inputs _ (by simp)) h

end Polytype.Subst
