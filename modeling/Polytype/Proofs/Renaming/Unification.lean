import Polytype.Proofs.Renaming.Subst
import Polytype.Proofs.Unification.Step

namespace Polytype

instance : Renamable Goal where
  rename ρ
    | .fits exact expected actual => .fits exact (rename ρ expected) (rename ρ actual)
    | .carries v field t => .carries (rename ρ v) field (rename ρ t)
    | .impossible clash => .impossible (rename ρ clash)

instance : Renamable Problem where
  rename ρ p := ⟨rename ρ p.subst, p.expansions, rename ρ p.goals⟩

instance : Renamable Problem.Outcome where
  rename ρ
    | .failed clash => .failed (rename ρ clash)
    | .continued p => .continued (rename ρ p)

variable (ρ : Renaming)

namespace Goal

@[simp] theorem rename_fits (exact : Bool) (expected actual : Ty) :
    rename ρ (fits exact expected actual) = fits exact (rename ρ expected) (rename ρ actual) := rfl

@[simp] theorem rename_carries (v : TypeVar) (field : String) (t : Ty) :
    rename ρ (carries v field t) = carries (rename ρ v) field (rename ρ t) := rfl

@[simp] theorem rename_impossible (clash : Clash) :
    rename ρ (impossible clash) = impossible (rename ρ clash) := rfl

@[simp] theorem refresh_rename (s : Subst) (goal : Goal) :
    (rename ρ goal).refresh (rename ρ s) = rename ρ (goal.refresh s) := by
  cases goal <;> simp [refresh]

@[simp] theorem fitsAll_rename (exact : Bool) (expected actual : List Ty) :
    fitsAll exact (expected.map (rename ρ)) (actual.map (rename ρ)) =
      (fitsAll exact expected actual).map (rename ρ) := by
  simp [fitsAll, List.map_zipWith, List.zipWith_map]

@[simp] theorem extraField?_rename (fields others : List (String × Ty)) :
    extraField? (fields.map (rename ρ)) (others.map (rename ρ)) = extraField? fields others := by
  simp [extraField?]

theorem fitsFields_rename (exact : Bool) (expected actual wanted : List (String × Ty)) :
    fitsFields exact (expected.map (rename ρ)) (actual.map (rename ρ)) (wanted.map (rename ρ)) =
      (fitsFields exact expected actual wanted).map (rename ρ) := by
  induction wanted with
  | nil =>
    simp only [List.map_nil, fitsFields, extraField?_rename, ← Ty.rename_record]
    split
    · cases extraField? actual expected <;> rfl
    · rfl
  | cons field rest ih =>
    obtain ⟨name, t⟩ := field
    simp only [List.map_cons, rename_pair, rename_string, fitsFields, Assoc.get?_rename, ih,
      ← Ty.rename_record]
    cases Assoc.get? actual name <;> rfl

@[simp] theorem demands_rename (t : Ty) (required : List (String × Ty)) :
    demands (rename ρ t) (required.map (rename ρ)) = (demands t required).map (rename ρ) := by
  cases t <;> simp [demands]

end Goal

namespace Problem

open Goal

variable (p : Problem)

@[simp] theorem rename_subst : (rename ρ p).subst = rename ρ p.subst := rfl

@[simp] theorem rename_expansions : (rename ρ p).expansions = p.expansions := rfl

@[simp] theorem rename_goals : (rename ρ p).goals = p.goals.map (rename ρ) := rfl

@[simp] theorem rename_failed (clash : Clash) :
    rename ρ (Outcome.failed clash) = .failed (rename ρ clash) := rfl

@[simp] theorem rename_continued : rename ρ (Outcome.continued p) = .continued (rename ρ p) := rfl

@[simp] theorem split_rename (goals rest : List Goal) :
    (rename ρ p).split (goals.map (rename ρ)) (rest.map (rename ρ)) =
      rename ρ (p.split goals rest) := by
  rw [split, ← List.map_append]
  rfl

@[simp] theorem resume_rename (s : Subst) (goals rest : List Goal) :
    (rename ρ p).resume (rename ρ s) (goals.map (rename ρ)) (rest.map (rename ρ)) =
      rename ρ (p.resume s goals rest) := by
  have goals_eq : ((goals.map (rename ρ) ++ rest.map (rename ρ)).map (refresh (rename ρ s))) =
      ((goals ++ rest).map (refresh s)).map (rename ρ) := by simp [Function.comp_def]
  rw [resume, goals_eq]
  rfl

@[simp] theorem assign_rename (v : TypeVar) (t : Ty) (rest : List Goal) :
    (rename ρ p).assign (rename ρ v) (rename ρ t) (rest.map (rename ρ)) =
      rename ρ (p.assign v t rest) := by
  have demanded : (((p.subst.recordShape v).map (rename ρ)).map (demands (rename ρ t))).getD [] =
      (((p.subst.recordShape v).map (demands t)).getD []).map (rename ρ) := by
    cases p.subst.recordShape v <;> simp
  simp only [assign, rename_id, Ty.mentions_rename, rename_subst, Subst.isBound_rename]
  split
  · rfl
  · rw [Subst.bind_rename, Subst.recordShape_rename, demanded, resume_rename]

theorem pairwise_rename (expected actual : Ty) (expectedParts actualParts : List Ty)
    (goals rest : List Goal) :
    (rename ρ p).pairwise (rename ρ expected) (rename ρ actual) (expectedParts.map (rename ρ))
      (actualParts.map (rename ρ)) (goals.map (rename ρ)) (rest.map (rename ρ)) =
      rename ρ (p.pairwise expected actual expectedParts actualParts goals rest) := by
  simp only [pairwise, List.length_map, split_rename]
  split <;> rfl

variable {definition definition' : Ty → Option Ty}
  (hdef : ∀ t, definition' (rename ρ t) = (definition t).map (rename ρ))

include hdef

theorem expand_rename (exact : Bool) (expected actual : Ty) (rest : List Goal) :
    (rename ρ p).expand definition' exact (rename ρ expected) (rename ρ actual)
      (rest.map (rename ρ)) = rename ρ (p.expand definition exact expected actual rest) := by
  simp only [expand, rename_expansions, hdef]
  cases p.expansions with
  | zero => rfl
  | succ left =>
    let spent : Problem := { p with expansions := left }
    cases definition expected with
    | some t =>
      simp only [Option.map_some, rename_subst, Subst.apply_rename]
      exact split_rename ρ spent [fits exact (p.subst.apply t) actual] rest
    | none =>
      cases definition actual with
      | some t =>
        simp only [Option.map_some, Option.map_none, rename_subst, Subst.apply_rename]
        exact split_rename ρ spent [fits exact expected (p.subst.apply t)] rest
      | none => rfl

theorem meet_rename (goal : Goal) (rest : List Goal) :
    (rename ρ p).meet definition' (rename ρ goal) (rest.map (rename ρ)) =
      rename ρ (p.meet definition goal rest) := by
  cases goal with
  | impossible clash => rfl
  | carries v field t =>
    have known : (((rename ρ p).subst.recordShape (rename ρ v)).bind
          fun shape => Assoc.get? shape field) =
        ((p.subst.recordShape v).bind fun shape => Assoc.get? shape field).map (rename ρ) := by
      rw [rename_subst, Subst.recordShape_rename]
      cases p.subst.recordShape v <;> simp
    simp only [rename_carries, meet, known]
    cases (p.subst.recordShape v).bind fun shape => Assoc.get? shape field with
    | some known =>
      simp only [Option.map_some, rename_subst, Subst.apply_rename]
      exact split_rename ρ p [fits false known (p.subst.apply t)] rest
    | none =>
      simp only [Option.map_none, rename_subst, Subst.requireField_rename]
      exact resume_rename ρ p (p.subst.requireField v field t) [] rest
  | fits exact expected actual =>
    cases expected <;> cases actual <;>
      simp only [rename_fits, meet, Ty.rename_var, Ty.rename_const, Ty.rename_app, Ty.rename_func,
        Ty.rename_record, Ty.rename_tuple, apply_ite (rename ρ), ← expand_rename ρ p hdef,
        ← pairwise_rename, ← assign_rename, ← split_rename, ← fitsAll_rename, ← fitsFields_rename,
        Ty.same_rename, Ty.isNamed_rename, rename_id, Renaming.eq_iff, List.map_append,
        List.map_cons, List.map_nil]

theorem solve_rename : (rename ρ p).solve definition' = rename ρ (p.solve definition) := by
  induction p using Problem.solve.induct definition with
  | case1 p hp =>
    have hp' : (rename ρ p).goals = [] := by simp [hp]
    rw [solve_nil hp, solve_nil hp']
    rfl
  | case2 p goal rest hp clash hmeet =>
    have hp' : (rename ρ p).goals = rename ρ goal :: rest.map (rename ρ) := by simp [hp]
    have hmeet' := meet_rename ρ p hdef goal rest
    rw [hmeet] at hmeet'
    rw [solve_failed hp hmeet, solve_failed hp' hmeet']
    rfl
  | case3 p goal rest hp q hmeet ih =>
    have hp' : (rename ρ p).goals = rename ρ goal :: rest.map (rename ρ) := by simp [hp]
    have hmeet' := meet_rename ρ p hdef goal rest
    rw [hmeet] at hmeet'
    rw [solve_continued hp hmeet, solve_continued hp' hmeet', ih]

end Problem

theorem unify_rename {definition definition' : Ty → Option Ty}
    (hdef : ∀ t, definition' (rename ρ t) = (definition t).map (rename ρ)) (expected actual : Ty)
    (s : Subst) : unify definition' (rename ρ expected) (rename ρ actual) (rename ρ s) =
      rename ρ (unify definition expected actual s) := by
  rw [unify, Subst.apply_rename, Subst.apply_rename]
  exact Problem.solve_rename ρ
    ⟨s, expansionLimit, [.fits false (s.apply expected) (s.apply actual)]⟩ hdef

end Polytype
