import Mathlib.Data.List.Permutation
import Polytype.Proofs.Unification.Fit

namespace Polytype

open Ty Goal

/-- There are no records, and applications are headed by constants. -/
def Ty.FirstOrder (t : Ty) : Prop := Recordless t ∧ NamedHeads t

/-- The bound types are first-order and no fields are recorded. -/
structure Subst.FirstOrder (s : Subst) : Prop where
  types : ∀ {id t}, s.types.get? id = some t → t.FirstOrder
  records : ∀ id, s.records.get? id = none

/-- The replacement makes both types equal up to levels. -/
def Unifies (θ : Nat → Ty) (t u : Ty) : Prop := (t.subst θ).erase = (u.subst θ).erase

def Goal.Equated (θ : Nat → Ty) : Goal → Prop
  | fits _ expected actual => expected.subst θ = actual.subst θ
  | carries _ _ _ => False
  | impossible _ => False

theorem hereditary_firstOrder {lo : Nat → Nat} : Hereditary anyId lo Ty.FirstOrder :=
  hereditary_recordless.and hereditary_namedHeads

variable {θ : Nat → Ty}

/-! ## A variable inside a type -/

namespace Ty

theorem not_mentions_of_eq {t : Ty} {v : TypeVar} (h : θ v.id = t.subst θ)
    (hvar : ∀ w, t = var w → v.id ≠ w.id) : t.mentions v.id = false := by
  rw [← Bool.not_eq_true, mentions_iff]
  rintro ⟨w, hw, hid⟩
  rcases eq_var_or_size_lt (θ := θ) hw with rfl | smaller
  · exact hvar w rfl hid.symm
  · rw [hid, h] at smaller
    omega

end Ty

theorem Subst.Solves.bind {s : Subst} {v : TypeVar} {t : Ty} (hθ : Solves θ s)
    (h : θ v.id = t.subst θ) (fresh : t.mentions v.id = false) (unbound : s.isBound v.id = false) :
    Solves θ (s.bind v t) := by
  intro id
  rw [image_bind fresh unbound, subst_subst, ← hθ id]
  refine subst_congr fun w _ => ?_
  by_cases hw : v.id = w.id
  · simp [replace, hw, ← h]
  · simp [replace, hw]

/-! ## One step -/

section Step

variable {definition : Ty → Option Ty} {p : Problem} {goal : Goal} {rest : List Goal}

theorem Problem.exists_assign {v : TypeVar} {t : Ty} (h : θ v.id = t.subst θ)
    (hvar : ∀ w, t = .var w → v.id ≠ w.id) (unbound : p.subst.isBound v.id = false) :
    ∃ q, p.assign v t rest = .continued q := by
  simp [assign, not_mentions_of_eq h hvar, unbound, resume]

theorem Problem.exists_meet (proper : goal.Proper Ty.FirstOrder p.subst) (h : goal.Equated θ) :
    ∃ q, p.meet definition goal rest = .continued q := by
  obtain ⟨exact, expected, actual⟩ | _ | _ := goal
  rotate_left
  · exact h.elim
  · exact h.elim
  obtain ⟨⟨hexpected, settled⟩, hactual, settled'⟩ := proper
  simp only [Goal.Equated] at h
  cases expected with
  | var v =>
    have unbound : p.subst.isBound v.id = false := everywhere_var.1 settled
    cases actual with
    | var w =>
      by_cases hid : v.id = w.id
      · simp [meet, hid, split]
      · simp only [meet, if_neg hid]
        exact exists_assign h (fun w' hw => by cases hw; exact hid) unbound
    | _ => exact exists_assign h (by simp) unbound
  | const name =>
    cases actual with
    | var v => exact exists_assign h.symm (by simp) (everywhere_var.1 settled')
    | const name' => simp_all [meet, split]
    | _ => simp at h
  | app head args =>
    cases actual with
    | var v => exact exists_assign h.symm (by simp) (everywhere_var.1 settled')
    | app head' args' =>
      simp only [subst_app, Ty.app.injEq] at h
      -- The heads are constants, so they are equal before anything is replaced.
      have same : head.same head' = true := by
        have hhead := (everywhere_app.1 hexpected.2).1
        have hhead' := (everywhere_app.1 hactual.2).1
        cases head with
        | const name =>
          cases head' with
          | const name' => simpa [same_iff] using h.1
          | _ => exact hhead'.elim
        | _ => exact hhead.elim
      have hlength : args.length = args'.length := by simpa using congrArg List.length h.2
      simp [meet, same, pairwise, hlength, split]
    | _ => simp at h
  | func params result =>
    cases actual with
    | var v => exact exists_assign h.symm (by simp) (everywhere_var.1 settled')
    | func params' result' =>
      simp only [subst_func, Ty.func.injEq] at h
      have hlength : params.length = params'.length := by simpa using congrArg List.length h.1
      simp [meet, pairwise, hlength, split]
    | _ => simp at h
  | tuple elements =>
    cases actual with
    | var v => exact exists_assign h.symm (by simp) (everywhere_var.1 settled')
    | tuple elements' =>
      simp only [subst_tuple, Ty.tuple.injEq] at h
      have hlength : elements.length = elements'.length := by simpa using congrArg List.length h
      simp [meet, pairwise, hlength, split]
    | _ => simp at h
  | record fields => exact (everywhere_record.1 hexpected.1).1.elim

theorem equated_fitsAll {exact : Bool} {ts us : List Ty}
    (h : ts.map (Ty.subst θ) = us.map (Ty.subst θ)) : ∀ g ∈ fitsAll exact ts us, g.Equated θ := by
  induction ts generalizing us with
  | nil => simp [fitsAll]
  | cons t ts ih =>
    cases us with
    | nil => simp at h
    | cons u us =>
      simp only [List.map_cons, List.cons.injEq] at h
      intro g hg
      rcases List.mem_cons.1 hg with rfl | hg
      · exact h.1
      · exact ih h.2 g hg

theorem Splits.equated {s : Subst} (hdef : ∀ t, definition t = none) {new : List Goal}
    (hsplit : Splits definition s goal new) (proper : goal.Proper Ty.FirstOrder s)
    (h : goal.Equated θ) : ∀ g ∈ new, g.Equated θ := by
  cases hsplit with
  | var | const => simp
  | app _ _ =>
    simp only [Goal.Equated, subst_app, Ty.app.injEq] at h
    exact equated_fitsAll h.2
  | func _ =>
    simp only [Goal.Equated, subst_func, Ty.func.injEq] at h
    intro g hg
    rcases List.mem_append.1 hg with hg | hg
    · exact equated_fitsAll h.1.symm g hg
    · obtain rfl := List.mem_singleton.1 hg
      exact h.2
  | tuple _ =>
    simp only [Goal.Equated, subst_tuple, Ty.tuple.injEq] at h
    exact equated_fitsAll h
  | record => exact (everywhere_record.1 proper.1.1.1).1.elim
  | known _ _ => exact h.elim
  | expected ht => simp [hdef] at ht
  | actual ht => simp [hdef] at ht

theorem equated_refresh {s : Subst} (hs : s.Resolved) (hθ : Subst.Solves θ s)
    (h : goal.Equated θ) : (goal.refresh s).Equated θ := by
  cases goal with
  | fits exact expected actual =>
    show (s.apply expected).subst θ = (s.apply actual).subst θ
    rw [hθ.subst_apply hs, hθ.subst_apply hs]
    exact h
  | carries v field t => exact h
  | impossible clash => exact h

theorem Moves.equated {s s' : Subst} (records : ∀ id, s.records.get? id = none)
    (hθ : Subst.Solves θ s) {new : List Goal} (hmove : Moves s goal s' new)
    (h : goal.Equated θ) :
    new = [] ∧ Subst.Solves θ s' ∧ ∀ id, s'.records.get? id = none := by
  have shapeless (v : TypeVar) : s.recordShape v = none := by
    simp [Subst.recordShape, records]
  cases hmove with
  | expected fresh unbound =>
    refine ⟨by simp [shapeless], hθ.bind h fresh unbound, fun id => ?_⟩
    simp [Subst.get?_records_bind, records]
  | actual fresh unbound =>
    refine ⟨by simp [shapeless], hθ.bind h.symm fresh unbound, fun id => ?_⟩
    simp [Subst.get?_records_bind, records]
  | record _ => exact h.elim

end Step

/-! ## A whole run -/

structure Guided (θ : Nat → Ty) (s : Subst) (goals : List Goal) : Prop where
  resolved : s.Resolved
  firstOrder : s.FirstOrder
  solves : Subst.Solves θ s
  proper : ∀ g ∈ goals, g.Proper Ty.FirstOrder s
  equated : ∀ g ∈ goals, g.Equated θ

theorem Subst.FirstOrder.keeps {s : Subst} (h : s.FirstOrder) : s.Keeps anyId Ty.FirstOrder :=
  ⟨fun _ ht => h.types ht, fun _ _ hf => by simp [h.records] at hf⟩

theorem Guided.next {definition : Ty → Option Ty} {s s' : Subst} {goal : Goal}
    {rest goals : List Goal} (guided : Guided θ s (goal :: rest))
    (hdef : ∀ t, definition t = none) (h : Problem.Next definition s goal rest s' goals) :
    Guided θ s' goals := by
  obtain ⟨resolved, firstOrder, solves, proper, equated⟩ := guided
  have front := proper goal List.mem_cons_self
  have equation := equated goal List.mem_cons_self
  cases h with
  | @split new hsplit =>
    refine ⟨resolved, firstOrder, solves, fun g hg => ?_, fun g hg => ?_⟩
    · rcases List.mem_append.1 hg with hg | hg
      · exact hsplit.proper hereditary_firstOrder (by simp [hdef]) s.levelsAbove_zero resolved
          firstOrder.keeps front g hg
      · exact proper g (List.mem_cons_of_mem _ hg)
    · rcases List.mem_append.1 hg with hg | hg
      · exact hsplit.equated hdef front equation g hg
      · exact equated g (List.mem_cons_of_mem _ hg)
  | @move _ new hmove =>
    obtain ⟨rfl, solves', records⟩ := hmove.equated firstOrder.records solves equation
    obtain ⟨ext, -⟩ := hmove.extends hereditary_firstOrder s'.levelsAbove_zero resolved
      firstOrder.keeps front
    refine ⟨ext.resolved, ⟨fun ht => ext.keeps.types trivial ht, records⟩, solves',
      fun g hg => ?_, fun g hg => ?_⟩
    · obtain ⟨given, hgiven, rfl⟩ := List.mem_map.1 hg
      exact proper_refresh hereditary_firstOrder s'.levelsAbove_zero ext.resolved ext.keeps
        (proper given (List.mem_cons_of_mem _ hgiven))
    · obtain ⟨given, hgiven, rfl⟩ := List.mem_map.1 hg
      exact equated_refresh ext.resolved solves' (equated given (List.mem_cons_of_mem _ hgiven))

theorem Guided.solve {definition : Ty → Option Ty} {p : Problem}
    (guided : Guided θ p.subst p.goals) (hdef : ∀ t, definition t = none) :
    ∃ s, p.solve definition = .ok s ∧ Guided θ s [] := by
  induction p using Problem.solve.induct definition with
  | case1 p hp => exact ⟨p.subst, Problem.solve_nil hp, hp ▸ guided⟩
  | case2 p goal rest hp clash hmeet =>
    have front : goal ∈ p.goals := hp ▸ List.mem_cons_self
    obtain ⟨q, hq⟩ := @Problem.exists_meet θ definition p goal rest (guided.proper goal front)
      (guided.equated goal front)
    rw [hmeet] at hq
    cases hq
  | case3 p goal rest hp q hmeet ih =>
    rw [hp] at guided
    obtain ⟨s, hs, final⟩ := ih (guided.next hdef (Problem.meet_cases hmeet))
    exact ⟨s, (Problem.solve_continued hp hmeet).trans hs, final⟩

/-! ## Solutions of two types -/

section Solution

variable {s : Subst} {expected actual : Ty}

def Subst.thenReplace (s : Subst) (θ : Nat → Ty) (id : Nat) : Ty := ((s.image id).subst θ).erase

theorem Subst.Resolved.solves_thenReplace (hs : s.Resolved) : Solves (s.thenReplace θ) s := by
  intro id
  unfold thenReplace
  rw [← erase_subst, ← subst_subst, hs.image_idem id]

theorem Subst.Resolved.subst_thenReplace (hs : s.Resolved) (t : Ty) :
    t.subst (s.thenReplace θ) = ((s.apply t).subst θ).erase := by
  unfold thenReplace
  rw [← erase_subst, ← subst_subst, ← hs.erase_apply, subst_erase]

theorem Subst.thenReplace_unbound {id : Nat} (h : s.isBound id = false) :
    s.thenReplace θ id = (θ id).erase := by
  rw [thenReplace, image_unbound h, subst_var]

/-- The goals that unification starts with are guided by every replacement that makes the types
equal. -/
theorem guided_unify (hs : s.Resolved) (hfirst : s.FirstOrder) (solves : Subst.Solves θ s)
    (hexpected : expected.FirstOrder) (hactual : actual.FirstOrder)
    (h : expected.subst θ = actual.subst θ) :
    Guided θ s [.fits false (s.apply expected) (s.apply actual)] := by
  have applied {t : Ty} (ht : t.FirstOrder) : (s.apply t).FirstOrder ∧ s.Settled (s.apply t) :=
    ⟨hfirst.keeps.apply hereditary_firstOrder s.levelsAbove_zero ht, hs.settled_apply t⟩
  refine ⟨hs, hfirst, solves, fun g hg => ?_, fun g hg => ?_⟩
  · obtain rfl := List.mem_singleton.1 hg
    exact ⟨applied hexpected, applied hactual⟩
  · obtain rfl := List.mem_singleton.1 hg
    show (s.apply expected).subst _ = (s.apply actual).subst _
    rw [solves.subst_apply hs, solves.subst_apply hs, h]

theorem exists_unifyPlain (hs : s.Resolved) (hfirst : s.FirstOrder)
    (hexpected : expected.FirstOrder) (hactual : actual.FirstOrder)
    (h : Unifies θ (s.apply expected) (s.apply actual)) :
    ∃ s', unifyPlain expected actual s = .ok s' ∧ Subst.Solves (s.thenReplace θ) s' := by
  have equal : expected.subst (s.thenReplace θ) = actual.subst (s.thenReplace θ) := by
    rw [hs.subst_thenReplace, hs.subst_thenReplace]
    exact h
  obtain ⟨s', hsolve, final⟩ := Guided.solve
    (p := { subst := s, expansions := expansionLimit,
            goals := [.fits false (s.apply expected) (s.apply actual)] })
    (guided_unify hs hfirst hs.solves_thenReplace hexpected hactual equal) fun _ => rfl
  exact ⟨s', hsolve, final.solves⟩

/-- Unification of first-order types succeeds exactly if some replacement of variables makes them
equal; its result does, and every replacement that does is the result followed by itself. -/
theorem unifyPlain_mostGeneral (hs : s.Resolved) (hfirst : s.FirstOrder)
    (hexpected : expected.FirstOrder) (hactual : actual.FirstOrder) :
    ((∃ s', unifyPlain expected actual s = .ok s') ↔
      ∃ θ, Unifies θ (s.apply expected) (s.apply actual)) ∧
    ∀ s', unifyPlain expected actual s = .ok s' →
      (s'.apply expected).erase = (s'.apply actual).erase ∧
      ∀ θ, Unifies θ (s.apply expected) (s.apply actual) →
        ∀ t, Unifies θ (s'.apply t) (s.apply t) := by
  have unified {s' : Subst} (h : unifyPlain expected actual s = .ok s') :
      s.Extends anyId Ty.FirstOrder s' ∧
        expected.subst s'.image = actual.subst s'.image := by
    obtain ⟨ext, meets⟩ := unify_fits hereditary_firstOrder (by simp) h s'.levelsAbove_zero hs
      hfirst.keeps hexpected hactual
    have recordless (fields : List (String × Ty)) : ¬Ty.FirstOrder (.record fields) :=
      fun h => (everywhere_record.1 h.1).1
    exact ⟨ext, meets _ (fitting_eq recordless (fun _ => rfl) s'.image)⟩
  refine ⟨⟨?_, ?_⟩, fun s' h => ⟨?_, fun θ hθ t => ?_⟩⟩
  · rintro ⟨s', h⟩
    obtain ⟨ext, same⟩ := unified h
    refine ⟨s'.image, ?_⟩
    rw [Unifies, ext.solves.subst_apply hs, ext.solves.subst_apply hs, same]
  · rintro ⟨θ, hθ⟩
    obtain ⟨s', h, -⟩ := exists_unifyPlain hs hfirst hexpected hactual hθ
    exact ⟨s', h⟩
  · obtain ⟨ext, same⟩ := unified h
    rw [ext.resolved.erase_apply, ext.resolved.erase_apply, same]
  · obtain ⟨ext, -⟩ := unified h
    obtain ⟨s'', h', solves⟩ := exists_unifyPlain hs hfirst hexpected hactual hθ
    obtain rfl : s'' = s' := Except.ok.inj (h'.symm.trans h)
    -- A variable that is left was not bound before, so there both replacements agree.
    have free : ∀ w ∈ (s''.apply t).vars, s.isBound w.id = false := by
      intro w hw
      have unbound := within_iff.1 (ext.resolved.settled_apply t) w hw
      exact Bool.eq_false_iff.2 fun bound => by simp [ext.bound _ bound] at unbound
    calc ((s''.apply t).subst θ).erase
        = (s''.apply t).subst (s.thenReplace θ) := by
          rw [erase_subst]
          exact subst_congr fun w hw => (Subst.thenReplace_unbound (free w hw)).symm
      _ = t.subst (s.thenReplace θ) := solves.subst_apply ext.resolved t
      _ = ((s.apply t).subst θ).erase := hs.subst_thenReplace t

end Solution

theorem unifyPlain_mostGeneral_nested :
    let s : Subst := { types := [(0, list (ofId 1))] }
    let expected := func [ofId 0, ofId 2] (ofId 2)
    let actual := func [list int, tuple [ofId 3, string]] (tuple [bool, ofId 4])
    let s' : Subst :=
      { types := [(0, list int), (1, int), (2, tuple [bool, string]), (3, bool), (4, string)] }
    unifyPlain expected actual s = .ok s' ∧
      (s'.apply expected).erase = (s'.apply actual).erase ∧
      ∀ θ, Unifies θ (s.apply expected) (s.apply actual) →
        ∀ t, Unifies θ (s'.apply t) (s.apply t) := by
  intro s expected actual s'
  have bound {id : Nat} {t : Ty} (h : s.types.get? id = some t) : id = 0 ∧ t = list (ofId 1) := by
    simpa [s] using Assoc.mem_of_get? h
  have hs : s.Resolved := by
    intro id t h
    obtain ⟨rfl, rfl⟩ := bound h
    simp [VarNode, s, Subst.isBound, Assoc.contains, Assoc.get?_cons]
  have hfirst : s.FirstOrder := by
    refine ⟨fun h => ?_, fun id => rfl⟩
    obtain ⟨rfl, rfl⟩ := bound h
    simp [Ty.FirstOrder, RecordlessNode, NamedHeadNode]
  have hexpected : expected.FirstOrder := by
    simp [Ty.FirstOrder, expected, RecordlessNode, NamedHeadNode]
  have hactual : actual.FirstOrder := by
    simp [Ty.FirstOrder, actual, RecordlessNode, NamedHeadNode]
  have h : unifyPlain expected actual s = .ok s' := by cbv
  exact ⟨h, (unifyPlain_mostGeneral hs hfirst hexpected hactual).2 s' h⟩

/-- A variable that heads an application is not unified with the name of a type, although replacing
it makes both types equal. -/
theorem unifyPlain_fails_of_variable_head :
    let s : Subst := { types := [(0, app (ofId 1) [int])] }
    s.Resolved ∧ (∀ id t, s.types.get? id = some t → Recordless t) ∧ s.records = [] ∧
      Unifies (fun _ => const "List") (s.apply (ofId 0)) (s.apply (list int)) ∧
      unifyPlain (ofId 0) (list int) s = .error (.mismatch (app (ofId 1) [int]) (list int)) := by
  intro s
  have bound {id : Nat} {t : Ty} (h : s.types.get? id = some t) : id = 0 ∧ t = app (ofId 1) [int] := by
    simpa [s] using Assoc.mem_of_get? h
  refine ⟨fun id t h => ?_, fun id t h => ?_, rfl, by cbv, by cbv⟩
  · obtain ⟨rfl, rfl⟩ := bound h
    simp [VarNode, s, Subst.isBound, Assoc.contains, Assoc.get?_cons]
  · obtain ⟨rfl, rfl⟩ := bound h
    simp [RecordlessNode]

end Polytype
