import Polytype.Proofs.Unification.Step

/-!
# What a successful unification achieves

Let `P` be a hereditary property that the goals and the substitution have. A successful run ends in
a resolved substitution that extends the first one and has `P` again, and every goal is met under
its image, for every relation that has the rules of fitting (`solve_fits`). `solve_along` is the
induction along a run that has these facts at every moment.
-/

namespace Polytype

open Ty Goal

/-- A later substitution of a run on types with the property `P`: it solves the earlier one, binds
only variables in `C`, and lowers only variables with the property. -/
structure Subst.Extends (C : Nat → Prop) (P : Ty → Prop) (s s' : Subst) : Prop where
  resolved : s'.Resolved
  keeps : s'.Keeps C P
  solves : Solves s'.image s
  bound : ∀ id, s.isBound id = true → s'.isBound id = true
  frame : ∀ id, ¬C id → s'.isBound id = s.isBound id
  recorded : ∀ id, ¬C id → s.records.get? id = none → s'.records.get? id = none
  stale : ∀ {D}, s.Stale D P → s'.Stale D P
  lowered : ∀ id l, s.levels.get? id = some l → ∃ l' ≤ l, s'.levels.get? id = some l'
  origin : ∀ id l, s'.levels.get? id = some l →
    s.levels.get? id = some l ∨ ∃ v, P (.var v) ∧ v.id = id ∧ l < v.level

/-- The rules of fitting under a substitution: `R exact expected actual`. -/
structure Fitting (P : Ty → Prop) (definition : Ty → Option Ty) (θ : Nat → Ty)
    (R : Bool → Ty → Ty → Prop) : Prop where
  refl : ∀ {exact t}, R exact t t
  app : ∀ {exact head head' args args'}, P (.app head args) → P (.app head' args') →
    head.erase = head'.erase →
    List.Forall₂ (fun t u => R (exact || head.isNamed "Ref") (t.subst θ) (u.subst θ)) args args' →
    R exact ((Ty.app head args).subst θ) ((Ty.app head' args').subst θ)
  func : ∀ {exact params params' result result'},
    List.Forall₂ (fun t u => R exact (t.subst θ) (u.subst θ)) params' params →
    R exact (result.subst θ) (result'.subst θ) →
    R exact ((Ty.func params result).subst θ) ((Ty.func params' result').subst θ)
  tuple : ∀ {exact elements elements'},
    List.Forall₂ (fun t u => R exact (t.subst θ) (u.subst θ)) elements elements' →
    R exact ((Ty.tuple elements).subst θ) ((Ty.tuple elements').subst θ)
  record : ∀ {exact fields fields'}, P (.record fields) → P (.record fields') →
    (∀ field ∈ fields, ∃ u, Assoc.get? fields' field.1 = some u ∧
      R exact (field.2.subst θ) (u.subst θ)) →
    (exact = true → extraField? fields' fields = none) →
    R exact ((Ty.record fields).subst θ) ((Ty.record fields').subst θ)
  expected : ∀ {exact t t' u}, P t → definition t = some t' → R exact (t'.subst θ) u →
    R exact (t.subst θ) u
  actual : ∀ {exact t u u'}, P u → definition u = some u' → R exact t (u'.subst θ) →
    R exact t (u.subst θ)

theorem map_subst_eq {θ : Nat → Ty} {ts us : List Ty}
    (h : List.Forall₂ (fun t u => t.subst θ = u.subst θ) ts us) :
    ts.map (Ty.subst θ) = us.map (Ty.subst θ) := by
  induction h with
  | nil => rfl
  | cons h _ ih => simp [h, ih]

theorem fitting_eq {P : Ty → Prop} {definition : Ty → Option Ty}
    (recordless : ∀ fields, ¬P (.record fields)) (hdef : ∀ t, definition t = none)
    (θ : Nat → Ty) : Fitting P definition θ fun _ t u => t = u where
  refl := rfl
  app _ _ hhead hargs := by simp [subst_eq_of_erase hhead, map_subst_eq hargs]
  func hparams hresult := by simp [hresult, map_subst_eq hparams]
  tuple helements := by simp [map_subst_eq helements]
  record h _ _ _ := (recordless _ h).elim
  expected _ h := by simp [hdef] at h
  actual _ h := by simp [hdef] at h

namespace Goal

/-- The types of a goal have the property `P`, and those still to be compared have no bound
variable. -/
def Proper (P : Ty → Prop) (s : Subst) : Goal → Prop
  | fits _ expected actual => (P expected ∧ s.Settled expected) ∧ P actual ∧ s.Settled actual
  | carries v field t => P (.var v) ∧ P (.record [(field, t)])
  | impossible _ => True

/-- The types that a goal compares have the property `Q`, and those of a field to be carried to a
variable have `P`. -/
def Over (Q P : Ty → Prop) : Goal → Prop
  | fits _ expected actual => Q expected ∧ Q actual
  | carries v field t => P (.var v) ∧ P (.record [(field, t)])
  | impossible _ => True

theorem proper_iff_over {P : Ty → Prop} {s : Subst} {g : Goal} :
    g.Proper P s ↔ g.Over (fun t => P t ∧ s.Settled t) P := by
  cases g <;> exact Iff.rfl

def Meets (θ : Nat → Ty) (R : Bool → Ty → Ty → Prop) : Goal → Prop
  | fits exact expected actual => R exact (expected.subst θ) (actual.subst θ)
  | carries _ _ _ => True
  | impossible _ => False

variable {θ : Nat → Ty} {R : Bool → Ty → Ty → Prop}

theorem meets_fitsAll {exact : Bool} {ts us : List Ty} (hlength : ts.length = us.length)
    (h : ∀ g ∈ fitsAll exact ts us, g.Meets θ R) :
    List.Forall₂ (fun t u => R exact (t.subst θ) (u.subst θ)) ts us := by
  induction ts generalizing us with
  | nil =>
    obtain rfl := List.eq_nil_of_length_eq_zero hlength.symm
    exact .nil
  | cons t ts ih =>
    cases us with
    | nil => simp at hlength
    | cons u us =>
      refine .cons (h _ List.mem_cons_self) (ih (by simpa using hlength) fun g hg => ?_)
      exact h g (List.mem_cons_of_mem _ hg)

theorem meets_fitsFields {exact : Bool} {fields fields' wanted : List (String × Ty)}
    (h : ∀ g ∈ fitsFields exact fields fields' wanted, g.Meets θ R) :
    (∀ field ∈ wanted, ∃ u, Assoc.get? fields' field.1 = some u ∧
      R exact (field.2.subst θ) (u.subst θ)) ∧
    (exact = true → extraField? fields' fields = none) := by
  induction wanted with
  | nil =>
    refine ⟨by simp, fun hexact => ?_⟩
    simp only [fitsFields, hexact, if_true] at h
    split at h
    · exact (h _ (List.mem_singleton.2 rfl)).elim
    · assumption
  | cons field rest ih =>
    obtain ⟨name, t⟩ := field
    simp only [fitsFields] at h
    split at h
    · rename_i u hu
      obtain ⟨provided, extra⟩ := ih fun g hg => h g (List.mem_cons_of_mem _ hg)
      refine ⟨fun field hf => ?_, extra⟩
      rcases List.mem_cons.1 hf with rfl | hf
      · exact ⟨u, hu, h _ List.mem_cons_self⟩
      · exact provided field hf
    · exact (h _ (List.mem_singleton.2 rfl)).elim

theorem proper_refresh {C : Nat → Prop} {lo : Nat → Nat} {P : Ty → Prop} (hP : Hereditary C lo P)
    {s s' : Subst} (hlo : s'.LevelsAbove lo) (hs : s'.Resolved) (keeps : s'.Keeps C P) {g : Goal}
    (h : g.Proper P s) : (g.refresh s').Proper P s' := by
  cases g with
  | fits exact expected actual =>
    exact ⟨⟨keeps.apply hP hlo h.1.1, hs.settled_apply expected⟩,
      keeps.apply hP hlo h.2.1, hs.settled_apply actual⟩
  | carries v field t => exact h
  | impossible clash => exact h

theorem meets_of_refresh {s : Subst} (hs : s.Resolved) (hθ : Subst.Solves θ s) {g : Goal}
    (h : (g.refresh s).Meets θ R) : g.Meets θ R := by
  cases g with
  | fits exact expected actual =>
    simpa only [refresh, Meets, hθ.subst_apply hs] using h
  | carries v field t => trivial
  | impossible clash => exact h

end Goal

section Step

variable {C : Nat → Prop} {lo : Nat → Nat} {P : Ty → Prop} (hP : Hereditary C lo P)
  {definition : Ty → Option Ty} {s : Subst} {goal : Goal} {θ : Nat → Ty}
  {R : Bool → Ty → Ty → Prop}

theorem Subst.Resolved.settled_recordShape (hs : s.Resolved) {v : TypeVar}
    {shape : List (String × Ty)} (h : s.recordShape v = some shape) :
    s.Settled (.record shape) := by
  unfold recordShape at h
  split at h
  · simp at h
  · obtain ⟨fields, -, rfl⟩ := Option.map_eq_some_iff.1 h
    rw [← apply_record]
    exact hs.settled_apply _

theorem Splits.over {Q : Ty → Prop} (hQ : Hereditary C lo Q)
    (shapes : ∀ v shape, P (.var v) → s.recordShape v = some shape → Q (.record shape))
    (carried : ∀ field t, P (.record [(field, t)]) → Q (s.apply t))
    (unfolded : ∀ t t', Q t → definition t = some t' → Q (s.apply t')) {new : List Goal}
    (h : Splits definition s goal new) (hgoal : goal.Over Q P) : ∀ g ∈ new, g.Over Q P := by
  have all {exact : Bool} {ts us : List Ty} (hts : ∀ t ∈ ts, Q t) (hus : ∀ u ∈ us, Q u) :
      ∀ g ∈ fitsAll exact ts us, g.Over Q P := by
    intro g hg
    obtain ⟨t, ht, u, hu, rfl⟩ := Problem.fitsAll_mem hg
    exact ⟨hts t ht, hus u hu⟩
  cases h with
  | var | const => simp
  | app _ _ => exact all (hQ.args hgoal.1) (hQ.args hgoal.2)
  | func _ =>
    intro g hg
    rcases List.mem_append.1 hg with hg | hg
    · exact all (hQ.params hgoal.2) (hQ.params hgoal.1) g hg
    · obtain rfl := List.mem_singleton.1 hg
      exact ⟨hQ.result hgoal.1, hQ.result hgoal.2⟩
  | tuple _ => exact all (hQ.elements hgoal.1) (hQ.elements hgoal.2)
  | record =>
    intro g hg
    rcases Problem.fitsFields_mem hg with ⟨field, hf, other, ho, rfl⟩ | ⟨clash, rfl⟩
    · exact ⟨hQ.field hgoal.1 field hf, hQ.field hgoal.2 other ho⟩
    · trivial
  | known hshape hfield =>
    intro g hg
    obtain rfl := List.mem_singleton.1 hg
    exact ⟨hQ.field (shapes _ _ hgoal.1 hshape) _ (Assoc.mem_of_get? hfield), carried _ _ hgoal.2⟩
  | expected ht =>
    intro g hg
    obtain rfl := List.mem_singleton.1 hg
    exact ⟨unfolded _ _ hgoal.1 ht, hgoal.2⟩
  | actual ht =>
    intro g hg
    obtain rfl := List.mem_singleton.1 hg
    exact ⟨hgoal.1, unfolded _ _ hgoal.2 ht⟩

include hP in
theorem Splits.proper (hdef : ∀ t t', P t → definition t = some t' → P t')
    (hlo : s.LevelsAbove lo) (hs : s.Resolved) (keeps : s.Keeps C P) {new : List Goal}
    (h : Splits definition s goal new)
    (hgoal : goal.Proper P s) : ∀ g ∈ new, g.Proper P s := by
  have hPs := hP.and (hereditary_within fun id => s.isBound id = false)
  have applied {t : Ty} (ht : P t) : P (s.apply t) ∧ s.Settled (s.apply t) :=
    ⟨keeps.apply hP hlo ht, hs.settled_apply t⟩
  have goals := h.over hPs
    (fun v shape hv hshape => ⟨keeps.recordShape hP hlo hv hshape, hs.settled_recordShape hshape⟩)
    (fun field t ht => applied (hP.field ht _ List.mem_cons_self))
    (fun t t' ht heq => applied (hdef t t' ht.1 heq)) (proper_iff_over.1 hgoal)
  exact fun g hg => proper_iff_over.2 (goals g hg)

theorem Splits.meets (fit : Fitting P definition θ R) (hs : s.Resolved) (hθ : Subst.Solves θ s)
    {new : List Goal} (h : Splits definition s goal new) (hgoal : goal.Proper P s)
    (hnew : ∀ g ∈ new, g.Meets θ R) : goal.Meets θ R := by
  cases h with
  | @var exact v w hid =>
    have : (Ty.var w).subst θ = (Ty.var v).subst θ := by simp [hid]
    rw [Goal.Meets, this]
    exact fit.refl
  | const => exact fit.refl
  | app hhead hlength =>
    exact fit.app hgoal.1.1 hgoal.2.1 hhead (meets_fitsAll hlength hnew)
  | func hlength =>
    exact fit.func (meets_fitsAll hlength.symm fun g hg => hnew g (List.mem_append_left _ hg))
      (hnew _ (List.mem_append_right _ List.mem_cons_self))
  | tuple hlength => exact fit.tuple (meets_fitsAll hlength hnew)
  | record =>
    obtain ⟨provided, extra⟩ := meets_fitsFields hnew
    exact fit.record hgoal.1.1 hgoal.2.1 provided extra
  | known _ _ => trivial
  | expected ht =>
    have := hnew _ List.mem_cons_self
    rw [Goal.Meets, hθ.subst_apply hs] at this
    exact fit.expected hgoal.1.1 ht this
  | actual ht =>
    have := hnew _ List.mem_cons_self
    rw [Goal.Meets, hθ.subst_apply hs] at this
    exact fit.actual hgoal.2.1 ht this

include hP in
theorem over_demanded {Q : Ty → Prop} {v : TypeVar} {t : Ty} (ht : P t) (ht' : Q t)
    (shapes : ∀ shape, s.recordShape v = some shape → P (.record shape) ∧ Q (.record shape)) :
    ∀ g ∈ ((s.recordShape v).map (demands t)).getD [], g.Over Q P := by
  intro g hg
  cases hshape : s.recordShape v with
  | none => simp [hshape] at hg
  | some required =>
    obtain ⟨required, required'⟩ := shapes _ hshape
    rw [hshape, Option.map_some, Option.getD_some] at hg
    unfold demands at hg
    split at hg
    · obtain ⟨field, hf, rfl⟩ := List.mem_map.1 hg
      exact ⟨ht, hP.single required hf⟩
    · obtain rfl := List.mem_singleton.1 hg
      exact ⟨required', ht'⟩

include hP in
theorem proper_demanded (hlo : s.LevelsAbove lo) (hs : s.Resolved) (keeps : s.Keeps C P)
    {v : TypeVar} {t : Ty} (hv : P (.var v)) (ht : P t ∧ s.Settled t) :
    ∀ g ∈ ((s.recordShape v).map (demands t)).getD [], g.Proper P s := by
  intro g hg
  refine proper_iff_over.2 (over_demanded hP ht.1 ht (fun shape hshape => ?_) g hg)
  have hshape' := keeps.recordShape hP hlo hv hshape
  exact ⟨hshape', hshape', hs.settled_recordShape hshape⟩

namespace Subst

include hP in
theorem origin_lowest (hlo : s.LevelsAbove lo) (hs : s.Resolved) (keeps : s.Keeps C P) {t : Ty}
    (ht : P t) {level id l : Nat}
    (h : (lowest s.levels (s.loweredLevels t level)).get? id = some l) :
    s.levels.get? id = some l ∨ ∃ v, P (.var v) ∧ v.id = id ∧ l < v.level := by
  rcases lowest_origin h with h | h
  · exact .inl h
  · obtain ⟨rfl, v, hv, hid, hlt⟩ := mem_loweredLevels h
    exact .inr ⟨v, keeps.reachable hP hlo hs ht v hv, hid, hlt⟩

include hP in
theorem extends_bind {v : TypeVar} {t : Ty} (hlo : (s.bind v t).LevelsAbove lo) (hs : s.Resolved)
    (keeps : s.Keeps C P) (hv : P (.var v)) (ht : P t ∧ s.Settled t)
    (fresh : t.mentions v.id = false) (unbound : s.isBound v.id = false) :
    s.Extends C P (s.bind v t) where
  resolved := resolved_bind hs ht.2 fresh
  keeps := keeps.bind hP ht.1 hlo
  solves := hs.solves_bind fresh unbound
  bound id h := by simp [h]
  frame id h := by
    have hne : v.id ≠ id := fun heq => h (heq ▸ hP.ids hv)
    simp [hne]
  recorded id _ h := by simp [get?_records_bind, h]
  stale _ id fields _ bound h := by
    rw [isBound_bind] at bound
    rw [get?_records_bind] at h
    simp_all
  lowered _ _ h := lowest_le h
  origin _ _ h := origin_lowest hP (LevelsAbove.of_lowest hlo).1 hs keeps ht.1 h

include hP in
theorem extends_lower {t : Ty} {level : Nat} (hlo : (s.lower t level).LevelsAbove lo)
    (hs : s.Resolved) (keeps : s.Keeps C P) (ht : P t) : s.Extends C P (s.lower t level) where
  resolved := resolved_lower hs t level
  keeps := keeps.lower hP t level hlo
  solves := by
    rw [image_lower]
    exact hs.image_idem
  bound := by simp
  frame := by simp
  recorded id _ h := by
    obtain ⟨levels, -, hlower⟩ := exists_lower s t level
    exact (hlower id).2.2 h
  stale stale := stale.lower t level
  lowered _ _ h := by
    rw [lower_levels]
    exact lowest_le h
  origin _ _ h := by
    rw [lower_levels] at h
    unfold LevelsAbove at hlo
    rw [lower_levels] at hlo
    exact origin_lowest hP (LevelsAbove.of_lowest hlo).1 hs keeps ht h

include hP in
theorem extends_requireField {v : TypeVar} {field : String} {t : Ty}
    (hlo : (s.requireField v field t).LevelsAbove lo) (hs : s.Resolved) (keeps : s.Keeps C P)
    (hv : P (.var v)) (ht : P (.record [(field, t)])) :
    s.Extends C P (s.requireField v field t) := by
  obtain ⟨level, -, hlevels, hrecords⟩ := exists_requireField s v field t
  have hlo' : (s.lower t level).LevelsAbove lo := by
    unfold LevelsAbove at hlo ⊢
    rwa [hlevels] at hlo
  have lower := extends_lower hP hlo' hs keeps (hP.field ht _ List.mem_cons_self)
  exact {
    resolved := resolved_requireField hs v field t
    keeps := keeps.requireField hP ht hlo
    solves := by
      rw [image_requireField]
      exact hs.image_idem
    bound := by simp
    frame := by simp
    recorded := fun id hid h => by
      have hne : v.id ≠ id := fun heq => hid (heq ▸ hP.ids hv)
      rw [hrecords, if_neg hne]
      exact lower.recorded id hid h
    stale := fun stale => stale.requireField hP ht
    lowered := by
      rw [hlevels]
      exact lower.lowered
    origin := by
      rw [hlevels]
      exact lower.origin }

theorem Extends.refl (hs : s.Resolved) (keeps : s.Keeps C P) : s.Extends C P s :=
  ⟨hs, keeps, hs.image_idem, fun _ h => h, fun _ _ => rfl, fun _ _ h => h, fun h => h,
    fun _ l h => ⟨l, Nat.le_refl l, h⟩, fun _ _ h => .inl h⟩

theorem Extends.trans {s' s'' : Subst} (h : s.Extends C P s') (h' : s'.Extends C P s'') :
    s.Extends C P s'' where
  resolved := h'.resolved
  keeps := h'.keeps
  solves := h'.solves.trans h.solves
  bound id hid := h'.bound id (h.bound id hid)
  frame id hid := (h'.frame id hid).trans (h.frame id hid)
  recorded id hid hnone := h'.recorded id hid (h.recorded id hid hnone)
  stale stale := h'.stale (h.stale stale)
  lowered id l hl := by
    obtain ⟨m, hm, hget⟩ := h.lowered id l hl
    obtain ⟨l', hl', hget'⟩ := h'.lowered id m hget
    exact ⟨l', Nat.le_trans hl' hm, hget'⟩
  origin id l hl := by
    rcases h'.origin id l hl with hl | new
    · exact h.origin id l hl
    · exact .inr new

end Subst

theorem Moves.levelsAbove {s' : Subst} {new : List Goal} (h : Moves s goal s' new)
    (hlo : s'.LevelsAbove lo) : s.LevelsAbove lo := by
  cases h with
  | expected _ _ => exact (Subst.LevelsAbove.of_lowest hlo).1
  | actual _ _ => exact (Subst.LevelsAbove.of_lowest hlo).1
  | @record v field t _ =>
    obtain ⟨level, -, hlevels, -⟩ := Subst.exists_requireField s v field t
    unfold Subst.LevelsAbove at hlo
    rw [hlevels, Subst.lower_levels] at hlo
    exact (Subst.LevelsAbove.of_lowest hlo).1

include hP in
theorem Moves.extends {s' : Subst} (hlo : s'.LevelsAbove lo) (hs : s.Resolved)
    (keeps : s.Keeps C P) {new : List Goal} (h : Moves s goal s' new) (hgoal : goal.Proper P s) :
    s.Extends C P s' ∧ ∀ g ∈ new, g.Proper P s := by
  have hlo' := h.levelsAbove hlo
  cases h with
  | expected fresh unbound =>
    exact ⟨Subst.extends_bind hP hlo hs keeps hgoal.1.1 hgoal.2 fresh unbound,
      proper_demanded hP hlo' hs keeps hgoal.1.1 hgoal.2⟩
  | actual fresh unbound =>
    exact ⟨Subst.extends_bind hP hlo hs keeps hgoal.2.1 hgoal.1 fresh unbound,
      proper_demanded hP hlo' hs keeps hgoal.2.1 hgoal.1⟩
  | record _ => exact ⟨Subst.extends_requireField hP hlo hs keeps hgoal.1 hgoal.2, by simp⟩

theorem Moves.meets (fit : Fitting P definition θ R) {s' : Subst} {new : List Goal}
    (h : Moves s goal s' new) (hθ : Subst.Solves θ s') : goal.Meets θ R := by
  cases h with
  | expected _ _ =>
    rw [Goal.Meets, subst_var, hθ.bound]
    exact fit.refl
  | actual _ _ =>
    rw [Goal.Meets, subst_var, hθ.bound]
    exact fit.refl
  | record _ => trivial

end Step

/-- A moment of a run that ends in `final`, where all goals are met. -/
structure Running (C : Nat → Prop) (P : Ty → Prop) (definition : Ty → Option Ty) (final s : Subst)
    (goals : List Goal) : Prop where
  resolved : s.Resolved
  keeps : s.Keeps C P
  proper : ∀ g ∈ goals, g.Proper P s
  ends : s.Extends C P final
  meets : ∀ R, Fitting P definition final.image R → ∀ g ∈ goals, g.Meets final.image R

/-- Induction along a successful run, from its end, with what is known at each moment and the
variables for which fields come late from there on. -/
theorem solve_along {C : Nat → Prop} {lo : Nat → Nat} {P : Ty → Prop} (hP : Hereditary C lo P)
    {definition : Ty → Option Ty} (hdef : ∀ t t', P t → definition t = some t' → P t')
    {p : Problem} {final : Subst} (h : p.solve definition = .ok final)
    (hlo : final.LevelsAbove lo) (resolved : p.subst.Resolved) (keeps : p.subst.Keeps C P)
    (proper : ∀ g ∈ p.goals, g.Proper P p.subst) {motive : List Nat → Subst → List Goal → Prop}
    (done : motive [] final [])
    (split : ∀ {later s goal new rest}, Running C P definition final s (goal :: rest) →
      Splits definition s goal new → motive later s (new ++ rest) →
      motive (goal.late s ++ later) s (goal :: rest))
    (move : ∀ {later s goal s' new rest}, Running C P definition final s (goal :: rest) →
      Running C P definition final s' ((new ++ rest).map (refresh s')) → Moves s goal s' new →
      motive later s' ((new ++ rest).map (refresh s')) →
      motive (goal.late s ++ later) s (goal :: rest)) :
    Running C P definition final p.subst p.goals ∧
      motive (p.late definition) p.subst p.goals := by
  suffices p.subst.LevelsAbove lo ∧ (p.subst.Resolved → p.subst.Keeps C P →
      (∀ g ∈ p.goals, g.Proper P p.subst) →
      Running C P definition final p.subst p.goals ∧
        motive (p.late definition) p.subst p.goals) from
    this.2 resolved keeps proper
  refine Problem.solve_induction_late (motive := fun later s goals => s.LevelsAbove lo ∧
    (s.Resolved → s.Keeps C P → (∀ g ∈ goals, g.Proper P s) →
      Running C P definition final s goals ∧ motive later s goals)) ?_ ?_ ?_ h
  · exact ⟨hlo, fun hs keeps _ => ⟨⟨hs, keeps, by simp, .refl hs keeps, by simp⟩, done⟩⟩
  · rintro later s goal new rest hsplit ⟨hlo, ih⟩
    refine ⟨hlo, fun hs keeps proper => ?_⟩
    have front := proper goal List.mem_cons_self
    obtain ⟨next, holds⟩ := ih hs keeps fun g hg => by
      rcases List.mem_append.1 hg with hg | hg
      · exact hsplit.proper hP hdef hlo hs keeps front g hg
      · exact proper g (List.mem_cons_of_mem _ hg)
    have now : Running C P definition final s (goal :: rest) := by
      refine ⟨hs, keeps, proper, next.ends, fun R fit g hg => ?_⟩
      rcases List.mem_cons.1 hg with rfl | hg
      · exact hsplit.meets fit hs next.ends.solves front fun g hg =>
          next.meets R fit g (List.mem_append_left _ hg)
      · exact next.meets R fit g (List.mem_append_right _ hg)
    exact ⟨now, split now hsplit holds⟩
  · rintro later s goal s' new rest hmove ⟨hlo, ih⟩
    refine ⟨hmove.levelsAbove hlo, fun hs keeps proper => ?_⟩
    have front := proper goal List.mem_cons_self
    obtain ⟨step, hnew⟩ := hmove.extends hP hlo hs keeps front
    obtain ⟨next, holds⟩ := ih step.resolved step.keeps fun g hg => by
      obtain ⟨given, hgiven, rfl⟩ := List.mem_map.1 hg
      have before : given.Proper P s := by
        rcases List.mem_append.1 hgiven with hgiven | hgiven
        · exact hnew given hgiven
        · exact proper given (List.mem_cons_of_mem _ hgiven)
      exact proper_refresh hP hlo step.resolved step.keeps before
    have now : Running C P definition final s (goal :: rest) := by
      refine ⟨hs, keeps, proper, step.trans next.ends, fun R fit g hg => ?_⟩
      rcases List.mem_cons.1 hg with rfl | hg
      · exact hmove.meets fit next.ends.solves
      · exact meets_of_refresh step.resolved next.ends.solves
          (next.meets R fit _ (List.mem_map_of_mem (List.mem_append_right _ hg)))
    exact ⟨now, move now next hmove holds⟩

theorem solve_fits {C : Nat → Prop} {lo : Nat → Nat} {P : Ty → Prop} (hP : Hereditary C lo P)
    {definition : Ty → Option Ty} (hdef : ∀ t t', P t → definition t = some t' → P t')
    {p : Problem} {final : Subst} (h : p.solve definition = .ok final)
    (hlo : final.LevelsAbove lo) (resolved : p.subst.Resolved) (keeps : p.subst.Keeps C P)
    (proper : ∀ g ∈ p.goals, g.Proper P p.subst) :
    p.subst.Extends C P final ∧ ∀ R, Fitting P definition final.image R →
      ∀ g ∈ p.goals, g.Meets final.image R := by
  have start := (solve_along hP hdef h hlo resolved keeps proper (motive := fun _ _ _ => True)
    trivial (fun _ _ _ => trivial) fun _ _ _ _ => trivial).1
  exact ⟨start.ends, start.meets⟩

theorem unify_levelsAbove {lo : Nat → Nat} {definition : Ty → Option Ty} {expected actual : Ty}
    {s s' : Subst} (h : unify definition expected actual s = .ok s') (hlo : s'.LevelsAbove lo) :
    s.LevelsAbove lo :=
  Problem.solve_induction (motive := fun s _ => s.LevelsAbove lo) hlo (fun _ h => h)
    (fun hmove h => hmove.levelsAbove h) h

theorem unify_fits {C : Nat → Prop} {lo : Nat → Nat} {P : Ty → Prop} (hP : Hereditary C lo P)
    {definition : Ty → Option Ty} (hdef : ∀ t t', P t → definition t = some t' → P t')
    {expected actual : Ty} {s s' : Subst} (h : unify definition expected actual s = .ok s')
    (hlo : s'.LevelsAbove lo) (resolved : s.Resolved) (keeps : s.Keeps C P)
    (hexpected : P expected) (hactual : P actual) :
    s.Extends C P s' ∧ ∀ R, Fitting P definition s'.image R →
      R false (expected.subst s'.image) (actual.subst s'.image) := by
  have hlo' := unify_levelsAbove h hlo
  obtain ⟨ext, meets⟩ := solve_fits hP hdef h hlo resolved keeps fun g hg => by
    obtain rfl := List.mem_singleton.1 hg
    exact ⟨⟨keeps.apply hP hlo' hexpected, resolved.settled_apply expected⟩,
      keeps.apply hP hlo' hactual, resolved.settled_apply actual⟩
  refine ⟨ext, fun R fit => ?_⟩
  have := meets R fit _ List.mem_cons_self
  rwa [Goal.Meets, ext.solves.subst_apply resolved, ext.solves.subst_apply resolved] at this

end Polytype
