import Polytype.Proofs.Env.Expansion
import Polytype.Proofs.Unification.Subtyping

/-!
# Subtyping behind names

Two types fit to depth `n` if the types behind their names have the same outermost shape and their
parts fit to depth `n - 1`; below a reference cell the fit is exact. Types that fit to every depth
are related as structural subtypes even where definitions are recursive.

Two uses of one name are unified argument by argument, without a look at its definition. If every
definition uses its parameters covariantly, unified types fit to every depth (`fitsTo_of_unify`).
Otherwise they need not: a name for a reference cell accepts contents that the cell itself rejects.
-/

namespace Polytype

open Ty Goal

inductive Env.Unfolds (env : Env) : Ty → Ty → Prop
  | stop {t} : env.expand t = none → Unfolds env t t
  | step {t u shape} : env.expand t = some u → Unfolds env u shape → Unfolds env t shape

/-- The outermost shapes agree, and the parts are related by `R exact expected actual`. -/
inductive Alike (R : Bool → Ty → Ty → Prop) (exact : Bool) : Ty → Ty → Prop
  | var {v} : Alike R exact (.var v) (.var v)
  | const {name} : Alike R exact (.const name) (.const name)
  | app {head args args'} : List.Forall₂ (R (exact || head.isNamed "Ref")) args args' →
      Alike R exact (.app head args) (.app head args')
  | func {params params' result result'} : List.Forall₂ (R exact) params' params →
      R exact result result' → Alike R exact (.func params result) (.func params' result')
  | tuple {elements elements'} : List.Forall₂ (R exact) elements elements' →
      Alike R exact (.tuple elements) (.tuple elements')
  | record {fields fields'} :
      (∀ name t, Assoc.get? fields name = some t →
        ∃ u, Assoc.get? fields' name = some u ∧ R exact t u) →
      (exact = true → ∀ name, Assoc.get? fields name = none → Assoc.get? fields' name = none) →
      Alike R exact (.record fields) (.record fields')

/-- The actual type fits the expected one to a depth, names being replaced by what they stand
for. -/
def FitsTo (env : Env) : Nat → Bool → Ty → Ty → Prop
  | 0, _, _, _ => True
  | depth + 1, exact, expected, actual =>
    (∀ shape, env.Unfolds expected shape →
      ∃ shape', env.Unfolds actual shape' ∧ Alike (FitsTo env depth) exact shape shape') ∧
    ∀ shape', env.Unfolds actual shape' → ∃ shape, env.Unfolds expected shape

def FitsAlways (env : Env) (exact : Bool) (expected actual : Ty) : Prop :=
  ∀ depth, FitsTo env depth exact expected actual

def CovariantNode : Ty → Prop
  | .func params _ => ∀ t ∈ params, t.vars = []
  | .app head args => head.isNamed "Ref" = true → ∀ t ∈ args, t.vars = []
  | _ => True

/-- Definitions use their parameters covariantly. -/
def Env.Covariant (env : Env) : Prop :=
  ∀ {params target}, env.Target params target → Everywhere CovariantNode target

variable {env : Env} {exact : Bool}

/-! ## Unfolding -/

theorem unfolds_of_expand {t u shape : Ty} (h : env.expand t = some u) :
    env.Unfolds t shape ↔ env.Unfolds u shape := by
  refine ⟨fun ht => ?_, .step h⟩
  cases ht with
  | stop hnone => simp [h] at hnone
  | step hsome hu =>
    obtain rfl := Option.some.inj (h.symm.trans hsome)
    exact hu

theorem unfolds_of_stuck {t shape : Ty} (h : env.expand t = none) :
    env.Unfolds t shape ↔ shape = t := by
  constructor
  · intro ht
    cases ht with
    | stop _ => rfl
    | step hsome _ => simp [h] at hsome
  · rintro rfl
    exact .stop h

/-! ## Fitting to a depth -/

theorem FitsTo.of_expected {t t' u : Ty} (h : env.expand t = some t') {depth : Nat}
    (hfits : FitsTo env depth exact t' u) : FitsTo env depth exact t u := by
  cases depth with
  | zero => trivial
  | succ depth =>
    simp only [FitsTo, unfolds_of_expand h]
    exact hfits

theorem FitsTo.of_actual {t u u' : Ty} (h : env.expand u = some u') {depth : Nat}
    (hfits : FitsTo env depth exact t u') : FitsTo env depth exact t u := by
  cases depth with
  | zero => trivial
  | succ depth =>
    simp only [FitsTo, unfolds_of_expand h]
    exact hfits

theorem fitsTo_of_alike {t u : Ty} (ht : env.expand t = none) (hu : env.expand u = none)
    {depth : Nat} (h : Alike (FitsTo env depth) exact t u) : FitsTo env (depth + 1) exact t u := by
  refine ⟨fun shape hshape => ?_, fun _ _ => ⟨t, .stop ht⟩⟩
  obtain rfl := (unfolds_of_stuck ht).1 hshape
  exact ⟨u, .stop hu, h⟩

theorem alike_refl {R : Bool → Ty → Ty → Prop} (hR : ∀ exact t, R exact t t) (t : Ty) :
    Alike R exact t t := by
  cases t with
  | var v => exact .var
  | const name => exact .const
  | app head args => exact .app (forall₂_self fun t _ => hR _ t)
  | func params result => exact .func (forall₂_self fun t _ => hR _ t) (hR _ _)
  | record fields => exact .record (fun _ t ht => ⟨t, ht, hR _ t⟩) fun _ _ h => h
  | tuple elements => exact .tuple (forall₂_self fun t _ => hR _ t)

theorem fitsTo_refl (depth : Nat) (exact : Bool) (t : Ty) : FitsTo env depth exact t t := by
  induction depth generalizing exact t with
  | zero => trivial
  | succ depth ih =>
    exact ⟨fun shape h => ⟨shape, h, alike_refl ih shape⟩, fun shape h => ⟨shape, h⟩⟩

theorem FitsTo.weaken {depth : Nat} {t u : Ty} (h : FitsTo env depth true t u) (exact : Bool) :
    FitsTo env depth exact t u := by
  induction depth generalizing t u exact with
  | zero => trivial
  | succ depth ih =>
    refine ⟨fun shape hshape => ?_, h.2⟩
    obtain ⟨shape', hshape', alike⟩ := h.1 shape hshape
    refine ⟨shape', hshape', ?_⟩
    cases alike with
    | var => exact .var
    | const => exact .const
    | app hargs => exact .app (hargs.imp fun _ _ h => ih h _)
    | func hparams hresult => exact .func (hparams.imp fun _ _ h => ih h _) (ih hresult _)
    | tuple helements => exact .tuple (helements.imp fun _ _ h => ih h _)
    | record provided extra =>
      refine .record (fun name t ht => ?_) fun _ => extra rfl
      obtain ⟨u, hu, hfits⟩ := provided name t ht
      exact ⟨u, hu, ih hfits _⟩

/-! ## Covariant positions -/

/-- Types that differ in covariant positions alone, where they are related by `R`. -/
inductive Lifted (R : Ty → Ty → Prop) : Ty → Ty → Prop
  | base {t u} : R t u → Lifted R t u
  | app {head args args'} : head.isNamed "Ref" = false → List.Forall₂ (Lifted R) args args' →
      Lifted R (.app head args) (.app head args')
  | func {params result result'} : Lifted R result result' →
      Lifted R (.func params result) (.func params result')
  | tuple {elements elements'} : List.Forall₂ (Lifted R) elements elements' →
      Lifted R (.tuple elements) (.tuple elements')
  | record {fields fields'} :
      (∀ name, (Assoc.get? fields name).isSome = (Assoc.get? fields' name).isSome) →
      (∀ name t u, Assoc.get? fields name = some t → Assoc.get? fields' name = some u →
        Lifted R t u) →
      Lifted R (.record fields) (.record fields')

theorem lifted_subst {R : Ty → Ty → Prop} (hR : ∀ t, R t t) {σ σ' : Nat → Ty} {t : Ty}
    (heads : NamedHeads t) (covariant : Everywhere CovariantNode t)
    (h : ∀ v ∈ t.vars, Lifted R (σ v.id) (σ' v.id)) : Lifted R (t.subst σ) (t.subst σ') := by
  have unchanged {ts : List Ty} (hts : ∀ t ∈ ts, t.vars = []) :
      ts.map (subst σ) = ts.map (subst σ') :=
    List.map_congr_left fun t ht => subst_congr fun v hv => by simp [hts t ht] at hv
  induction t using induct with
  | var v => exact h v (by simp [vars])
  | const name => exact .base (hR _)
  | app head args _ ihArgs =>
    obtain ⟨hnode, hhead, hargs⟩ := everywhere_app.1 covariant
    obtain ⟨named, -, hargs'⟩ := everywhere_app.1 heads
    cases head with
    | const name =>
      simp only [subst_app, subst_const]
      cases href : (const name).isNamed "Ref" with
      | true =>
        -- No parameter occurs inside of a cell, where the types would have to be equal.
        rw [unchanged (hnode href)]
        exact .base (hR _)
      | false =>
        refine .app href ?_
        rw [List.forall₂_map_left_iff, List.forall₂_map_right_iff]
        refine forall₂_self fun t ht => ihArgs t ht (hargs' t ht) (hargs t ht) fun v hv => h v ?_
        simp only [vars, varsList_eq, List.mem_append, List.mem_flatMap]
        exact .inr ⟨t, ht, hv⟩
    | _ => exact named.elim
  | func params result _ ihResult =>
    obtain ⟨hnode, -, hresult⟩ := everywhere_func.1 covariant
    simp only [subst_func, unchanged hnode]
    refine .func (ihResult (everywhere_func.1 heads).2.2 hresult fun v hv => h v ?_)
    simp [vars, hv]
  | record fields ih =>
    rw [subst_record, subst_record]
    refine .record (fun name => ?_) fun name t u ht hu => ?_
    · simp [Assoc.get?_map]
    · rw [Assoc.get?_map] at ht hu
      obtain ⟨given, hgiven, rfl⟩ := Option.map_eq_some_iff.1 ht
      obtain ⟨given', hgiven', rfl⟩ := Option.map_eq_some_iff.1 hu
      obtain rfl := Option.some.inj (hgiven.symm.trans hgiven')
      have hmem := Assoc.mem_of_get? hgiven
      refine ih _ hmem ((everywhere_record.1 heads).2 _ hmem)
        ((everywhere_record.1 covariant).2 _ hmem) fun v hv => h v ?_
      simp only [vars, varsFields_eq, List.mem_flatMap]
      exact ⟨_, hmem, hv⟩
  | tuple elements ih =>
    rw [subst_tuple, subst_tuple]
    refine .tuple ?_
    rw [List.forall₂_map_left_iff, List.forall₂_map_right_iff]
    refine forall₂_self fun t ht => ih t ht ((everywhere_tuple.1 heads).2 t ht)
      ((everywhere_tuple.1 covariant).2 t ht) fun v hv => h v ?_
    simp only [vars, varsList_eq, List.mem_flatMap]
    exact ⟨t, ht, hv⟩

section Lifted

variable (closed : env.Closed) (covariant : env.Covariant)

include closed covariant in
theorem lifted_expand {R : Ty → Ty → Prop} (hR : ∀ t, R t t) {head : Ty} {args args' : List Ty}
    {u : Ty} (ht : Within env.Outside (.app head args)) (ht' : Within env.Outside (.app head args'))
    (hargs : List.Forall₂ (Lifted R) args args') (h : env.expand (.app head args) = some u) :
    ∃ u', env.expand (.app head args') = some u' ∧ Lifted R u u' := by
  have hname : (Ty.app head args).headName? = (Ty.app head args').headName? := rfl
  obtain ⟨params, target, σ, σ', htarget, rfl, hexpand, hσ⟩ :=
    Env.expand_related closed hname hargs ht ht' h
  exact ⟨_, hexpand, lifted_subst hR (closed.heads htarget) (covariant htarget) hσ⟩

include closed covariant in
theorem unfolds_of_lifted {t u shape' : Ty} (ht : Within env.Outside t) (hu : Within env.Outside u)
    (h : Lifted (FitsAlways env exact) t u) (hunfolds : env.Unfolds u shape') :
    ∃ shape, env.Unfolds t shape := by
  induction hunfolds generalizing t with
  | stop hnone =>
    cases h with
    | base h => exact (h 1).2 _ (.stop hnone)
    | app _ hargs => exact ⟨_, .stop (Env.expand_app_eq_none hargs.length_eq.symm hnone)⟩
    | func | tuple | record => exact ⟨_, .stop (by simp)⟩
  | step hsome later ih =>
    cases h with
    | base h => exact (h 1).2 _ (.step hsome later)
    | @app head args args' _ hargs =>
      cases hexpand : env.expand (.app head args) with
      | none => exact ⟨_, .stop hexpand⟩
      | some t' =>
        obtain ⟨u', hu', lifted⟩ :=
          lifted_expand closed covariant (fun t depth => fitsTo_refl depth exact t) ht hu hargs hexpand
        obtain rfl := Option.some.inj (hsome.symm.trans hu')
        obtain ⟨shape, hshape⟩ :=
          ih (Env.within_expand closed.vars ht hexpand) (Env.within_expand closed.vars hu hsome) lifted
        exact ⟨shape, .step hexpand hshape⟩
    | func | tuple | record => simp at hsome

include closed covariant in
theorem fitsAlways_of_lifted {t u : Ty} (ht : Within env.Outside t) (hu : Within env.Outside u)
    (h : Lifted (FitsAlways env exact) t u) : FitsAlways env exact t u := by
  intro depth
  have hwithin : Hereditary env.Outside anyLevel (Within env.Outside) := hereditary_within _
  induction depth generalizing t u with
  | zero => trivial
  | succ depth ih =>
    have parts {ts us : List Ty} (hts : ∀ t ∈ ts, Within env.Outside t)
        (hus : ∀ u ∈ us, Within env.Outside u)
        (h : List.Forall₂ (Lifted (FitsAlways env exact)) ts us) :
        List.Forall₂ (FitsTo env depth exact) ts us := by
      induction h with
      | nil => exact .nil
      | cons h _ rest =>
        exact .cons (ih (hts _ List.mem_cons_self) (hus _ List.mem_cons_self) h)
          (rest (fun t ht => hts t (List.mem_cons_of_mem _ ht))
            fun u hu => hus u (List.mem_cons_of_mem _ hu))
    refine ⟨fun shape hunfolds => ?_, fun _ => unfolds_of_lifted closed covariant ht hu h⟩
    -- Along the names in front of `t`, those in front of `u` are the same.
    induction hunfolds generalizing u with
    | stop hnone =>
      cases h with
      | base h => exact (h (depth + 1)).1 _ (.stop hnone)
      | app href hargs =>
        refine ⟨_, .stop (Env.expand_app_eq_none hargs.length_eq hnone), .app ?_⟩
        rw [href, Bool.or_false]
        exact parts (hwithin.args ht) (hwithin.args hu) hargs
      | func hresult =>
        exact ⟨_, .stop (by simp), .func (forall₂_self fun t _ => fitsTo_refl depth exact t)
          (ih (hwithin.result ht) (hwithin.result hu) hresult)⟩
      | tuple helements =>
        exact ⟨_, .stop (by simp), .tuple (parts (hwithin.elements ht) (hwithin.elements hu) helements)⟩
      | record present related =>
        refine ⟨_, .stop (by simp), .record (fun name t hget => ?_) fun _ name hnone => ?_⟩
        · obtain ⟨u, hget'⟩ := Option.isSome_iff_exists.1
            ((present name).symm.trans (by simp [hget]))
          exact ⟨u, hget', ih (hwithin.field ht _ (Assoc.mem_of_get? hget))
            (hwithin.field hu _ (Assoc.mem_of_get? hget')) (related name t u hget hget')⟩
        · have := present name
          rw [hnone] at this
          simpa using this.symm
    | step hsome later next =>
      cases h with
      | base h => exact (h (depth + 1)).1 _ (.step hsome later)
      | app _ hargs =>
        obtain ⟨u', hu', lifted⟩ :=
          lifted_expand closed covariant (fun t depth => fitsTo_refl depth exact t) ht hu hargs hsome
        obtain ⟨shape', hshape', alike⟩ :=
          next (Env.within_expand closed.vars ht hsome) (Env.within_expand closed.vars hu hu') lifted
        exact ⟨shape', .step hu' hshape', alike⟩
      | func | tuple | record => simp at hsome

include closed covariant in
theorem FitsAlways.app {head : Ty} {args args' : List Ty} (ht : Within env.Outside (.app head args))
    (hu : Within env.Outside (.app head args'))
    (h : List.Forall₂ (FitsAlways env (exact || head.isNamed "Ref")) args args') :
    FitsAlways env exact (.app head args) (.app head args') := by
  intro depth
  cases hexpand : env.expand (.app head args) with
  | none =>
    cases depth with
    | zero => trivial
    | succ depth =>
      exact fitsTo_of_alike hexpand (Env.expand_app_eq_none h.length_eq hexpand)
        (.app (h.imp fun _ _ h => h depth))
  | some t' =>
    have hargs : List.Forall₂ (Lifted (FitsAlways env exact)) args args' := by
      refine h.imp fun t u h => .base fun depth => ?_
      have := h depth
      cases href : head.isNamed "Ref" with
      | true =>
        rw [href, Bool.or_true] at this
        exact this.weaken exact
      | false => rwa [href, Bool.or_false] at this
    obtain ⟨u', hu', lifted⟩ :=
      lifted_expand closed covariant (fun t depth => fitsTo_refl depth exact t) ht hu hargs hexpand
    exact .of_expected hexpand (.of_actual hu' (fitsAlways_of_lifted closed covariant
      (Env.within_expand closed.vars ht hexpand) (Env.within_expand closed.vars hu hu') lifted depth))

end Lifted

/-! ## Unified types fit -/

/-- No parameter of a definition occurs, and no application is headed by a variable. -/
def Env.Admits (env : Env) (t : Ty) : Prop := Within env.Outside t ∧ Firm t

theorem hereditary_admits {lo : Nat → Nat} : Hereditary env.Outside lo env.Admits :=
  (hereditary_within _).and hereditary_firm

theorem firm_of_namedHeads {t : Ty} (h : NamedHeads t) : Firm t := by
  induction h with
  | var _ => exact .var trivial
  | const _ => exact .const trivial
  | @app head args hnode _ _ ihHead ihArgs =>
    cases head with
    | const name => exact .app trivial ihHead ihArgs
    | _ => exact hnode.elim
  | func _ _ _ ihParams ihResult => exact .func trivial ihParams ihResult
  | record _ _ ih => exact .record trivial ih
  | tuple _ _ ih => exact .tuple trivial ih

theorem admits_expand (closed : env.Closed) (t t' : Ty) (ht : env.Admits t)
    (h : env.expand t = some t') : env.Admits t' := by
  refine ⟨Env.within_expand closed.vars ht.1 h, ?_⟩
  obtain ⟨params, target, htarget, rfl, hargs⟩ := Env.expand_filled closed ht.1 h
  have firm : ∀ u ∈ t.args, Firm u := by
    cases t with
    | app head args => exact (everywhere_app.1 ht.2).2.2
    | _ => simp [Ty.args]
  have hfirm : Hereditary anyId anyLevel Firm := hereditary_firm
  exact hfirm.mapVars (firm_of_namedHeads (closed.heads htarget)) fun v hv => firm _ (hargs v hv)

theorem fitting_fitsAlways (closed : env.Closed) (covariant : env.Covariant) {θ : Nat → Ty}
    (hθ : ∀ id, env.Outside id → Within env.Outside (θ id)) :
    Fitting env.Admits env.expand θ (FitsAlways env) := by
  -- Where no name is in front, one level of parts makes one level of depth.
  have shaped {exact : Bool} {t u : Ty} (ht : env.expand t = none) (hu : env.expand u = none)
      (h : ∀ depth, Alike (FitsTo env depth) exact t u) : FitsAlways env exact t u := by
    intro depth
    cases depth with
    | zero => trivial
    | succ depth => exact fitsTo_of_alike ht hu (h depth)
  constructor
  case refl => exact fun depth => fitsTo_refl depth _ _
  case app =>
    intro exact head head' args args' ht hu hhead hargs
    have ht' := Env.within_subst hθ ht.1
    have hu' := Env.within_subst hθ hu.1
    simp only [subst_app, ← subst_eq_of_erase hhead] at ht' hu' ⊢
    refine .app closed covariant ht' hu' ?_
    rw [List.forall₂_map_left_iff, List.forall₂_map_right_iff, isNamed_subst ht.2]
    exact hargs
  case func =>
    intro exact params params' result result' hparams hresult
    rw [subst_func, subst_func]
    refine shaped (by simp) (by simp) fun depth => .func ?_ (hresult depth)
    rw [List.forall₂_map_left_iff, List.forall₂_map_right_iff]
    exact hparams.imp fun _ _ h => h depth
  case tuple =>
    intro exact elements elements' h
    rw [subst_tuple, subst_tuple]
    refine shaped (by simp) (by simp) fun depth => .tuple ?_
    rw [List.forall₂_map_left_iff, List.forall₂_map_right_iff]
    exact h.imp fun _ _ h => h depth
  case record =>
    intro exact fields fields' _ _ provided extra
    rw [subst_record, subst_record]
    refine shaped (by simp) (by simp) fun depth =>
      .record (fun name t ht => ?_) fun hexact name hname => ?_
    · rw [Assoc.get?_map] at ht
      obtain ⟨given, hgiven, rfl⟩ := Option.map_eq_some_iff.1 ht
      obtain ⟨u, hu, hfits⟩ := provided _ (Assoc.mem_of_get? hgiven)
      exact ⟨u.subst θ, by rw [Assoc.get?_map, hu]; rfl, hfits depth⟩
    · rw [Assoc.get?_map, Option.map_eq_none_iff] at hname ⊢
      exact extraField?_eq_none.1 (extra hexact) name hname
  case expected =>
    exact fun ht h hfits depth => .of_expected (Env.expand_subst hθ ht.1 closed h) (hfits depth)
  case actual =>
    exact fun hu h hfits depth => .of_actual (Env.expand_subst hθ hu.1 closed h) (hfits depth)

/-- If definitions use their parameters covariantly, then after a successful unification the actual
type fits the expected one to every depth: it is a structural subtype behind all names, and what
stands under a reference cell is the same on both sides. -/
theorem fitsTo_of_unify (closed : env.Closed) (covariant : env.Covariant) {expected actual : Ty}
    {s s' : Subst} (hs : s.Resolved) (keeps : s.Keeps env.Outside env.Admits)
    (hexpected : env.Admits expected) (hactual : env.Admits actual)
    (h : unify env.expand expected actual s = .ok s') (depth : Nat) :
    FitsTo env depth false (s'.apply expected).erase (s'.apply actual).erase := by
  obtain ⟨ext, meets⟩ := unify_fits hereditary_admits (admits_expand closed) h s'.levelsAbove_zero
    hs keeps hexpected hactual
  have hθ (id : Nat) (hid : env.Outside id) : Within env.Outside (s'.image id) :=
    (ext.keeps.mono fun _ h => h.1).within_image hid
  rw [ext.resolved.erase_apply, ext.resolved.erase_apply]
  exact meets _ (fitting_fitsAlways closed covariant hθ) depth

theorem fitsTo_of_unify_node :
    let env := Env.single ⟨"Node", [⟨9, 0⟩], .record [("count", ref int), ("item", ofId 9),
      ("next", app (const "Node") [ofId 9])]⟩
    let s : Subst := { types := [(1, int)] }
    let expected := app (const "Node") [record [("x", ofId 0)]]
    let actual := app (const "Node") [record [("x", ofId 1), ("y", int)]]
    let s' : Subst := { types := [(0, int), (1, int)] }
    unify env.expand expected actual s = .ok s' ∧
      ∀ depth, FitsTo env depth false (s'.apply expected).erase (s'.apply actual).erase := by
  intro env s expected actual s'
  have closed : env.Closed :=
    Env.closed_single rfl (by simp [vars, varsFields, varsList]) (by simp [NamedHeadNode])
  have covariant : env.Covariant := by
    intro params target h
    obtain ⟨rfl, htarget⟩ := Env.target_single.1 h
    obtain rfl := Option.some.inj htarget
    simp [CovariantNode, vars, isNamed, headName?]
  have outside (id : Nat) (hid : id < 9) : env.Outside id :=
    Env.outside_single.2 (by simp; omega)
  have hs : s.Resolved := by
    intro id t h
    obtain ⟨-, rfl⟩ : id = 1 ∧ t = int := by simpa [s] using Assoc.mem_of_get? h
    exact .const trivial
  have keeps : s.Keeps env.Outside env.Admits := by
    refine ⟨fun {id t} _ h => ?_, fun _ _ h => by simp [s] at h⟩
    obtain ⟨-, rfl⟩ : id = 1 ∧ t = int := by simpa [s] using Assoc.mem_of_get? h
    exact ⟨.const trivial, .const trivial⟩
  have hexpected : env.Admits expected := by
    simpa [Env.Admits, expected, VarNode, FirmNode] using outside 0 (by decide)
  have hactual : env.Admits actual := by
    simpa [Env.Admits, actual, VarNode, FirmNode] using outside 1 (by decide)
  have h : unify env.expand expected actual s = .ok s' := by cbv
  exact ⟨h, fitsTo_of_unify closed covariant hs keeps hexpected hactual h⟩

/-- A name for a reference cell accepts a content with more fields, which the cell rejects. -/
theorem not_fitsTo_of_cell :
    let env := Env.single ⟨"Cell", [⟨0, 0⟩], .synonym (ref (ofId 0))⟩
    let expected := app (const "Cell") [record [("x", int)]]
    let actual := app (const "Cell") [record [("x", int), ("y", int)]]
    env.Closed ∧ unify env.expand expected actual .empty = .ok .empty ∧
      ¬FitsTo env 2 false (Subst.empty.apply expected).erase (Subst.empty.apply actual).erase := by
  intro env expected actual
  have unfolded (t : Ty) (ht : env.expand (app (const "Cell") [t]) = some (ref t)) (shape : Ty) :
      env.Unfolds (app (const "Cell") [t]) shape ↔ shape = ref t := by
    rw [unfolds_of_expand ht, unfolds_of_stuck (by rfl)]
  refine ⟨?_, by cbv, fun h => ?_⟩
  · exact Env.closed_single rfl (by simp [vars, varsList]) (by simp [NamedHeadNode])
  · have happlied : (Subst.empty.apply expected).erase = expected := by cbv
    have happlied' : (Subst.empty.apply actual).erase = actual := by cbv
    rw [happlied, happlied'] at h
    obtain ⟨shape', hshape', alike⟩ := h.1 _ ((unfolded _ (by cbv) _).2 rfl)
    obtain rfl := (unfolded _ (by cbv) _).1 hshape'
    cases alike with
    | app hargs =>
      cases hargs with
      | cons hcontent _ =>
        obtain ⟨shape, hshape, alike⟩ := hcontent.1 _ (.stop (by simp))
        obtain rfl := (unfolds_of_stuck (by simp)).1 hshape
        cases alike with
        | record _ extra => exact absurd (extra (by decide) "y" (by decide)) (by decide)

end Polytype
