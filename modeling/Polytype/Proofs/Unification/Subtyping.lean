import Mathlib.Data.List.Permutation
import Polytype.Proofs.Unification.Fit

/-!
# Unification and subtyping

`Sub actual expected` is structural subtyping on types without levels: records by width and depth,
function parameters the other way round, and everything under a reference cell equal. A successful
unification makes the actual type a subtype of the expected one, and unifying the two again changes
nothing, provided that no application is headed by a variable.

The condition is needed. Arguments under a variable head are compared as under any head but `Ref`;
if the variable becomes `Ref` later, they stand under a reference cell and need not be equal.
-/

namespace Polytype

namespace Ty

/-- The first type is a structural subtype of the second. -/
inductive Sub : Ty → Ty → Prop
  | var {v} : Sub (var v) (var v)
  | const {name} : Sub (const name) (const name)
  | app {head args args'} : head.isNamed "Ref" = false → List.Forall₂ Sub args args' →
      Sub (app head args) (app head args')
  | ref {head args} : head.isNamed "Ref" = true → Sub (app head args) (app head args)
  | func {params params' result result'} : List.Forall₂ Sub params' params → Sub result result' →
      Sub (func params result) (func params' result')
  | tuple {elements elements'} : List.Forall₂ Sub elements elements' →
      Sub (tuple elements) (tuple elements')
  | record {fields fields'} :
      (∀ name, Assoc.contains fields' name = true → Assoc.contains fields name = true) →
      (∀ name t t', Assoc.get? fields name = some t → Assoc.get? fields' name = some t' →
        Sub t t') →
      Sub (record fields) (record fields')

def Fits (exact : Bool) (expected actual : Ty) : Prop :=
  if exact then expected = actual else Sub actual expected

theorem fits_true {t u : Ty} : Fits true t u ↔ t = u := by simp [Fits]

theorem fits_false {t u : Ty} : Fits false t u ↔ Sub u t := by simp [Fits]

theorem forall₂_self {R : Ty → Ty → Prop} {ts : List Ty} (h : ∀ t ∈ ts, R t t) :
    List.Forall₂ R ts ts :=
  List.forall₂_same.2 h

theorem Sub.refl (t : Ty) : Sub t t := by
  induction t using induct with
  | var v => exact .var
  | const name => exact .const
  | app head args _ ih =>
    cases href : head.isNamed "Ref" with
    | false => exact .app href (forall₂_self ih)
    | true => exact .ref href
  | func params result ihParams ihResult => exact .func (forall₂_self ihParams) ihResult
  | record fields ih =>
    refine .record (fun _ h => h) fun name t t' ht ht' => ?_
    obtain rfl : t = t' := Option.some.inj (ht.symm.trans ht')
    exact ih _ (Assoc.mem_of_get? ht)
  | tuple elements ih => exact .tuple (forall₂_self ih)

theorem Fits.refl {exact : Bool} {t : Ty} : Fits exact t t := by
  cases exact with
  | false => exact fits_false.2 (.refl t)
  | true => exact fits_true.2 rfl

theorem forall₂_fits_true {ts us : List Ty} : List.Forall₂ (Fits true) ts us ↔ ts = us := by
  have : Fits true = Eq := by
    funext t u
    exact propext fits_true
  rw [this, List.forall₂_eq_eq_eq]

theorem forall₂_fits_false {ts us : List Ty} :
    List.Forall₂ (Fits false) ts us ↔ List.Forall₂ Sub us ts := by
  have : Fits false = flip Sub := by
    funext t u
    exact propext fits_false
  rw [this]
  exact ⟨List.Forall₂.flip, List.Forall₂.flip⟩

/-! ## The rules of fitting -/

theorem Fits.app {exact : Bool} {head : Ty} {args args' : List Ty}
    (h : List.Forall₂ (Fits (exact || head.isNamed "Ref")) args args') :
    Fits exact (app head args) (app head args') := by
  cases exact with
  | true => rw [forall₂_fits_true.1 h]; exact .refl
  | false =>
    cases href : head.isNamed "Ref" with
    | true =>
      rw [href] at h
      rw [forall₂_fits_true.1 h]
      exact .refl
    | false =>
      rw [href] at h
      exact fits_false.2 (.app href (forall₂_fits_false.1 h))

theorem Fits.func {exact : Bool} {params params' : List Ty} {result result' : Ty}
    (hparams : List.Forall₂ (Fits exact) params' params) (hresult : Fits exact result result') :
    Fits exact (func params result) (func params' result') := by
  cases exact with
  | true =>
    rw [forall₂_fits_true.1 hparams, fits_true.1 hresult]
    exact .refl
  | false =>
    exact fits_false.2 (.func (forall₂_fits_false.1 hparams) (fits_false.1 hresult))

theorem Fits.tuple {exact : Bool} {elements elements' : List Ty}
    (h : List.Forall₂ (Fits exact) elements elements') :
    Fits exact (tuple elements) (tuple elements') := by
  cases exact with
  | true =>
    rw [forall₂_fits_true.1 h]
    exact .refl
  | false => exact fits_false.2 (.tuple (forall₂_fits_false.1 h))

theorem Fits.record {exact : Bool} {fields fields' : List (String × Ty)}
    (ordered : Assoc.Ascending fields) (ordered' : Assoc.Ascending fields')
    (provided : ∀ name t, Assoc.get? fields name = some t →
      ∃ u, Assoc.get? fields' name = some u ∧ Fits exact t u)
    (extra : exact = true → ∀ name, Assoc.get? fields name = none →
      Assoc.get? fields' name = none) :
    Fits exact (record fields) (record fields') := by
  cases exact with
  | true =>
    rw [ordered.ext ordered' fun name => ?_]
    · exact .refl
    cases ht : Assoc.get? fields name with
    | none => exact (extra rfl name ht).symm
    | some t =>
      obtain ⟨u, hu, hfits⟩ := provided name t ht
      rw [hu, fits_true.1 hfits]
  | false =>
    refine fits_false.2 (.record (fun name h => ?_) fun name u t hu ht => ?_)
    · obtain ⟨t, ht⟩ := Option.isSome_iff_exists.1 h
      obtain ⟨u, hu, -⟩ := provided name t ht
      simp [Assoc.contains, hu]
    · obtain ⟨u', hu', hfits⟩ := provided name t ht
      obtain rfl : u = u' := Option.some.inj (hu.symm.trans hu')
      exact fits_false.1 hfits

/-! ## Heads -/

theorem headName?_subst {θ : Nat → Ty} {t : Ty} (h : Firm t) (hvar : ∀ v, t ≠ var v) :
    (t.subst θ).headName? = t.headName? := by
  induction h with
  | var _ => exact absurd rfl (hvar _)
  | const _ => rfl
  | @app head args hnode _ _ ih _ =>
    rw [subst_app]
    simp only [headName?]
    refine ih fun v hv => ?_
    subst hv
    exact hnode
  | func | record | tuple => simp [headName?]

theorem isNamed_subst {θ : Nat → Ty} {head : Ty} {args : List Ty} {name : String}
    (h : Firm (app head args)) : (head.subst θ).isNamed name = head.isNamed name := by
  cases h with
  | app hnode hhead _ =>
    unfold isNamed
    rw [headName?_subst hhead fun v hv => ?_]
    subst hv
    exact hnode

end Ty

open Ty

theorem ascending_of_ordered {fields : List (String × Ty)} (h : Ordered (.record fields)) :
    Assoc.Ascending fields :=
  (everywhere_record.1 h).1

theorem extraField?_eq_none {fields others : List (String × Ty)} :
    Goal.extraField? fields others = none ↔
      ∀ name, Assoc.get? others name = none → Assoc.get? fields name = none := by
  unfold Goal.extraField?
  rw [List.find?_eq_none]
  constructor
  · intro h name hname
    refine Assoc.get?_eq_none.2 fun hmem => ?_
    simpa [Assoc.contains, hname] using h name hmem
  · intro h name hmem
    cases hname : Assoc.get? others name with
    | none => exact absurd hmem (Assoc.get?_eq_none.1 (h name hname))
    | some t => simp [Assoc.contains, hname]

theorem fitting_fits (θ : Nat → Ty) :
    Fitting (fun t => Ordered t ∧ Firm t) (fun _ => none) θ Fits where
  refl := .refl
  app {exact head head' args args'} h _ hhead hargs := by
    rw [subst_app, subst_app, ← subst_eq_of_erase hhead]
    refine .app ?_
    rw [List.forall₂_map_left_iff, List.forall₂_map_right_iff, isNamed_subst h.2]
    exact hargs
  func hparams hresult := by
    rw [subst_func, subst_func]
    refine .func ?_ hresult
    rw [List.forall₂_map_left_iff, List.forall₂_map_right_iff]
    exact hparams
  tuple h := by
    rw [subst_tuple, subst_tuple]
    refine .tuple ?_
    rw [List.forall₂_map_left_iff, List.forall₂_map_right_iff]
    exact h
  record {exact fields fields'} h h' provided extra := by
    have ordered := ascending_of_ordered h.1
    have ordered' := ascending_of_ordered h'.1
    rw [subst_record, subst_record]
    refine .record (ordered.map _) (ordered'.map _) (fun name t ht => ?_) fun hexact name hname => ?_
    · rw [Assoc.get?_map] at ht
      obtain ⟨given, hgiven, rfl⟩ := Option.map_eq_some_iff.1 ht
      obtain ⟨u, hu, hfits⟩ := provided _ (Assoc.mem_of_get? hgiven)
      exact ⟨u.subst θ, by rw [Assoc.get?_map, hu]; rfl, hfits⟩
    · rw [Assoc.get?_map, Option.map_eq_none_iff] at hname ⊢
      exact extraField?_eq_none.1 (extra hexact) name hname
  expected _ h := by simp at h
  actual _ h := by simp at h

/-! ## Types that fit already -/

namespace Ty

variable {exact : Bool}

theorem Fits.of_var {v : TypeVar} {u : Ty} (h : Fits exact (var v) u) : u = var v := by
  cases exact with
  | true => exact (fits_true.1 h).symm
  | false =>
    cases fits_false.1 h with
    | var => rfl

theorem Fits.of_const {name : String} {u : Ty} (h : Fits exact (const name) u) :
    u = const name := by
  cases exact with
  | true => exact (fits_true.1 h).symm
  | false =>
    cases fits_false.1 h with
    | const => rfl

theorem forall₂_fits_refl (ts : List Ty) : List.Forall₂ (Fits exact) ts ts :=
  forall₂_self fun _ _ => .refl

theorem Fits.of_app {head u : Ty} {args : List Ty} (h : Fits exact (.app head args) u) :
    ∃ args', u = .app head args' ∧
      List.Forall₂ (Fits (exact || head.isNamed "Ref")) args args' := by
  cases exact with
  | true => exact ⟨args, (fits_true.1 h).symm, forall₂_fits_refl args⟩
  | false =>
    cases fits_false.1 h with
    | app href hargs =>
      rw [href]
      exact ⟨_, rfl, forall₂_fits_false.2 hargs⟩
    | ref href => exact ⟨args, rfl, forall₂_fits_refl args⟩

theorem Fits.of_func {params : List Ty} {result u : Ty} (h : Fits exact (.func params result) u) :
    ∃ params' result', u = .func params' result' ∧ List.Forall₂ (Fits exact) params' params ∧
      Fits exact result result' := by
  cases exact with
  | true => exact ⟨params, result, (fits_true.1 h).symm, forall₂_fits_refl params, .refl⟩
  | false =>
    cases fits_false.1 h with
    | func hparams hresult =>
      exact ⟨_, _, rfl, forall₂_fits_false.2 hparams, fits_false.2 hresult⟩

theorem Fits.of_tuple {elements : List Ty} {u : Ty} (h : Fits exact (.tuple elements) u) :
    ∃ elements', u = .tuple elements' ∧ List.Forall₂ (Fits exact) elements elements' := by
  cases exact with
  | true => exact ⟨elements, (fits_true.1 h).symm, forall₂_fits_refl elements⟩
  | false =>
    cases fits_false.1 h with
    | tuple helements => exact ⟨_, rfl, forall₂_fits_false.2 helements⟩

theorem Fits.of_record {fields : List (String × Ty)} {u : Ty} (h : Fits exact (.record fields) u) :
    ∃ fields', u = .record fields' ∧
      (∀ name t, Assoc.get? fields name = some t →
        ∃ u, Assoc.get? fields' name = some u ∧ Fits exact t u) ∧
      (exact = true → ∀ name, Assoc.get? fields name = none →
        Assoc.get? fields' name = none) := by
  cases exact with
  | true =>
    exact ⟨fields, (fits_true.1 h).symm, fun name t ht => ⟨t, ht, .refl⟩, fun _ name h => h⟩
  | false =>
    cases fits_false.1 h with
    | @record fields' _ present typed =>
      refine ⟨fields', rfl, fun name t ht => ?_, by simp⟩
      obtain ⟨u, hu⟩ := Option.isSome_iff_exists.1
        (present name (by simp [Assoc.contains, ht]))
      exact ⟨u, hu, fits_false.2 (typed name u t hu ht)⟩

end Ty

def Goal.Holds : Goal → Prop
  | .fits exact expected actual =>
    Fits exact expected.erase actual.erase ∧ Ordered expected ∧ Ordered actual
  | _ => False

theorem holds_fitsAll {exact : Bool} {ts us : List Ty} (hts : ∀ t ∈ ts, Ordered t)
    (hus : ∀ u ∈ us, Ordered u)
    (h : List.Forall₂ (Fits exact) (ts.map erase) (us.map erase)) :
    ∀ g ∈ Goal.fitsAll exact ts us, g.Holds := by
  rw [List.forall₂_map_left_iff, List.forall₂_map_right_iff] at h
  induction h with
  | nil => simp [Goal.fitsAll]
  | cons hfits _ ih =>
    intro g hg
    rcases List.mem_cons.1 hg with rfl | hg
    · exact ⟨hfits, hts _ List.mem_cons_self, hus _ List.mem_cons_self⟩
    · exact ih (fun t ht => hts t (List.mem_cons_of_mem _ ht))
        (fun u hu => hus u (List.mem_cons_of_mem _ hu)) g hg

theorem holds_fitsFields {exact : Bool} {fields fields' wanted : List (String × Ty)}
    (hwanted : ∀ field ∈ wanted, Ordered field.2 ∧ ∃ u, Assoc.get? fields' field.1 = some u ∧
      Ordered u ∧ Fits exact field.2.erase u.erase)
    (extra : exact = true → Goal.extraField? fields' fields = none) :
    ∀ g ∈ Goal.fitsFields exact fields fields' wanted, g.Holds := by
  induction wanted with
  | nil =>
    cases exact with
    | true => simp [Goal.fitsFields, extra rfl]
    | false => simp [Goal.fitsFields]
  | cons field rest ih =>
    obtain ⟨name, t⟩ := field
    obtain ⟨ordered, u, hu, ordered', hfits⟩ := hwanted (name, t) List.mem_cons_self
    intro g hg
    simp only [Goal.fitsFields, hu, List.mem_cons] at hg
    rcases hg with rfl | hg
    · exact ⟨hfits, ordered, ordered'⟩
    · exact ih (fun field hf => hwanted field (List.mem_cons_of_mem _ hf)) g hg

theorem Problem.meet_holds {definition : Ty → Option Ty} {p : Problem} {goal : Goal}
    {rest : List Goal} (h : goal.Holds) :
    ∃ new, p.meet definition goal rest = p.split new rest ∧ ∀ g ∈ new, g.Holds := by
  obtain ⟨exact, expected, actual⟩ | _ | _ := goal
  rotate_left
  · exact h.elim
  · exact h.elim
  obtain ⟨hfits, ordered, ordered'⟩ := h
  have hOrdered : Hereditary anyId anyLevel Ordered := hereditary_ordered
  -- Related types have one outermost shape, so no case binds a variable or follows a name.
  cases expected with
  | var v =>
    have hu := hfits.of_var
    cases actual with
    | var w =>
      have hid : v.id = w.id := by simpa using hu.symm
      exact ⟨[], by simp [meet, hid], by simp⟩
    | _ => simp at hu
  | const name =>
    have hu := hfits.of_const
    cases actual with
    | const name' =>
      obtain rfl : name' = name := by simpa using hu
      exact ⟨[], by simp [meet], by simp⟩
    | _ => simp at hu
  | app head args =>
    rw [erase_app] at hfits
    obtain ⟨args'', hu, hargs⟩ := hfits.of_app
    cases actual with
    | app head' args' =>
      simp only [erase_app, Ty.app.injEq] at hu
      obtain ⟨hhead, rfl⟩ := hu
      rw [isNamed_erase] at hargs
      have hlength : args.length = args'.length := by simpa using hargs.length_eq
      exact ⟨_, by simp [meet, same_iff.2 hhead.symm, pairwise, hlength],
        holds_fitsAll (hOrdered.args ordered) (hOrdered.args ordered') hargs⟩
    | _ => simp at hu
  | func params result =>
    rw [erase_func] at hfits
    obtain ⟨params'', result'', hu, hparams, hresult⟩ := hfits.of_func
    cases actual with
    | func params' result' =>
      simp only [erase_func, Ty.func.injEq] at hu
      obtain ⟨rfl, rfl⟩ := hu
      have hlength : params.length = params'.length := by simpa using hparams.length_eq.symm
      refine ⟨Goal.fitsAll exact params' params ++ [.fits exact result result'],
        by simp [meet, pairwise, hlength], fun g hg => ?_⟩
      rcases List.mem_append.1 hg with hg | hg
      · exact holds_fitsAll (hOrdered.params ordered') (hOrdered.params ordered) hparams g hg
      · obtain rfl := List.mem_singleton.1 hg
        exact ⟨hresult, hOrdered.result ordered, hOrdered.result ordered'⟩
    | _ => simp at hu
  | tuple elements =>
    rw [erase_tuple] at hfits
    obtain ⟨elements'', hu, helements⟩ := hfits.of_tuple
    cases actual with
    | tuple elements' =>
      simp only [erase_tuple, Ty.tuple.injEq] at hu
      subst hu
      have hlength : elements.length = elements'.length := by simpa using helements.length_eq
      exact ⟨_, by simp [meet, pairwise, hlength],
        holds_fitsAll (hOrdered.elements ordered) (hOrdered.elements ordered') helements⟩
    | _ => simp at hu
  | record fields =>
    rw [erase_record] at hfits
    obtain ⟨fields'', hu, provided, extra⟩ := hfits.of_record
    cases actual with
    | record fields' =>
      simp only [erase_record, Ty.record.injEq] at hu
      subst hu
      refine ⟨Goal.fitsFields exact fields fields' fields, by simp [meet],
        holds_fitsFields (fun field hf => ?_) fun hexact => ?_⟩
      · have hfield := Assoc.get?_of_mem (ascending_of_ordered ordered).nodup hf
        obtain ⟨u, hu, hfits⟩ := provided field.1 field.2.erase
          (by rw [Assoc.get?_map, hfield]; rfl)
        rw [Assoc.get?_map] at hu
        obtain ⟨given, hgiven, rfl⟩ := Option.map_eq_some_iff.1 hu
        exact ⟨hOrdered.field ordered field hf, given, hgiven,
          hOrdered.field ordered' _ (Assoc.mem_of_get? hgiven), hfits⟩
      · refine extraField?_eq_none.2 fun name hname => ?_
        have := extra hexact name (by rw [Assoc.get?_map, hname]; rfl)
        rwa [Assoc.get?_map, Option.map_eq_none_iff] at this
    | _ => simp at hu

theorem Problem.solve_holds {definition : Ty → Option Ty} {p : Problem}
    (h : ∀ g ∈ p.goals, g.Holds) : p.solve definition = .ok p.subst := by
  induction p using Problem.solve.induct definition with
  | case1 p hp => exact solve_nil hp
  | case2 p goal rest hp clash hmeet =>
    obtain ⟨new, hsplit, -⟩ :=
      @meet_holds definition p goal rest (h goal (hp ▸ List.mem_cons_self))
    simp [hsplit, split] at hmeet
  | case3 p goal rest hp q hmeet ih =>
    obtain ⟨new, hsplit, hnew⟩ :=
      @meet_holds definition p goal rest (h goal (hp ▸ List.mem_cons_self))
    rw [solve_continued hp hmeet]
    simp only [hsplit, split, Outcome.continued.injEq] at hmeet
    subst hmeet
    refine ih fun g hg => ?_
    rcases List.mem_append.1 hg with hg | hg
    · exact hnew g hg
    · exact h g (hp ▸ List.mem_cons_of_mem _ hg)

/-! ## Soundness of unification -/

/-- Record fields are in order, and no application is headed by a variable. -/
abbrev Ty.WellFormed (t : Ty) : Prop := Ordered t ∧ Firm t

theorem hereditary_wellFormed : Hereditary anyId anyLevel WellFormed :=
  hereditary_ordered.and hereditary_firm

/-- After a successful unification the actual type is a subtype of the expected one, and unifying
the two again changes nothing. -/
theorem sub_of_unifyPlain {expected actual : Ty} {s s' : Subst} (resolved : s.Resolved)
    (keeps : s.Keeps anyId WellFormed) (hexpected : expected.WellFormed)
    (hactual : actual.WellFormed) (h : unifyPlain expected actual s = .ok s') :
    Sub (s'.apply actual).erase (s'.apply expected).erase ∧
      unifyPlain expected actual s' = .ok s' := by
  have hP := hereditary_wellFormed
  have hlo := s'.levelsAbove_zero
  obtain ⟨ext, meets⟩ := unify_fits hP (by simp) h hlo resolved keeps hexpected hactual
  have fits : Fits false (s'.apply expected).erase (s'.apply actual).erase := by
    rw [ext.resolved.erase_apply, ext.resolved.erase_apply]
    exact meets Fits (fitting_fits s'.image)
  refine ⟨fits_false.1 fits, ?_⟩
  refine @Problem.solve_holds _ ⟨s', expansionLimit, _⟩ fun g hg => ?_
  obtain rfl := List.mem_singleton.1 hg
  exact ⟨fits, (ext.keeps.apply hP hlo hexpected).1, (ext.keeps.apply hP hlo hactual).1⟩

def readsX : Subst := { records := [(0, [("x", ofId 1)])] }

theorem sub_of_unifyPlain_readsX :
    let expected := func [ofId 0] (ref (ofId 1))
    let actual := func [record [("x", int), ("y", int)]] (ref int)
    let s' : Subst := { types := [(0, record [("x", int), ("y", int)]), (1, int)] }
    unifyPlain expected actual readsX = .ok s' ∧
      Sub (s'.apply actual).erase (s'.apply expected).erase ∧
      unifyPlain expected actual s' = .ok s' := by
  intro expected actual s'
  have h : unifyPlain expected actual readsX = .ok s' := by cbv
  have resolved : readsX.Resolved := fun _ _ h => by simp [readsX] at h
  have keeps : readsX.Keeps anyId WellFormed := by
    refine ⟨fun _ h => by simp [readsX] at h, fun {id fields} _ _ h => ?_⟩
    rw [readsX, Assoc.get?_cons] at h
    split at h
    · cases h
      simp [WellFormed, OrderedNode, FirmNode, Assoc.Ascending, Assoc.keys]
    · simp at h
  have hexpected : expected.WellFormed := by simp [WellFormed, expected, OrderedNode, FirmNode]
  have hactual : actual.WellFormed := by
    have ordered : Assoc.Ascending [("x", int), ("y", int)] := by decide
    simp [WellFormed, actual, OrderedNode, FirmNode, ordered]
  exact ⟨h, sub_of_unifyPlain resolved keeps hexpected hactual h⟩

/-- The arguments of a variable head are not compared exactly, although the head becomes `Ref`. -/
theorem not_sub_of_variable_head :
    let expected := tuple [app (ofId 0) [record [("x", int)]], ofId 0]
    let actual := tuple [app (ofId 0) [record [("x", int), ("y", int)]], const "Ref"]
    let s' : Subst := { types := [(0, const "Ref")] }
    Subst.empty.Resolved ∧ unifyPlain expected actual .empty = .ok s' ∧
      ¬Sub (s'.apply actual).erase (s'.apply expected).erase ∧
      unifyPlain expected actual s' ≠ .ok s' := by
  intro expected actual s'
  refine ⟨fun _ _ h => by simp [Subst.empty] at h, by cbv, fun h => ?_, fun h => ?_⟩
  · have hexpected : (s'.apply expected).erase =
        tuple [ref (record [("x", int)]), const "Ref"] := by cbv
    have hactual : (s'.apply actual).erase =
        tuple [ref (record [("x", int), ("y", int)]), const "Ref"] := by cbv
    rw [hexpected, hactual] at h
    cases h with
    | tuple h =>
      cases h with
      | cons h _ =>
        cases h with
        | app href _ => simp [isNamed, headName?] at href
  · have clash : unifyPlain expected actual s' = .error (.missingField "y"
        (record [("x", int), ("y", int)]) (record [("x", int)])) := by cbv
    rw [clash] at h
    cases h

end Polytype
