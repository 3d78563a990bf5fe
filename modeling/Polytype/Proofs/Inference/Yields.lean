import Polytype.Inference.Generalize
import Polytype.Proofs.Inference.Run
import Polytype.Proofs.Inference.Scope

/-!
# Running inference from a world

`w.Yields m post` says that running `m` from the world `w` ends in a later world, whether it
succeeds or not, and that a result satisfies `post` there. The lemmas say what the basic steps of
inference yield.

In a plain world a unification makes types equal under every substitution that solves the later
world (`Equates`).
-/

namespace Polytype.World

open Ty Infer

def Yields {α : Type} (w : World) (m : Infer α) (post : α → World → Prop) : Prop :=
  match m w.progress with
  | .ok a p => ∃ w', w'.progress = p ∧ Later w w' ∧ post a w'
  | .error _ p => ∃ w', w'.progress = p ∧ Later w w'

variable {w : World} {α β : Type}

theorem Yields.pure {post : α → World → Prop} {a : α} (h : post a w) : w.Yields (pure a) post :=
  ⟨w, rfl, .refl w, h⟩

theorem Yields.bindRun {m : Infer α} {f : α → Infer β} {mid : α → World → Prop}
    {post : β → World → Prop} (h : w.Yields m mid)
    (hf : ∀ a w', m w.progress = .ok a w'.progress → Later w w' → mid a w' →
      w'.Yields (f a) post) : w.Yields (m >>= f) post := by
  unfold Yields at h ⊢
  cases hm : m w.progress with
  | error e p =>
    rw [hm] at h
    rw [run_bind_error hm]
    exact h
  | ok a p =>
    rw [hm] at h
    obtain ⟨w', rfl, later, ha⟩ := h
    rw [run_bind_ok hm]
    have next := hf a w' hm later ha
    unfold Yields at next
    cases hn : f a w'.progress with
    | ok b p =>
      rw [hn] at next
      obtain ⟨w'', rfl, later', hb⟩ := next
      exact ⟨w'', rfl, later.trans later', hb⟩
    | error e p =>
      rw [hn] at next
      obtain ⟨w'', rfl, later'⟩ := next
      exact ⟨w'', rfl, later.trans later'⟩

theorem Yields.bind {m : Infer α} {f : α → Infer β} {mid : α → World → Prop}
    {post : β → World → Prop} (h : w.Yields m mid)
    (hf : ∀ a w', Later w w' → mid a w' → w'.Yields (f a) post) : w.Yields (m >>= f) post :=
  h.bindRun fun a w' _ => hf a w'

theorem Yields.mono {m : Infer α} {post post' : α → World → Prop} (h : w.Yields m post)
    (himp : ∀ a w', Later w w' → post a w' → post' a w') : w.Yields m post' := by
  unfold Yields at h ⊢
  cases hm : m w.progress with
  | error e p =>
    rw [hm] at h
    exact h
  | ok a p =>
    rw [hm] at h
    obtain ⟨w', rfl, later, ha⟩ := h
    exact ⟨w', rfl, later, himp a w' later ha⟩

theorem Yields.fail {post : α → World → Prop} {cause : Cause} {span : Span} {hint : Option Hint}
    {related : List Span} : w.Yields (fail cause span hint related) post :=
  ⟨w, rfl, .refl w⟩

theorem Yields.throw {post : α → World → Prop} {e : TypeError} :
    w.Yields (MonadExcept.throw e) post :=
  ⟨w, rfl, .refl w⟩

theorem Yields.getSubst {f : Subst → Infer α} {post : α → World → Prop}
    (h : w.Yields (f w.subst) post) : w.Yields (Infer.getSubst >>= f) post := h

theorem Yields.resolved {t : Ty} {f : Ty → Infer α} {post : α → World → Prop}
    (h : w.Yields (f (w.subst.apply t)) post) : w.Yields (Infer.resolved t >>= f) post := h

theorem Yields.get {f : Progress → Infer α} {post : α → World → Prop}
    (h : w.Yields (f w.progress) post) : w.Yields (MonadState.get >>= f) post := h

theorem yields_log (event : Event) :
    w.Yields (log event) fun _ w' => w'.subst = w.subst ∧ w'.toMarks = w.toMarks :=
  ⟨w.touch w.progress.failed (w.progress.events.push event), rfl, later_touch _ _ _, rfl, rfl⟩

/-! ## Fresh variables -/

theorem yields_freshVar (level : Nat) :
    w.Yields (freshVar level) fun v w' => w'.Good (.var v) ∧ v.id = w.next :=
  ⟨w.draw 1 level True, rfl, later_draw _ _ _ _,
    good_draw (Nat.le_refl _) (Nat.lt_succ_self _), rfl⟩

theorem yields_fresh (level : Nat) :
    w.Yields (Infer.fresh level) fun t w' => w'.Good t ∧ t.mentions = fun id => w.next == id := by
  refine (yields_freshVar level).bind fun v w' _ ⟨good, hid⟩ => .pure ⟨good, ?_⟩
  funext id
  simp [mentions, vars, hid]

theorem yields_freshList (level count : Nat) :
    w.Yields (freshList level count) fun ts w' => ts.length = count ∧
      ∀ t ∈ ts, w'.Good t ∧ ∀ id, t.mentions id = true → w.next ≤ id := by
  induction count generalizing w with
  | zero => exact .pure ⟨rfl, by simp⟩
  | succ count ih =>
    refine (yields_fresh level).bind fun t w' later ⟨good, hid⟩ => ?_
    refine ih.bind fun ts w'' later' ⟨hlength, hts⟩ => .pure ⟨by simp [hlength], ?_⟩
    intro u hu
    rcases List.mem_cons.1 hu with rfl | hu
    · refine ⟨later'.good good, fun id hmem => ?_⟩
      rw [hid] at hmem
      exact Nat.le_of_eq (by simpa using hmem)
    · exact ⟨(hts u hu).1, fun id hmem => Nat.le_trans later.next ((hts u hu).2 id hmem)⟩

/-! ## Types at hand -/

theorem good_const (w : World) (name : String) : w.Good (.const name) :=
  ⟨.const trivial, fun _ => .const trivial⟩

theorem good_literal (value : Literal) : w.Good value.ty := by
  cases value <;> exact w.good_const _

theorem subst_literal (θ : Nat → Ty) (value : Literal) : value.ty.subst θ = value.ty := by
  cases value <;> rfl

theorem good_app {name : String} {t : Ty} (ht : w.Good t) : w.Good (.app (.const name) [t]) :=
  ⟨.app trivial (.const trivial) (by simpa using ht.1),
    fun plain => .app trivial (.const trivial) (by simpa using ht.2 plain)⟩

theorem good_list {t : Ty} (ht : w.Good t) : w.Good (.list t) := good_app ht

theorem good_ref {t : Ty} (ht : w.Good t) : w.Good (.ref t) := good_app ht

theorem good_tuple {ts : List Ty} (hts : ∀ t ∈ ts, w.Good t) : w.Good (.tuple ts) :=
  ⟨.tuple trivial fun t ht => (hts t ht).1, fun plain => .tuple trivial fun t ht => (hts t ht).2 plain⟩

theorem good_func {ts : List Ty} {t : Ty} (hts : ∀ t ∈ ts, w.Good t) (ht : w.Good t) :
    w.Good (.func ts t) :=
  ⟨.func trivial (fun t ht => (hts t ht).1) ht.1,
    fun plain => .func trivial (fun t ht => (hts t ht).2 plain) (ht.2 plain)⟩

/-! ## Instances -/

theorem good_instance {params : List TypeVar} {types : List Ty}
    (apart : ∀ p ∈ params, ∀ u ∈ types, u.mentions p.id = false)
    (hlength : params.length = types.length) (htypes : ∀ u ∈ types, w.Good u) {t : Ty}
    (hfree : ∀ v ∈ t.vars, (∀ p ∈ params, p.id ≠ v.id) → w.Knows w.subst v)
    (hplain : w.plain → Recordless t) : w.Good ((Subst.ofPairs (params.zip types)).apply t) := by
  refine ⟨allVars_iff.2 fun v hv => ?_, fun plain => ?_⟩
  · rcases Subst.mem_vars_instance apart hlength hv with ⟨u, hu, hv⟩ | ⟨hv, hnew⟩
    · exact allVars_iff.1 (htypes u hu).1 v hv
    · exact hfree v hv hnew
  · rw [Subst.apply_ofPairs apart]
    have recordless : Hereditary anyId anyLevel Recordless := hereditary_recordless
    refine recordless.mapVars (hplain plain) fun v _ => ?_
    cases hget : (Subst.ofPairs (params.zip types)).types.get? v.id with
    | none => exact .var trivial
    | some u =>
      obtain ⟨pair, hpair, -, rfl⟩ := Subst.mem_of_get?_ofPairs hget
      exact (htypes _ (List.of_mem_zip hpair).2).2 plain

theorem yields_freshParams (level : Nat) {params : List TypeVar}
    (bound : ∀ p ∈ params, p.id < w.next) :
    w.Yields (freshList level params.length) fun types w' => params.length = types.length ∧
      (∀ u ∈ types, w'.Good u) ∧ ∀ p ∈ params, ∀ u ∈ types, u.mentions p.id = false := by
  refine (yields_freshList level params.length).mono fun types w' _ ⟨hlength, htypes⟩ => ?_
  refine ⟨hlength.symm, fun u hu => (htypes u hu).1, fun p hp u hu => ?_⟩
  refine Bool.eq_false_iff.2 fun hmem => ?_
  exact absurd (bound p hp) (Nat.not_lt.2 ((htypes u hu).2 _ hmem))

theorem yields_instantiate (level : Nat) {σ : Scheme} (hσ : w.SchemeGood σ) :
    w.Yields (instantiate σ level) fun t w' => w'.Good t ∧ ∃ types,
      (∀ p ∈ σ.vars, ∀ u ∈ types, u.mentions p.id = false) ∧
        t = (Subst.ofPairs (σ.vars.zip types)).apply σ.ty := by
  refine (yields_freshParams level hσ.bound).bind fun types w' later ⟨hlength, htypes, apart⟩ => ?_
  refine (yields_log _).bind fun _ w'' later' _ => .pure ⟨?_, types, apart, rfl⟩
  have hσ := (later.trans later').schemeGood hσ
  refine good_instance apart hlength (fun u hu => later'.good (htypes u hu)) (fun v hv hnew => ?_)
    hσ.recordless
  refine hσ.free v hv (Bool.eq_false_iff.2 fun hbinds => ?_)
  obtain ⟨p, hp, hid⟩ := Scheme.binds_iff.1 hbinds
  exact hnew p hp hid

/-! ## Solving -/

theorem yields_setSubst {definition : Ty → Option Ty} {inputs : List Ty} {s' : Subst}
    (h : Subst.Evolves definition inputs w.subst s') (hdef : w.Defines definition)
    (hinputs : ∀ t ∈ inputs, w.Good t) :
    w.Yields (setSubst s') fun _ w' => w'.subst = s' ∧ w'.toMarks = w.toMarks :=
  ⟨w.evolve s' h hdef hinputs, rfl, later_evolve _ _ _ _ _, rfl, rfl⟩

def Equates (w : World) (t u : Ty) : Prop :=
  w.plain → ∀ θ, Subst.Solves θ w.subst → t.subst θ = u.subst θ

theorem Later.equates {w w' : World} (h : Later w w') {t u : Ty} (heq : w.Equates t u) :
    w'.Equates t u :=
  fun plain _ solves => heq (h.plain ▸ plain) _ (solves.trans h.solves)

theorem equates_apply (w : World) (t : Ty) : w.Equates (w.subst.apply t) t :=
  fun _ _ solves => solves.subst_apply w.resolved t

theorem Equates.symm {t u : Ty} (h : w.Equates t u) : w.Equates u t :=
  fun plain θ solves => (h plain θ solves).symm

theorem equates_of_unify {definition : Ty → Option Ty} {expected actual : Ty} {s' : Subst}
    (h : unify definition expected actual w.subst = .ok s') (hdef : w.Defines definition)
    (hexpected : w.Good expected) (hactual : w.Good actual) (plain : w.plain) {θ : Nat → Ty}
    (solves : Subst.Solves θ s') : expected.subst θ = actual.subst θ := by
  have evolves := Subst.evolves_unify h
  have hinputs : ∀ t ∈ [expected, actual], w.Good t := by simp [hexpected, hactual]
  have good {t : Ty} (ht : w.Good t) := evolve_good evolves hdef hinputs ht
  obtain ⟨-, meets⟩ := unify_fits (P := w.toMarks.Good s') Marks.hereditary_good hdef.good h
    Marks.levelsAbove_level w.resolved (w.keeps.mono fun _ => good) (good hexpected) (good hactual)
  have recordless (fields : List (String × Ty)) : ¬w.toMarks.Good s' (.record fields) :=
    fun h => (everywhere_record.1 (h.2 plain)).1
  have same := meets _ (fitting_eq recordless (hdef.plain plain) s'.image)
  have through (t : Ty) : (t.subst s'.image).subst θ = t.subst θ := by
    rw [subst_subst]
    exact subst_congr fun v _ => solves v.id
  rw [← through expected, same, through actual]

theorem yields_unified {env : Env} (henv : w.EnvGood env) {expected actual : Ty} {s' : Subst}
    (h : unify env.expand expected actual w.subst = .ok s') (hexpected : w.Good expected)
    (hactual : w.Good actual) :
    w.Yields (setSubst s') fun _ w' => w'.Equates expected actual := by
  refine (yields_setSubst (Subst.evolves_unify h) henv.defines
    (by simp [hexpected, hactual])).mono fun _ w' later ⟨hs, hmarks⟩ plain θ solves => ?_
  exact equates_of_unify h henv.defines hexpected hactual (later.plain ▸ plain) (hs ▸ solves)

theorem yields_unifyAt {env : Env} (henv : w.EnvGood env) (span : Span) {expected actual : Ty}
    (hexpected : w.Good expected) (hactual : w.Good actual) :
    w.Yields (unifyAt env span expected actual) fun _ w' => w'.Equates expected actual := by
  refine .getSubst ?_
  cases h : unify env.expand expected actual w.subst with
  | error clash => exact .throw
  | ok s' => exact yields_unified henv h hexpected hactual

end Polytype.World
