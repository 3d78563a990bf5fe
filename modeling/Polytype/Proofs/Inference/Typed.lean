import Polytype.Inference.Expr
import Polytype.Proofs.Inference.Annotation
import Polytype.Proofs.Inference.Generalize
import Polytype.Proofs.Inference.Parts
import Polytype.Proofs.Inference.Pattern

namespace Polytype.World

open Ty Infer

attribute [simp] expr exprs arguments elements members arms guardOf entries updates

variable {w : World} {V : Visit → Prop} {env : Env} {level : Nat}

/-- A solution under which the visits are fair. -/
structure FairSolution (w : World) (V : Visit → Prop) (θ : Nat → Ty) : Prop
    extends w.Solution θ where
  fair : ∀ v, V v → v.Fair θ

theorem Later.fairSolution {w w' : World} (later : Later w w') {θ : Nat → Ty}
    (h : w'.FairSolution V θ) : w.FairSolution V θ :=
  ⟨later.solution h.toSolution, h.fair⟩

def Typed (w : World) (V : Visit → Prop) (env : Env) (e : Expr) (t : Ty) : Prop :=
  w.Good t ∧ (w.plain → ∀ θ, w.FairSolution V θ → HasType (env.subst θ) e (t.subst θ))

theorem Later.typed {w w' : World} (later : Later w w') {e : Expr} {t : Ty}
    (h : w.Typed V env e t) : w'.Typed V env e t :=
  ⟨later.good h.1, fun plain θ hθ => h.2 (later.plain ▸ plain) θ (later.fairSolution hθ)⟩

def ExprSound (V : Visit → Prop) (e : Expr) : Prop :=
  ∀ (w : World) (env : Env) (level : Nat), w.EnvGood env → (w.plain → e.Plain) →
    (w.plain → V ⟨env, level, e, w.progress⟩) →
    w.Yields (expr env level e) fun t w' => w'.Typed V env e t

theorem Typed.of_equates {e : Expr} {t u : Ty} (h : w.Typed V env e t) (hu : w.Good u)
    (equates : w.Equates u t) : w.Typed V env e u := by
  refine ⟨hu, fun plain θ hθ => ?_⟩
  rw [equates plain θ hθ.solves]
  exact h.2 plain θ hθ

/-! ## Several expressions -/

structure TypedAll (w : World) (V : Visit → Prop) (env : Env) (es : List Expr)
    (ts : List Ty) : Prop where
  good : ∀ t ∈ ts, w.Good t
  typed : w.plain → ∀ θ, w.FairSolution V θ → HasTypes (env.subst θ) es (ts.map (Ty.subst θ))

theorem Later.typedAll {w w' : World} (later : Later w w') {es : List Expr} {ts : List Ty}
    (h : w.TypedAll V env es ts) : w'.TypedAll V env es ts :=
  ⟨fun t ht => later.good (h.good t ht),
    fun plain θ hθ => h.typed (later.plain ▸ plain) θ (later.fairSolution hθ)⟩

theorem TypedAll.cons {e : Expr} {es : List Expr} {t : Ty} {ts : List Ty} (h : w.Typed V env e t)
    (hs : w.TypedAll V env es ts) : w.TypedAll V env (e :: es) (t :: ts) :=
  ⟨List.forall_mem_cons.2 ⟨h.1, hs.good⟩,
    fun plain θ hθ => .cons (h.2 plain θ hθ) (hs.typed plain θ hθ)⟩

def VisitsEach (V : Visit → Prop) (env : Env) (level : Nat) (es : List Expr) {α : Type}
    (before : List Expr → Infer α) (p : Progress) : Prop :=
  ∀ front e back a q, es = front ++ e :: back → before front p = .ok a q → V ⟨env, level, e, q⟩

theorem VisitsEach.head {e : Expr} {es : List Expr} {α : Type} {before : List Expr → Infer α}
    {p : Progress} {a : α} (h : VisitsEach V env level (e :: es) before p)
    (start : before [] p = .ok a p) : V ⟨env, level, e, p⟩ :=
  h [] e es a p rfl start

theorem VisitsEach.tail {e : Expr} {es : List Expr} {α : Type} {before : List Expr → Infer α}
    {p p' : Progress} {β : Type} {before' : List Expr → Infer β}
    (h : VisitsEach V env level (e :: es) before p)
    (step : ∀ front a q, before' front p' = .ok a q → ∃ b, before (e :: front) p = .ok b q) :
    VisitsEach V env level es before' p' := by
  rintro front next back a q rfl run
  obtain ⟨b, run⟩ := step front a q run
  exact h (e :: front) next back b q rfl run

theorem yields_exprs (henv : w.EnvGood env) {es : List Expr} (sound : ∀ e ∈ es, ExprSound V e)
    (hplain : w.plain → ∀ e ∈ es, e.Plain)
    (visits : w.plain → VisitsEach V env level es (exprs env level) w.progress) :
    w.Yields (exprs env level es) fun ts w' => w'.TypedAll V env es ts := by
  induction es generalizing w with
  | nil =>
    rw [exprs]
    exact .pure ⟨by simp, fun _ _ _ => .nil⟩
  | cons e es ih =>
    rw [exprs]
    refine (sound e List.mem_cons_self w env level henv (fun plain =>
      hplain plain e List.mem_cons_self) fun plain => (visits plain).head rfl).bindRun
      fun t w₁ run later₁ typed => ?_
    have rest (plain : w.plain) : VisitsEach V env level es (exprs env level) w₁.progress := by
      refine (visits plain).tail fun front ts q run' => ⟨t :: ts, ?_⟩
      rw [exprs, run_bind_ok run, run_bind_ok run']
      rfl
    refine (ih (later₁.envGood henv) (fun e he => sound e (List.mem_cons_of_mem _ he))
      (fun plain e he => hplain (later₁.plain ▸ plain) e (List.mem_cons_of_mem _ he))
      fun plain => rest (later₁.plain ▸ plain)).bind fun ts w₂ later₂ typedAll => .pure ?_
    exact .cons (later₂.typed typed) typedAll

theorem yields_arguments (henv : w.EnvGood env) {es : List Expr} (sound : ∀ e ∈ es, ExprSound V e)
    (hplain : w.plain → ∀ e ∈ es, e.Plain) {params : List Ty} (hlength : es.length ≤ params.length)
    (hparams : ∀ t ∈ params, w.Good t)
    (visits : w.plain → VisitsEach V env level es (arguments env level · params) w.progress) :
    w.Yields (arguments env level es params) fun _ w' =>
      w'.TypedAll V env es (params.take es.length) := by
  induction es generalizing w params with
  | nil =>
    rw [arguments.eq_def]
    exact .pure ⟨by simp, fun _ _ _ => .nil⟩
  | cons e es ih =>
    cases params with
    | nil => simp at hlength
    | cons param params =>
      rw [arguments]
      have hparam := hparams param List.mem_cons_self
      refine (sound e List.mem_cons_self w env level henv (fun plain =>
        hplain plain e List.mem_cons_self) fun plain =>
          (visits plain).head (by unfold arguments; rfl)).bindRun fun t w₁ run₁ later₁ typed => ?_
      refine (yields_unifyAt (later₁.envGood henv) _ (later₁.good hparam) typed.1).bindRun
        fun _ w₂ run₂ later₂ equates => ?_
      have later := later₁.trans later₂
      have fits : w₂.Typed V env e param :=
        (later₂.typed typed).of_equates (later.good hparam) equates
      have rest (plain : w.plain) :
          VisitsEach V env level es (arguments env level · params) w₂.progress := by
        refine (visits plain).tail fun front a q run => ⟨a, ?_⟩
        rw [arguments, run_bind_ok run₁, run_bind_ok run₂, run]
      refine (ih (later.envGood henv) (fun e he => sound e (List.mem_cons_of_mem _ he))
        (fun plain e he => hplain (later.plain ▸ plain) e (List.mem_cons_of_mem _ he))
        (by simpa using hlength) (fun t ht => later.good (hparams t (List.mem_cons_of_mem _ ht)))
        fun plain => rest (later.plain ▸ plain)).mono fun _ w₃ later₃ typedAll => ?_
      exact .cons (later₃.typed fits) typedAll

theorem yields_elements (henv : w.EnvGood env) {es : List Expr} (sound : ∀ e ∈ es, ExprSound V e)
    (hplain : w.plain → ∀ e ∈ es, e.Plain) {element : Ty} (helement : w.Good element)
    (visits : w.plain → VisitsEach V env level es (elements env level element) w.progress) :
    w.Yields (elements env level element es) fun _ w' =>
      w'.TypedAll V env es (List.replicate es.length element) := by
  rw [elements_eq]
  refine (yields_arguments henv sound hplain (by simp) (fun t ht => ?_) fun plain => ?_).mono
    fun _ w' _ typed => by simpa using typed
  · exact List.eq_of_mem_replicate ht ▸ helement
  · rintro front e back a q rfl run
    refine visits plain front e back a q rfl ?_
    have enough : front.length ≤ (front ++ e :: back).length := by simp
    rwa [elements_eq_arguments env level element enough]

/-! ## Variables -/

theorem subst_eq_self {t : Ty} (erased : t.erase = t) {η : Nat → Ty}
    (h : ∀ id, t.mentions id = true → η id = ofId id) : t.subst η = t := by
  calc t.subst η = t.subst ofId := subst_congr fun v hv => h v.id (mentions_iff.2 ⟨v, hv, rfl⟩)
    _ = t := erased

theorem BindingGood.instance {b : Binding} (hb : w.BindingGood b) (plain : w.plain) {θ : Nat → Ty}
    (hθ : w.Solution θ) {types : List Ty}
    (apart : ∀ p ∈ b.scheme.vars, ∀ u ∈ types, u.mentions p.id = false) :
    (b.mapScheme (Scheme.subst θ)).scheme.Instance
      (((Subst.ofPairs (b.scheme.vars.zip types)).apply b.scheme.ty).subst θ) := by
  let η (σ : Scheme) (id : Nat) : Ty :=
    if σ.binds id then ((Subst.ofPairs (σ.vars.zip types)).image id).subst θ else ofId id
  have scheme {σ : Scheme} (hσ : w.SchemeGood σ) (retired : ∀ v ∈ σ.vars, w.retired v.id)
      (apart : ∀ p ∈ σ.vars, ∀ u ∈ types, u.mentions p.id = false) :
      (σ.subst θ).Instance (((Subst.ofPairs (σ.vars.zip types)).apply σ.ty).subst θ) := by
    refine ⟨η σ, fun id hid => if_neg (Bool.eq_false_iff.1 hid), ?_⟩
    rw [Subst.subst_instance apart, Scheme.subst, subst_subst]
    refine subst_congr fun v hv => ?_
    cases hbinds : σ.binds v.id with
    | true => simp [η, hbinds]
    | false =>
      -- A free variable is live, so the solution puts no quantified variable in its place.
      have hlive := (hσ.free v hv hbinds).1
      have unbound : (Subst.ofPairs (σ.vars.zip types)).image v.id = ofId v.id := by
        refine Subst.image_ofPairs fun p hp hid => ?_
        simp [Scheme.binds_iff.2 ⟨p, hp, hid⟩] at hbinds
      rw [unbound, subst_var]
      simp only [Bool.false_eq_true, if_false]
      refine (subst_eq_self (hθ.erased _) fun id hid => if_neg fun hid' => ?_).symm
      obtain ⟨q, hq, rfl⟩ := Scheme.binds_iff.1 hid'
      simp [hθ.apart _ hlive _ (retired q hq)] at hid
  cases b with
  | value σ => exact scheme hb.1 (hb.2 plain) apart
  | foreign σ name => exact scheme hb.1 (hb.2 plain) apart
  | constructor c =>
    refine ⟨η c.scheme, fun id hid => if_neg (Bool.eq_false_iff.1 hid), ?_⟩
    rw [Subst.subst_instance apart]
    refine subst_congr fun v hv => (if_pos ?_).symm
    exact ConstructorGood.binds hb hv

/-! ## Operators -/

theorem yields_operand (henv : w.EnvGood env) (span : Span) {allowed : List String}
    (hint : "Int" ∈ allowed) {t : Ty} (ht : w.Good t) :
    w.Yields (operand env span allowed t) fun u w' => w'.Good u ∧ w'.Equates t u ∧
      (∀ θ, u.subst θ ∈ allowed.map .const) := by
  have known {applied : Ty} (happlied : w.subst.apply t = applied) :
      w.Yields (if allowed.any fun name => applied.same (.const name) then pure applied
        else fail (.mismatch .int applied) span (some (.operandTypes allowed))) fun u w' =>
          w'.Good u ∧ w'.Equates t u ∧
            (∀ θ, u.subst θ ∈ allowed.map .const) := by
    split
    · rename_i hany
      obtain ⟨name, hname, hsame⟩ := List.any_eq_true.1 hany
      refine .pure ⟨happlied ▸ good_apply ht, happlied ▸ (w.equates_apply t).symm, fun θ => ?_⟩
      rw [subst_eq_of_erase (same_iff.1 hsame)]
      exact List.mem_map_of_mem hname
    · exact .fail
  unfold operand
  refine .resolved ?_
  generalize happlied : w.subst.apply t = applied
  cases applied with
  | var v =>
    refine (yields_unifyAt henv span ht (w.good_const _)).bind fun _ w' _ equates => .pure ?_
    exact ⟨w'.good_const _, equates, fun _ => List.mem_map_of_mem hint⟩
  | _ => exact known happlied

/-- The operator takes operands of the given types to a result, if what it compares has no function
inside. -/
def Operates (w : World) (op : BinaryOp) (left right t : Ty) : Prop :=
  w.Good t ∧ (w.plain → ∀ θ, w.Solution θ →
    (op ∈ [.eq, .notEq] → (left.subst θ).hasFunction = false) →
    BinaryTyped op (left.subst θ) (right.subst θ) (t.subst θ))

theorem yields_binary (henv : w.EnvGood env) (op : BinaryOp) {left right : Ty}
    (hleft : w.Good left) (hright : w.Good right) (leftSpan rightSpan span : Span) :
    w.Yields (binary env op left right leftSpan rightSpan span) fun t w' =>
      w'.Operates op left right t := by
  have arithmetic (hop : op ∈ [.add, .sub, .mul, .div, .mod]) :
      w.Yields (do
        unifyAt env rightSpan left right
        operand env span arithmeticTypes left) fun t w' => w'.Operates op left right t := by
    refine (yields_unifyAt henv rightSpan hleft hright).bind fun _ w₁ later₁ equates => ?_
    refine (yields_operand (later₁.envGood henv) span (by decide) (later₁.good hleft)).mono
      fun t w₂ later₂ ⟨good, same, allowed⟩ => ⟨good, fun plain θ hθ _ => ?_⟩
    rw [← later₂.equates equates plain θ hθ.solves, same plain θ hθ.solves]
    exact .arithmetic hop (allowed θ)
  have comparison (hop : op ∈ [.lt, .ltEq, .gt, .gtEq]) :
      w.Yields (do
        unifyAt env rightSpan left right
        let _ ← operand env span orderedTypes left
        return .bool) fun t w' => w'.Operates op left right t := by
    refine (yields_unifyAt henv rightSpan hleft hright).bind fun _ w₁ later₁ equates => ?_
    refine (yields_operand (later₁.envGood henv) span (by decide) (later₁.good hleft)).bind
      fun t w₂ later₂ ⟨_, same, allowed⟩ => .pure ⟨w₂.good_const _, fun plain θ hθ _ => ?_⟩
    rw [← later₂.equates equates plain θ hθ.solves, same plain θ hθ.solves]
    exact .comparison hop (allowed θ)
  have equality (hop : op ∈ [.eq, .notEq]) :
      w.Yields (do
        unifyAt env rightSpan left right
        let compared ← Infer.resolved left
        if compared.hasFunction then
          fail (.notEquatable compared) span (some (.noFunctionEquality op))
        else return .bool) fun t w' => w'.Operates op left right t := by
    refine (yields_unifyAt henv rightSpan hleft hright).bind fun _ w₁ _ equates => .resolved ?_
    split
    · exact .fail
    · -- What is found here is the type so far, so the condition is needed all the same.
      refine .pure ⟨w₁.good_const _, fun plain θ hθ free => ?_⟩
      rw [← equates plain θ hθ.solves]
      exact .equality hop (free hop)
  have both {name : String} (typed : BinaryTyped op (.const name) (.const name) (.const name)) :
      w.Yields (do
        unifyAt env leftSpan (.const name) left
        unifyAt env rightSpan (.const name) right
        return .const name) fun t w' => w'.Operates op left right t := by
    refine (yields_unifyAt henv leftSpan (w.good_const _) hleft).bind fun _ w₁ later₁ equates => ?_
    refine (yields_unifyAt (later₁.envGood henv) rightSpan (w₁.good_const _)
      (later₁.good hright)).bind fun _ w₂ later₂ equates' => .pure ⟨w₂.good_const _, ?_⟩
    intro plain θ hθ _
    rw [← later₂.equates equates plain θ hθ.solves, ← equates' plain θ hθ.solves]
    exact typed
  cases op with
  | add => exact arithmetic (by decide)
  | sub => exact arithmetic (by decide)
  | mul => exact arithmetic (by decide)
  | div => exact arithmetic (by decide)
  | mod => exact arithmetic (by decide)
  | lt => exact comparison (by decide)
  | ltEq => exact comparison (by decide)
  | gt => exact comparison (by decide)
  | gtEq => exact comparison (by decide)
  | eq => exact equality (by decide)
  | notEq => exact equality (by decide)
  | and => exact both (.logic (by decide))
  | or => exact both (.logic (by decide))
  | concat => exact both .concat
  | cons =>
    refine (yields_unifyAt henv rightSpan (good_list hleft) hright).bind
      fun _ w₁ later₁ equates => .pure ⟨good_list (later₁.good hleft), fun plain θ hθ _ => ?_⟩
    rw [← equates plain θ hθ.solves]
    exact .cons

theorem yields_unary (henv : w.EnvGood env) (op : UnaryOp) {t : Ty} (ht : w.Good t)
    (operandSpan span : Span) :
    w.Yields (unary env op t operandSpan span) fun u w' => w'.Good u ∧
      (w'.plain → ∀ θ, w'.Solution θ → UnaryTyped op (t.subst θ) (u.subst θ)) := by
  cases op with
  | neg =>
    refine (yields_operand henv span (by decide) ht).mono
      fun u w' _ ⟨good, same, allowed⟩ => ⟨good, fun plain θ hθ => ?_⟩
    rw [same plain θ hθ.solves]
    exact .neg (allowed θ)
  | not =>
    refine (yields_unifyAt henv operandSpan (w.good_const _) ht).bind
      fun _ w' _ equates => .pure ⟨w'.good_const _, fun plain θ hθ => ?_⟩
    rw [← equates plain θ hθ.solves]
    exact .not

/-! ## Calls -/

theorem EnvGood.callee (h : w.EnvGood env) {t : Ty} (ht : w.Good t) : w.Good (env.callee t) :=
  Env.callee_induction (h.defines.good _ _) ht

theorem callee_eq (h : ∀ t, env.expand t = none) (t : Ty) : env.callee t = t := by
  unfold Env.callee Env.aliasDepth
  cases t <;> simp only [Env.calleeWithin, h]

/-! ## Matching -/

theorem applyShapes_plain (plain : w.plain) {t : Ty} (ht : w.Good t) :
    w.subst.applyShapes t = w.subst.apply t := by
  unfold Subst.applyShapes
  rw [Subst.expandShapes]
  calc (w.subst.apply t).mapVars _ = (w.subst.apply t).mapVars .var := mapVars_congr fun v hv => by
        have hlive : w.live v.id := within_iff.1 (good_apply ht).within v hv
        split
        · rfl
        · rename_i hf
          simp [w.unrecorded plain v.id hlive] at hf
    _ = w.subst.apply t := mapVars_var _

theorem yields_guardOf (henv : w.EnvGood env) {guard : Option Expr}
    (sound : ∀ e, guard = some e → ExprSound V e)
    (hplain : w.plain → ∀ e, guard = some e → e.Plain)
    (visits : w.plain → ∀ e, guard = some e → V ⟨env, level, e, w.progress⟩) :
    w.Yields (guardOf env level guard) fun _ w' =>
      ∀ e, guard = some e → w'.Typed V env e .bool := by
  cases guard with
  | none =>
    rw [guardOf]
    exact .pure (by simp)
  | some e =>
    rw [guardOf]
    refine (sound e rfl w env level henv (fun plain => hplain plain e rfl)
      fun plain => visits plain e rfl).bind fun t w₁ later₁ typed => .getSubst ?_
    have bool := w₁.good_const "Bool"
    cases h : unify env.expand .bool t w₁.subst with
    | error clash => exact .fail
    | ok s' =>
      refine (yields_unified (later₁.envGood henv) h bool typed.1).mono
        fun _ w₂ later₂ equates => ?_
      rintro _ ⟨⟩
      exact (later₂.typed typed).of_equates (later₂.good bool) equates

structure VisitsArms (V : Visit → Prop) (env : Env) (level : Nat) (scrutinee result : Ty)
    (cases : List Arm) (p : Progress) : Prop where
  guard : ∀ front {pattern guard body span back bound q},
    cases = front ++ ⟨pattern, some guard, body, span⟩ :: back →
    (do arms env level scrutinee result front
        checkPattern env level pattern scrutinee) p = .ok bound q →
    V ⟨env.extendMono bound, level, guard, q⟩
  body : ∀ front {pattern guard body span back bound q},
    cases = front ++ ⟨pattern, guard, body, span⟩ :: back →
    (do arms env level scrutinee result front
        let bound ← checkPattern env level pattern scrutinee
        guardOf (env.extendMono bound) level guard
        return bound) p = .ok bound q →
    V ⟨env.extendMono bound, level, body, q⟩

theorem VisitsArms.tail {scrutinee result : Ty} {arm : Arm} {cases : List Arm} {p p' : Progress}
    (h : VisitsArms V env level scrutinee result (arm :: cases) p)
    (step : ∀ front, arms env level scrutinee result (arm :: front) p =
      arms env level scrutinee result front p') :
    VisitsArms V env level scrutinee result cases p' where
  guard := by
    rintro front pattern guard body span back bound q rfl run
    obtain ⟨⟨⟩, r, before, run⟩ := exists_of_bind run
    refine h.guard (arm :: front) rfl ?_
    rw [run_bind_ok ((step front).trans before), run]
  body := by
    rintro front pattern guard body span back bound q rfl run
    obtain ⟨⟨⟩, r, before, run⟩ := exists_of_bind run
    refine h.body (arm :: front) rfl ?_
    rw [run_bind_ok ((step front).trans before), run]

theorem yields_arms (henv : w.EnvGood env) {scrutinee result : Ty} (hscrutinee : w.Good scrutinee)
    (hresult : w.Good result) {cases : List Arm} (sound : ∀ arm ∈ cases, arm.Each (ExprSound V))
    (hpatterns : w.plain → ∀ arm ∈ cases, arm.pattern.Plain)
    (hbodies : w.plain → ∀ arm ∈ cases, arm.Each Expr.Plain)
    (visits : w.plain → VisitsArms V env level scrutinee result cases w.progress) :
    w.Yields (arms env level scrutinee result cases) fun _ w' => w'.plain → ∀ θ,
      w'.FairSolution V θ →
      ArmsTyped (env.subst θ) (scrutinee.subst θ) (result.subst θ) cases := by
  induction cases generalizing w with
  | nil =>
    rw [arms]
    exact .pure fun _ _ _ => .nil
  | cons arm cases ih =>
    obtain ⟨p, guard, body, span⟩ := arm
    obtain ⟨soundGuard, soundBody⟩ := sound _ List.mem_cons_self
    have plainArm := fun plain => hbodies plain _ List.mem_cons_self
    rw [arms]
    refine (yields_checkPattern henv (fun plain => hpatterns plain _ List.mem_cons_self)
      hscrutinee).bindRun fun names w₁ run₁ later₁ ⟨hnames, matched⟩ => ?_
    have hscope := (later₁.envGood henv).extendMono hnames
    -- This arm comes first: no arm has run before its pattern.
    have start (m : Unit → Infer (List (String × Ty))) :
        (arms env level scrutinee result [] >>= m) w.progress = m () w.progress := by
      rw [arms]
      rfl
    have visitGuard (plain : w₁.plain) : ∀ e, guard = some e →
        V ⟨env.extendMono names, level, e, w₁.progress⟩ := by
      rintro e rfl
      refine (visits (later₁.plain ▸ plain)).guard [] rfl ?_
      rw [start]
      exact run₁
    refine (yields_guardOf hscope soundGuard (fun plain =>
      (plainArm (later₁.plain ▸ plain)).1) visitGuard).bindRun fun _ w₂ run₂ later₂ guarded => ?_
    have later := later₁.trans later₂
    have visitBody (plain : w₂.plain) :
        V ⟨env.extendMono names, level, body, w₂.progress⟩ := by
      refine (visits (later.plain ▸ plain)).body [] rfl ?_
      rw [start, run_bind_ok run₁, run_bind_ok run₂]
      rfl
    refine (soundBody w₂ _ level (later₂.envGood hscope) (fun plain =>
      (plainArm (later.plain ▸ plain)).2) visitBody).bindRun fun t w₃ run₃ later₃ typed => ?_
    have later := later.trans later₃
    refine (yields_unifyAt (later.envGood henv) _ (later.good hresult) typed.1).bindRun
      fun _ w₄ run₄ later₄ equates => ?_
    have fits := (later₄.typed typed).of_equates ((later.trans later₄).good hresult) equates
    have later := later.trans later₄
    -- For the arms that follow, this one belongs to what has run.
    have rest (plain : w.plain) : VisitsArms V env level scrutinee result cases w₄.progress := by
      refine (visits plain).tail fun front => ?_
      rw [arms, run_bind_ok run₁, run_bind_ok run₂, run_bind_ok run₃, run_bind_ok run₄]
    refine (ih (later.envGood henv) (later.good hscrutinee) (later.good hresult)
      (fun arm harm => sound arm (List.mem_cons_of_mem _ harm))
      (fun plain arm harm => hpatterns (later.plain ▸ plain) arm (List.mem_cons_of_mem _ harm))
      (fun plain arm harm => hbodies (later.plain ▸ plain) arm (List.mem_cons_of_mem _ harm))
      fun plain => rest (later.plain ▸ plain)).mono fun _ w₅ later₅ typedRest plain θ hθ => ?_
    have plain₀ : w.plain := (later.trans later₅).plain ▸ plain
    have hθ₁ := (((later₂.trans later₃).trans later₄).trans later₅).solution hθ.toSolution
    refine .cons (matched plain₀ θ hθ₁.solves) (fun e he => ?_) ?_ (typedRest plain θ hθ)
    · have typedGuard := (((later₃.trans later₄).trans later₅).typed (guarded e he)).2 plain θ hθ
      rwa [Env.extendMono_subst] at typedGuard
    · have typedBody := (later₅.typed fits).2 plain θ hθ
      rwa [Env.extendMono_subst] at typedBody

/-! ## Records -/

theorem good_insert {fields : List (String × Ty)} (hf : ∀ field ∈ fields, w.Good field.2)
    {name : String} {t : Ty} (ht : w.Good t) :
    ∀ field ∈ Assoc.insert fields name t, w.Good field.2 := by
  intro field hfield
  rcases Assoc.mem_of_mem_insert hfield with rfl | hfield
  · exact ht
  · exact hf field hfield

theorem yields_fieldsAt (henv : w.EnvGood env) {t : Ty} (ht : w.Good t) (span : Span) :
    w.Yields (fieldsAt env span t) fun fields w' => w'.Good (.record fields) := by
  unfold fieldsAt
  cases hf : env.recordFields t with
  | none => exact .fail
  | some fields => exact .pure (henv.recordFields ht hf)

theorem yields_spreadFields (henv : w.EnvGood env) {t : Ty} (ht : w.Good t) (span : Span) :
    w.Yields (spreadFields env span t) fun fields w' => w'.Good (.record fields) := by
  unfold spreadFields
  cases hf : env.recordFields t with
  | some fields => exact .pure (henv.recordFields ht hf)
  | none => cases t <;> exact .fail

theorem yields_entries (henv : w.EnvGood env) (records : ¬w.plain) {parts : List Entry}
    (sound : ∀ entry ∈ parts, entry.Each (ExprSound V)) {fields : List (String × Ty)}
    (hf : ∀ field ∈ fields, w.Good field.2) :
    w.Yields (entries env level parts fields) fun fields w' => ∀ field ∈ fields, w'.Good field.2 := by
  induction parts generalizing w fields with
  | nil =>
    rw [entries]
    exact .pure hf
  | cons entry parts ih =>
    have first := sound entry List.mem_cons_self
    have rest := fun entry hentry => sound entry (List.mem_cons_of_mem _ hentry)
    cases entry with
    | field init =>
      obtain ⟨name, value, span⟩ := init
      rw [entries]
      refine (first w env level henv (fun plain => absurd plain records)
        fun plain => absurd plain records).bind
        fun t w₁ later₁ typed => ?_
      exact ih (later₁.envGood henv) (later₁.plain ▸ records) rest
        (good_insert (fun field hfield => later₁.good (hf field hfield)) typed.1)
    | spread base =>
      rw [entries]
      refine (first w env level henv (fun plain => absurd plain records)
        fun plain => absurd plain records).bind
        fun t w₁ later₁ typed => .resolved ?_
      refine (yields_spreadFields (later₁.envGood henv) (good_apply typed.1) base.span).bind
        fun spread w₂ later₂ good => ?_
      have later := later₁.trans later₂
      refine ih (later.envGood henv) (later.plain ▸ records) rest fun field hfield => ?_
      rcases Assoc.mem_of_mem_insertAll hfield with hfield | hfield
      · exact Marks.hereditary_good.field good field hfield
      · exact later.good (hf field hfield)

theorem yields_updatedFields {v : TypeVar} (hv : w.Good (.var v)) (asks : w.Asks v.id)
    (records : ¬w.plain) (inits : List FieldInit) {fields : List (String × Ty)}
    (hf : ∀ field ∈ fields, w.Good field.2) :
    w.Yields (updatedFields level v inits fields) fun fields w' =>
      ∀ field ∈ fields, w'.Good field.2 := by
  induction inits generalizing w fields with
  | nil => exact .pure hf
  | cons init inits ih =>
    refine (yields_fieldOf level hv asks init.name records).bind fun t w₁ later₁ good => ?_
    exact ih (later₁.good hv) (later₁.asks _ (everywhere_var.1 hv.1).1 asks)
      (later₁.plain ▸ records) (good_insert (fun field hfield => later₁.good (hf field hfield)) good)

theorem yields_updates (henv : w.EnvGood env) (records : ¬w.plain) (record : Ty)
    {inits : List FieldInit} (sound : ∀ init ∈ inits, ExprSound V init.value)
    {declared : List (String × Ty)} (hdeclared : ∀ field ∈ declared, w.Good field.2) :
    w.Yields (updates env level record declared inits) fun _ _ => True := by
  induction inits generalizing w with
  | nil =>
    rw [updates]
    exact .pure trivial
  | cons init inits ih =>
    obtain ⟨name, value, span⟩ := init
    rw [updates]
    cases hget : Assoc.get? declared name with
    | none => exact .fail
    | some expected =>
      have hexpected := hdeclared _ (Assoc.mem_of_get? hget)
      refine (sound _ List.mem_cons_self w env level henv (fun plain => absurd plain records)
        fun plain => absurd plain records).bind fun t w₁ later₁ typed => ?_
      refine (yields_unifyAt (later₁.envGood henv) _ (later₁.good hexpected) typed.1).bind
        fun _ w₂ later₂ _ => ?_
      have later := later₁.trans later₂
      exact ih (later.envGood henv) (later.plain ▸ records)
        (fun init hinit => sound init (List.mem_cons_of_mem _ hinit))
        fun field hfield => later.good (hdeclared field hfield)

end Polytype.World
