import Polytype.Proofs.Inference.Expr

namespace Polytype.World

open Ty Infer

/-! ## The scopes of parts -/

/-- A scope inside of another one fits the world, and has the same definitions. -/
structure Inside (w : World) (env scope : Env) : Prop where
  good : w.EnvGood scope
  types : scope.types = env.types

theorem LetScope.types {w : World} {env scope : Env} {name : Ident} {written : Option TypeExpr}
    {recursive : Bool} {expected : Option Ty}
    (h : LetScope w env name written recursive expected scope) : scope.types = env.types := by
  cases recursive with
  | false => rw [h.plainScope rfl]
  | true =>
    obtain ⟨t, -, rfl⟩ := h.selfScope rfl
    rfl

section Stage

variable {w : World} {env : Env} {level : Nat} (records : ¬w.plain) (henv : w.EnvGood env)

include henv in
theorem yields_inside {w' : World} (later : Later w w') (inner : Nat) :
    w'.Yields (pure (env, inner)) fun scope w' => w'.Inside env scope.1 :=
  .pure ⟨later.envGood henv, rfl⟩

include records henv in
theorem yields_visit (e : Expr) : w.Yields (expr env level e) fun t w' => w'.Good t :=
  (exprSound_everywhere e w env level henv (fun plain => absurd plain records)
    fun _ => trivial).mono fun _ _ _ typed => typed.1

include records henv in
theorem yields_beforeArgument (function : Expr) (args before : List Expr) (span : Span)
    (hlength : before.length ≤ args.length) :
    w.Yields (beforeArgument env level function args before span) fun scope w' =>
      w'.Inside env scope.1 := by
  have sound : ∀ e ∈ before, ExprSound (fun _ => True) e := fun e _ => exprSound_everywhere e
  unfold beforeArgument
  refine (yields_visit records henv function).bind fun t w₁ later₁ ht => .resolved ?_
  have henv₁ := later₁.envGood henv
  have records₁ := later₁.plain ▸ records
  have hcallee := henv₁.callee (good_apply ht)
  generalize env.callee (w₁.subst.apply t) = callee at hcallee
  cases callee with
  | func params result =>
    dsimp only
    split
    · exact .fail
    · rename_i enough
      refine (yields_arguments henv₁ sound (fun plain => absurd plain records₁) (by omega)
        (Marks.hereditary_good.params hcallee) fun _ _ _ _ _ _ _ _ => trivial).bind
        fun _ w₂ later₂ _ => yields_inside henv₁ later₂ level
  | var v =>
    exact (yields_exprs henv₁ sound (fun plain => absurd plain records₁)
      fun _ _ _ _ _ _ _ _ => trivial).bind fun _ w₂ later₂ _ => yields_inside henv₁ later₂ level
  | _ =>
    refine (yields_freshList level args.length).bind fun _ w₂ _ _ => ?_
    exact (yields_fresh level).bind fun _ _ _ _ => .fail

include records henv in
theorem yields_updatable (base : Expr) (inits : List FieldInit) {t : Ty} (ht : w.Good t) :
    w.Yields (updatable env level base inits (w.subst.apply t)) fun declared w' =>
      ∀ field ∈ declared, w'.Good field.2 := by
  have happlied := good_apply ht
  have fields {record : Ty} (hrecord : w.Good record) : w.Yields (fieldsAt env base.span record)
      fun declared w' => ∀ field ∈ declared, w'.Good field.2 :=
    (yields_fieldsAt henv hrecord base.span).mono fun declared w' _ good =>
      Marks.hereditary_good.field good
  unfold updatable
  cases h : w.subst.apply t with
  | var v => exact yields_updatedFields (h ▸ happlied) (asks_of_apply ht h) records inits (by simp)
  | _ => exact fields (h ▸ happlied)

include records henv in
theorem yields_untilArm {α : Type} (scrutinee : Expr) (before : List Arm) (p : Pattern)
    {f : List (String × Ty) → Infer α} {post : α → World → Prop}
    (h : ∀ bound w', Later w w' → w'.Inside env (env.extendMono bound) → w'.Yields (f bound) post) :
    w.Yields (do
      let t ← expr env level scrutinee
      let result ← Infer.fresh level
      arms env level t result before
      let bound ← checkPattern env level p t
      f bound) post := by
  refine (yields_visit records henv scrutinee).bind fun t w₁ later₁ ht => ?_
  refine (yields_fresh level).bind fun result w₂ later₂ ⟨hresult, _⟩ => ?_
  have later := later₁.trans later₂
  have records₂ := later.plain ▸ records
  have sound : ∀ arm ∈ before, arm.Each (ExprSound fun _ => True) := fun arm _ =>
    ⟨fun e _ => exprSound_everywhere e, exprSound_everywhere arm.body⟩
  refine (yields_arms (later.envGood henv) (later₂.good ht) hresult sound
    (fun plain => absurd plain records₂) (fun plain => absurd plain records₂)
    fun plain => absurd plain records₂).bind fun _ w₃ later₃ _ => ?_
  have later := later.trans later₃
  refine (yields_checkPattern (later.envGood henv)
    (fun plain => absurd plain (later.plain ▸ records))
    ((later₂.trans later₃).good ht)).bind fun bound w₄ later₄ ⟨hbound, _⟩ => ?_
  have later := later.trans later₄
  exact h bound w₄ later ⟨(later.envGood henv).extendMono hbound, rfl⟩

include records henv in
theorem yields_stage {e part : Expr} {prep : Infer (Env × Nat)}
    (stage : Stage env level e prep part) :
    w.Yields prep fun scope w' => w'.Inside env scope.1 := by
  have sound (es : List Expr) : ∀ e ∈ es, ExprSound (fun _ => True) e :=
    fun e _ => exprSound_everywhere e
  have blank {P : Prop} (plain : w.plain) : P := absurd plain records
  -- The part that comes first is entered at once, in the scope of the whole.
  cases stage with
  | function | condition | scrutinee | base | object | makeRef | deref | target | left | operand
  | annotated => exact yields_inside henv (.refl w) level
  | lambda =>
    refine (yields_params env (level + 1) blank).bind fun types w₁ later₁ ⟨_, good, _⟩ => .pure ?_
    exact ⟨(later₁.envGood henv).extendMono fun entry hentry => good _ (List.of_mem_zip hentry).2,
      rfl⟩
  | argument => exact yields_beforeArgument records henv _ _ _ _ (by simp)
  | letValue =>
    exact (yields_letScope henv level _ blank _).bind fun result w₁ later₁ scope =>
      .pure ⟨scope.envGood, scope.types⟩
  | letBody =>
    refine (yields_letBinding henv level _ blank (exprSound_everywhere _) blank _
      fun _ _ _ _ => trivial).bind fun σ w₁ later₁ ⟨good, _, _⟩ => .pure ?_
    exact ⟨(later₁.envGood henv).extendValue good, rfl⟩
  | groupValue =>
    rename_i before binding later body span
    refine (yields_groupTypes level blank).bind fun types w₁ later₁ ⟨hlength, good, _⟩ => ?_
    have hscope : w₁.EnvGood (groupScope env (before ++ binding :: later) types) :=
      (later₁.envGood henv).extendMono fun entry hentry => good _ (List.of_mem_zip hentry).2
    have blank₁ {P : Prop} (plain : w₁.plain) : P := blank (later₁.plain ▸ plain)
    rw [members_eq]
    refine (yields_arguments hscope (sound _) blank₁ (by simp [hlength]) good blank₁).bind
      fun _ w₂ later₂ _ => .pure ⟨later₂.envGood hscope, rfl⟩
  | groupBody =>
    refine (yields_group henv level blank (fun b _ => exprSound_everywhere b.value) blank
      blank).bind fun schemes w₁ later₁ ⟨_, good, _⟩ => .pure ⟨?_, rfl⟩
    refine (later₁.envGood henv).extendAll fun entry hentry => ?_
    obtain ⟨given, hgiven, rfl⟩ := List.mem_map.1 hentry
    exact (good given hgiven).1
  | thenBranch =>
    refine (yields_visit records henv _).bind fun t w₁ later₁ ht => ?_
    exact (yields_unifyAt (later₁.envGood henv) _ (w₁.good_const _) ht).bind fun _ w₂ later₂ _ =>
      yields_inside henv (later₁.trans later₂) level
  | elseBranch =>
    refine (yields_visit records henv _).bind fun t w₁ later₁ ht => ?_
    refine (yields_unifyAt (later₁.envGood henv) _ (w₁.good_const _) ht).bind
      fun _ w₂ later₂ _ => ?_
    have later := later₁.trans later₂
    exact (yields_visit (later.plain ▸ records) (later.envGood henv) _).bind fun _ w₃ later₃ _ =>
      yields_inside henv (later.trans later₃) level
  | block | tuple =>
    exact (yields_exprs henv (sound _) blank blank).bind fun _ w₁ later₁ _ =>
      yields_inside henv later₁ level
  | list =>
    refine (yields_fresh level).bind fun element w₁ later₁ ⟨helement, _⟩ => ?_
    have blank₁ {P : Prop} (plain : w₁.plain) : P := blank (later₁.plain ▸ plain)
    exact (yields_elements (later₁.envGood henv) (sound _) blank₁ helement blank₁).bind
      fun _ w₂ later₂ _ => yields_inside henv (later₁.trans later₂) level
  | guard =>
    exact yields_untilArm records henv _ _ _ fun _ w₁ _ inside => Yields.pure (w := w₁) inside
  | arm =>
    refine yields_untilArm records henv _ _ _ fun bound w₁ later₁ inside => ?_
    have blank₁ {P : Prop} (plain : w₁.plain) : P := blank (later₁.plain ▸ plain)
    exact (yields_guardOf inside.good (fun e _ => exprSound_everywhere e) blank₁ blank₁).bind
      fun _ w₂ later₂ _ => .pure ⟨later₂.envGood inside.good, inside.types⟩
  | record =>
    have soundEntry (entry : Entry) : entry.Each (ExprSound fun _ => True) := by
      cases entry with
      | field init => exact exprSound_everywhere init.value
      | spread base => exact exprSound_everywhere base
    exact (yields_entries henv records (fun entry _ => soundEntry entry) (by simp)).bind
      fun _ w₁ later₁ _ => yields_inside henv later₁ level
  | update =>
    rename_i base before init later span
    refine (yields_visit records henv base).bind fun t w₁ later₁ ht => .resolved ?_
    have records₁ := later₁.plain ▸ records
    refine (yields_updatable records₁ (later₁.envGood henv) base _ ht).bind
      fun declared w₂ later₂ hdeclared => ?_
    have later := later₁.trans later₂
    refine (yields_updates (later.envGood henv) (later.plain ▸ records) _
      (fun init _ => exprSound_everywhere init.value) hdeclared).bind fun _ w₃ later₃ _ => ?_
    split
    · exact .fail
    · exact yields_inside henv (later.trans later₃) level
  | assigned =>
    refine (yields_visit records henv _).bind fun t w₁ later₁ ht => ?_
    refine (yields_fresh level).bind fun content w₂ later₂ ⟨hcontent, _⟩ => ?_
    have later := later₁.trans later₂
    exact (yields_unifyAt (later.envGood henv) _ (good_ref hcontent) (later₂.good ht)).bind
      fun _ w₃ later₃ _ => yields_inside henv (later.trans later₃) level
  | right =>
    exact (yields_visit records henv _).bind fun _ w₁ later₁ _ => yields_inside henv later₁ level

end Stage

end Polytype.World
