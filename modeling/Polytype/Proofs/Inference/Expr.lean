import Polytype.Proofs.Inference.Let

namespace Polytype.World

open Ty Infer

variable {w : World} {V : Visit → Prop} {env : Env}

theorem typed_of_records {e : Expr} {t : Ty} (good : w.Good t) (records : ¬w.plain) :
    w.Typed V env e t :=
  ⟨good, fun plain => absurd plain records⟩

theorem exprSound_var (name : Ident) : ExprSound V (.var name) := by
  intro w env level henv _ _
  rw [expr]
  cases hb : env.lookup name.name with
  | none =>
    refine .get ?_
    split
    · exact .fail
    · exact .fail
  | some b =>
    have good := henv.lookup hb
    refine (yields_instantiate level good.scheme).mono fun t w' later ⟨ht, types, apart, heq⟩ => ?_
    refine ⟨ht, fun plain θ hθ => ?_⟩
    have lookup : (env.subst θ).lookup name.name = some (b.mapScheme (Scheme.subst θ)) := by
      rw [Env.lookup_subst, hb]
      rfl
    refine .var lookup ?_
    rw [heq]
    exact (later.bindingGood good).instance plain hθ.toSolution apart

section Parts

variable (closed : Visit.Closed V)

include closed in
theorem exprSound_lambda {params : List Param} {body : Expr} {span : Span} (sound : ExprSound V body) :
    ExprSound V (.lambda params body span) := by
  intro w env level henv hplain visited
  have annotations (plain : w.plain) : ∀ x ∈ params, ∀ t, x.written = some t → t.Plain := by
    cases hplain plain with
    | lambda h _ => exact h
  have bodyPlain (plain : w.plain) : body.Plain := by
    cases hplain plain with
    | lambda _ h => exact h
  rw [expr]
  refine (yields_params env (level + 1) annotations).bindRun
    fun types w₁ run later₁ ⟨hlength, good, annotated⟩ => ?_
  have hscope : w₁.EnvGood (env.extendMono ((params.map (·.name.name)).zip types)) :=
    (later₁.envGood henv).extendMono fun entry hentry => good _ (List.of_mem_zip hentry).2
  refine (sound w₁ _ (level + 1) hscope (fun plain => bodyPlain (later₁.plain ▸ plain)) fun plain =>
    closed.enter (visited (later₁.plain ▸ plain)) .lambda (run_bind_ok run)).bind
    fun result w₂ later₂ typed => .pure ⟨?_, fun plain θ hθ => ?_⟩
  · exact good_func (fun t ht => later₂.good (good t ht)) typed.1
  · obtain ⟨names, annotated⟩ := annotated ((later₁.trans later₂).plain ▸ plain) θ
    have body := typed.2 plain θ hθ
    rw [Env.extendMono_subst, mapValues_zip] at body
    rw [subst_func]
    exact .lambda annotated body

theorem hasType_call {function : Expr} {args : List Expr} {span : Span} {params : List Ty}
    {result : Ty} (hfunction : HasType env function (.func params result))
    (hargs : HasTypes env args (params.take args.length)) (harity : args = [] → params = []) :
    HasType env (.apply function args span)
      (if (params.drop args.length).isEmpty then result
        else .func (params.drop args.length) result) := by
  refine .apply ?_ hargs fun hnil => by simp [harity hnil]
  rw [List.take_append_drop]
  exact hfunction

include closed in
theorem exprSound_apply {function : Expr} {args : List Expr} {span : Span}
    (sound : ExprSound V function) (soundArgs : ∀ e ∈ args, ExprSound V e) :
    ExprSound V (.apply function args span) := by
  intro w env level henv hplain visited
  have functionPlain (plain : w.plain) : function.Plain := by
    cases hplain plain with
    | apply h _ => exact h
  have argsPlain (plain : w.plain) : ∀ e ∈ args, e.Plain := by
    cases hplain plain with
    | apply _ h => exact h
  rw [expr]
  refine (sound w env level henv functionPlain fun plain =>
    closed.enter (visited plain) .function rfl).bindRun fun t w₁ run later₁ typed => .resolved ?_
  have henv₁ := later₁.envGood henv
  have argsPlain₁ : w₁.plain → ∀ e ∈ args, e.Plain := fun plain => argsPlain (later₁.plain ▸ plain)
  have hcallee := henv₁.callee (good_apply typed.1)
  -- Without definitions the called type is the type of the function.
  have called : w₁.Typed V env function (env.callee (w₁.subst.apply t)) := by
    refine typed.of_equates hcallee fun plain => ?_
    rw [callee_eq (henv₁.defines.plain plain)]
    exact w₁.equates_apply t plain
  generalize hcallee : env.callee (w₁.subst.apply t) = callee at called
  cases callee with
  | func params result =>
    have hparams := Marks.hereditary_good.params called.1
    have hresult := Marks.hereditary_good.result called.1
    dsimp only
    split
    · exact .fail
    · rename_i harity
      have hlength : args.length ≤ params.length := Nat.le_of_not_lt fun h => harity (.inl h)
      have empty : args = [] → params = [] := by
        rintro rfl
        simpa using harity
      have visits (plain : w.plain) :
          VisitsEach V env level args (arguments env level · params) w₁.progress := by
        rintro front e back ⟨⟩ q rfl run'
        refine closed.enter (visited plain) .argument ?_
        rw [beforeArgument_func run hcallee hlength, run_bind_ok run']
        rfl
      refine (yields_arguments henv₁ soundArgs argsPlain₁ hlength hparams fun plain =>
        visits (later₁.plain ▸ plain)).bind
        fun _ w₂ later₂ typedArgs => .pure ⟨?_, fun plain θ hθ => ?_⟩
      · split
        · exact later₂.good hresult
        · exact good_func (fun t ht => later₂.good (hparams t (List.mem_of_mem_drop ht)))
            (later₂.good hresult)
      · have hfunction := (later₂.typed called).2 plain θ hθ
        rw [subst_func] at hfunction
        have given := typedArgs.typed plain θ hθ
        rw [List.map_take] at given
        have call : HasType (env.subst θ) (.apply function args span) _ :=
          hasType_call hfunction given (by simpa using empty)
        rw [← List.map_drop, List.isEmpty_map, ← subst_func, ← apply_ite (Ty.subst θ)] at call
        exact call
  | var v =>
    have visits (plain : w.plain) : VisitsEach V env level args (exprs env level) w₁.progress := by
      rintro front e back ts q rfl run'
      refine closed.enter (visited plain) .argument ?_
      rw [beforeArgument_var run hcallee, run_bind_ok run']
      rfl
    refine (yields_exprs henv₁ soundArgs argsPlain₁ fun plain =>
      visits (later₁.plain ▸ plain)).bind fun types w₂ later₂ typedArgs => ?_
    refine (yields_fresh level).bind fun result w₃ later₃ ⟨hresult, _⟩ => ?_
    have later := later₂.trans later₃
    have hfunc : w₃.Good (.func types result) :=
      good_func (fun t ht => later₃.good (typedArgs.good t ht)) hresult
    refine (yields_unifyAt (later.envGood henv₁) _ (later.good called.1) hfunc).bind
      fun _ w₄ later₄ equates => .pure ⟨later₄.good hresult, fun plain θ hθ => ?_⟩
    have hfunction := (((later.trans later₄).typed called).of_equates (later₄.good hfunc)
      equates.symm).2 plain θ hθ
    rw [subst_func, ← List.append_nil (types.map _)] at hfunction
    have given := ((later₃.trans later₄).typedAll typedArgs).typed plain θ hθ
    exact .apply hfunction given fun _ => rfl
  | _ =>
    refine (yields_freshList level args.length).bind fun _ w₂ _ _ => ?_
    exact (yields_fresh level).bind fun _ _ _ _ => .fail

include closed in
theorem exprSound_letIn {name : Ident} {written : Option TypeExpr} {value : Expr} {recursive : Bool}
    {body : Expr} {span : Span} (soundValue : ExprSound V value) (soundBody : ExprSound V body) :
    ExprSound V (.letIn name written value recursive body span) := by
  intro w env level henv hplain visited
  have writtenPlain (plain : w.plain) : ∀ t, written = some t → t.Plain := by
    cases hplain plain with
    | letIn h _ _ => exact h
  have valuePlain (plain : w.plain) : value.Plain := by
    cases hplain plain with
    | letIn _ h _ => exact h
  have bodyPlain (plain : w.plain) : body.Plain := by
    cases hplain plain with
    | letIn _ _ h => exact h
  rw [expr_letIn]
  refine (yields_letBinding henv level name writtenPlain soundValue valuePlain recursive
    fun plain result q run => closed.enter (visited plain) .letValue (run_bind_ok run)).bindRun
    fun σ w₁ run later₁ ⟨good, _, bound⟩ => ?_
  refine (soundBody w₁ _ level ((later₁.envGood henv).extendValue good) (fun plain =>
    bodyPlain (later₁.plain ▸ plain)) fun plain =>
      closed.enter (visited (later₁.plain ▸ plain)) .letBody (run_bind_ok run)).mono
    fun t w₂ later₂ typed => ⟨typed.1, fun plain θ hθ => ?_⟩
  have fair := hθ.fair _ (visited ((later₁.trans later₂).plain ▸ plain))
  obtain ⟨⟨annotated, hvalue⟩, generalizes⟩ :=
    bound (later₂.plain ▸ plain) θ (later₂.fairSolution hθ)
  have hbody := typed.2 plain θ hθ
  rw [Env.extendValue_subst] at hbody
  rw [← Expr.isValue_subst θ] at generalizes
  cases recursive with
  | false => exact .letIn annotated hvalue generalizes hbody
  | true =>
    refine .letRec annotated hvalue (generalizes.mono fun hg => ?_) hbody
    refine isValue_of_unapplied [name.name] (fun other => ?_) hg ?_
    · simp only [Env.constructor?_extendValue, List.mem_singleton, eq_comm]
    · rw [Expr.isValue_subst] at hg
      simpa using fair.recursive rfl hg

include closed in
theorem exprSound_letGroup {bindings : List GroupBinding} {body : Expr} {span : Span}
    (soundValues : ∀ b ∈ bindings, ExprSound V b.value) (soundBody : ExprSound V body) :
    ExprSound V (.letGroup bindings body span) := by
  intro w env level henv hplain visited
  have writtenPlain (plain : w.plain) : ∀ b ∈ bindings, ∀ t, b.written = some t → t.Plain := by
    cases hplain plain with
    | letGroup h _ _ => exact h
  have valuesPlain (plain : w.plain) : ∀ b ∈ bindings, b.value.Plain := by
    cases hplain plain with
    | letGroup _ h _ => exact h
  have bodyPlain (plain : w.plain) : body.Plain := by
    cases hplain plain with
    | letGroup _ _ h => exact h
  rw [expr_letGroup]
  have visits (plain : w.plain) : VisitsGroup V env level bindings w.progress := by
    rintro types r typed front b back q rfl run
    refine closed.enter (visited plain) .groupValue ?_
    rw [run_bind_ok typed, run_bind_ok run]
    rfl
  refine (yields_group henv level writtenPlain soundValues valuesPlain visits).bindRun
    fun schemes w₁ run later₁ ⟨named, good, bound⟩ => ?_
  have hscope : w₁.EnvGood (env.extendAll (Assoc.mapValues .value schemes)) := by
    refine (later₁.envGood henv).extendAll fun entry hentry => ?_
    obtain ⟨given, hgiven, rfl⟩ := List.mem_map.1 hentry
    exact (good given hgiven).1
  refine (soundBody w₁ _ level hscope (fun plain => bodyPlain (later₁.plain ▸ plain)) fun plain =>
    closed.enter (visited (later₁.plain ▸ plain)) .groupBody (run_bind_ok run)).mono
    fun t w₂ later₂ typed => ⟨typed.1, fun plain θ hθ => ?_⟩
  have fair := hθ.fair _ (visited ((later₁.trans later₂).plain ▸ plain))
  obtain ⟨⟨annotated, hvalues⟩, generalizes⟩ :=
    bound (later₂.plain ▸ plain) θ (later₂.fairSolution hθ)
  have hbody := typed.2 plain θ hθ
  generalize schemes.map (·.2) = found at named annotated hvalues generalizes
  rw [Env.extendAll_subst, named, mapValues_zip, mapValues_zip, List.map_map] at hbody
  -- Inference asks outside of the group which expressions are values, the rules ask inside.
  have inside (hg : (bindings.all fun b => b.value.isValue env) = true) : (bindings.all fun b =>
      b.value.isValue ((env.subst θ).extendMono ((bindings.map (·.name.name)).zip
        (found.map fun σ => σ.ty.subst θ)))) = true := by
    rw [List.all_eq_true] at hg ⊢
    intro b hb
    refine isValue_of_unapplied (bindings.map (·.name.name)) (fun name => ?_) (hg b hb)
      (List.forall_mem_map.2 (fair.group rfl hg b hb))
    rw [Env.constructor?_extendMono, List.map_fst_zip (by simp [annotated.length_eq]),
      Env.constructor?_subst]
  have generalizesAll : List.Forall₂ (Generalizes (env.subst θ) (bindings.all fun b =>
      b.value.isValue ((env.subst θ).extendMono ((bindings.map (·.name.name)).zip
        (found.map fun σ => σ.ty.subst θ)))))
      (found.map fun σ => σ.ty.subst θ) (found.map (Scheme.subst θ)) := by
    rw [List.forall₂_map_left_iff, List.forall₂_map_right_iff]
    exact List.forall₂_same.2 fun σ hσ => (generalizes σ hσ).mono inside
  refine .letGroup annotated hvalues generalizesAll ?_
  rw [List.map_map]
  exact hbody

include closed in
theorem exprSound_cond {condition thenBranch elseBranch : Expr} {span : Span}
    (soundCondition : ExprSound V condition) (soundThen : ExprSound V thenBranch)
    (soundElse : ExprSound V elseBranch) :
    ExprSound V (.cond condition thenBranch elseBranch span) := by
  intro w env level henv hplain visited
  have conditionPlain (plain : w.plain) : condition.Plain := by
    cases hplain plain with
    | cond h _ _ => exact h
  have thenPlain (plain : w.plain) : thenBranch.Plain := by
    cases hplain plain with
    | cond _ h _ => exact h
  have elsePlain (plain : w.plain) : elseBranch.Plain := by
    cases hplain plain with
    | cond _ _ h => exact h
  rw [expr]
  refine (soundCondition w env level henv conditionPlain fun plain =>
    closed.enter (visited plain) .condition rfl).bindRun fun t w₁ run₁ later₁ typed => ?_
  refine (yields_unifyAt (later₁.envGood henv) _ (w₁.good_const _) typed.1).bindRun
    fun _ w₂ run₂ later₂ equates => ?_
  have tested := (later₂.typed typed).of_equates (w₂.good_const _) equates
  have later := later₁.trans later₂
  have visitThen (plain : w₂.plain) : V ⟨env, level, thenBranch, w₂.progress⟩ := by
    refine closed.enter (visited (later.plain ▸ plain)) .thenBranch ?_
    rw [run_bind_ok run₁, run_bind_ok run₂]
    rfl
  refine (soundThen w₂ env level (later.envGood henv) (fun plain =>
    thenPlain (later.plain ▸ plain)) visitThen).bindRun fun thenType w₃ run₃ later₃ typedThen => ?_
  have later := later.trans later₃
  have visitElse (plain : w₃.plain) : V ⟨env, level, elseBranch, w₃.progress⟩ := by
    refine closed.enter (visited (later.plain ▸ plain)) .elseBranch ?_
    rw [run_bind_ok run₁, run_bind_ok run₂, run_bind_ok run₃]
    rfl
  refine (soundElse w₃ env level (later.envGood henv) (fun plain =>
    elsePlain (later.plain ▸ plain)) visitElse).bind fun elseType w₄ later₄ typedElse => ?_
  have later := later.trans later₄
  refine (yields_unifyAt (later.envGood henv) _ (later₄.good typedThen.1) typedElse.1).bind
    fun _ w₅ later₅ equates => .pure ?_
  have later₄₅ := later₄.trans later₅
  refine ⟨later₄₅.good typedThen.1, fun plain θ hθ => ?_⟩
  have fits := (later₅.typed typedElse).of_equates (later₄₅.good typedThen.1) equates
  exact .cond (((later₃.trans later₄₅).typed tested).2 plain θ hθ)
    ((later₄₅.typed typedThen).2 plain θ hθ) (fits.2 plain θ hθ)

theorem EnvGood.exhaustive (henv : w.EnvGood env) (plain : w.plain) {t : Ty} (ht : w.Good t)
    {cases : List Arm} {θ : Nat → Ty} (hθ : w.Solution θ)
    (hmissing : missingCase? env (w.subst.apply t)
      (cases.map fun arm => (arm.pattern, arm.guard.isSome)) = none) :
    Exhaustive (env.subst θ) (t.subst θ) cases := by
  have outside {id : Nat} (h : ¬w.retired id) : env.Outside id := fun entry hentry q hq heq =>
    h (heq ▸ henv.params plain entry hentry q hq)
  have live {v : TypeVar} (hv : v ∈ (w.subst.apply t).vars) : w.live v.id :=
    within_iff.1 (good_apply ht).within v hv
  have special : Special env.Outside (w.subst.apply t) (t.subst θ) := by
    rw [← w.equates_apply t plain θ hθ.solves]
    refine special_mapVars fun v hv => .var (outside (w.apart v.id · (live hv))) ?_
    refine within_iff.2 fun u hu => outside fun hretired => ?_
    have apart := hθ.apart v.id (live hv) u.id hretired
    simp [mentions_iff.2 ⟨u, hu, rfl⟩] at apart
  have covers := (Coverage.covers_of_missingCase?_eq_none hmissing).refine
    (henv.defines.plain plain) (.cons (.inr special) .nil)
  rw [List.filter_map, List.map_map] at covers
  simpa [Exhaustive, Function.comp_def] using covers.congr (env.types_subst θ).symm

include closed in
theorem exprSound_case {scrutinee : Expr} {cases : List Arm} {span : Span}
    (sound : ExprSound V scrutinee) (soundArms : ∀ arm ∈ cases, arm.Each (ExprSound V)) :
    ExprSound V (.case scrutinee cases span) := by
  intro w env level henv hplain visited
  have scrutineePlain (plain : w.plain) : scrutinee.Plain := by
    cases hplain plain with
    | case h _ _ _ => exact h
  have patternsPlain (plain : w.plain) : ∀ arm ∈ cases, arm.pattern.Plain := by
    cases hplain plain with
    | case _ h _ _ => exact h
  have armsPlain (plain : w.plain) : ∀ arm ∈ cases, arm.Each Expr.Plain := by
    cases hplain plain with
    | case _ _ guards bodies => exact fun arm harm => ⟨guards arm harm, bodies arm harm⟩
  rw [expr]
  refine (sound w env level henv scrutineePlain fun plain =>
    closed.enter (visited plain) .scrutinee rfl).bindRun fun t w₁ run₁ later₁ typed => ?_
  refine (yields_fresh level).bindRun fun result w₂ run₂ later₂ ⟨hresult, _⟩ => ?_
  have later := later₁.trans later₂
  have visits (plain : w.plain) : VisitsArms V env level t result cases w₂.progress := by
    constructor
    · rintro front pattern guard body armSpan back bound q rfl run
      obtain ⟨⟨⟩, r, before, run⟩ := exists_of_bind run
      refine closed.enter (visited plain) .guard ?_
      rw [run_bind_ok run₁, run_bind_ok run₂, run_bind_ok before, run_bind_ok run]
      rfl
    · rintro front pattern guard body armSpan back bound q rfl run
      obtain ⟨⟨⟩, r, before, run⟩ := exists_of_bind run
      obtain ⟨names, r', matched, run⟩ := exists_of_bind run
      obtain ⟨⟨⟩, r'', guarded, run⟩ := exists_of_bind run
      cases run
      refine closed.enter (visited plain) .arm ?_
      rw [run_bind_ok run₁, run_bind_ok run₂, run_bind_ok before, run_bind_ok matched,
        run_bind_ok guarded]
      rfl
  refine (yields_arms (later.envGood henv) (later₂.good typed.1) hresult soundArms
    (fun plain => patternsPlain (later.plain ▸ plain))
    (fun plain => armsPlain (later.plain ▸ plain)) fun plain => visits (later.plain ▸ plain)).bind
    fun _ w₃ later₃ typedArms => .getSubst ?_
  have typed := (later₂.trans later₃).typed typed
  dsimp only
  cases hmissing : missingCase? env (w₃.subst.applyShapes t)
      (cases.map fun arm => (arm.pattern, arm.guard.isSome)) with
  | some missing => exact .fail
  | none =>
    refine .pure ⟨later₃.good hresult, fun plain θ hθ => ?_⟩
    rw [applyShapes_plain plain typed.1] at hmissing
    exact .case (typed.2 plain θ hθ) (typedArms plain θ hθ)
      (((later.trans later₃).envGood henv).exhaustive plain typed.1 hθ.toSolution hmissing)

include closed in
theorem exprSound_block {parts : List Expr} {span : Span} (sound : ∀ e ∈ parts, ExprSound V e) :
    ExprSound V (.block parts span) := by
  intro w env level henv hplain visited
  have partsPlain (plain : w.plain) : ∀ e ∈ parts, e.Plain := by
    cases hplain plain with
    | block h => exact h
  rw [expr]
  have visits (plain : w.plain) : VisitsEach V env level parts (exprs env level) w.progress := by
    rintro front e back ts q rfl run
    exact closed.enter (visited plain) .block (run_bind_ok run)
  refine (yields_exprs henv sound partsPlain visits).bind fun ts w₁ _ typed => .pure ⟨?_, ?_⟩
  · cases h : ts.getLast? with
    | none =>
      rw [List.getLastD_eq_getLast?, h]
      exact w₁.good_const _
    | some t =>
      rw [List.getLastD_eq_getLast?, h]
      exact typed.good t (List.mem_of_getLast? h)
  · intro plain θ hθ
    have last : (ts.map (Ty.subst θ)).getLastD .unit = (ts.getLastD .unit).subst θ := by
      rw [List.getLastD_eq_getLast?, List.getLastD_eq_getLast?, List.getLast?_map]
      cases ts.getLast? <;> rfl
    rw [← last]
    exact .block (typed.typed plain θ hθ)

theorem exprSound_record {parts : List Entry} {span : Span}
    (sound : ∀ entry ∈ parts, entry.Each (ExprSound V)) : ExprSound V (.record parts span) := by
  intro w env level henv hplain visited
  have records : ¬w.plain := fun plain => nomatch hplain plain
  rw [expr]
  refine (yields_entries henv records sound (by simp)).bind fun fields w₁ later₁ good => .pure ?_
  have records := later₁.plain ▸ records
  exact typed_of_records (good_record records good) records

theorem exprSound_update {base : Expr} {inits : List FieldInit} {span : Span}
    (soundBase : ExprSound V base) (soundInits : ∀ init ∈ inits, ExprSound V init.value) :
    ExprSound V (.update base inits span) := by
  intro w env level henv hplain visited
  have records : ¬w.plain := fun plain => nomatch hplain plain
  rw [expr]
  refine (soundBase w env level henv (fun plain => absurd plain records)
    fun plain => absurd plain records).bind fun t w₁ later₁ typed => .resolved ?_
  have finish {w₂ : World} (later₂ : Later w₁ w₂) (record : Ty) {declared : List (String × Ty)}
      (hdeclared : ∀ field ∈ declared, w₂.Good field.2) :
      w₂.Yields (do
        updates env level record declared inits
        return t) fun t w' => w'.Typed V env (.update base inits span) t := by
    have later := later₁.trans later₂
    have records := later.plain ▸ records
    refine (yields_updates (later.envGood henv) records record soundInits hdeclared).bind
      fun _ w₃ later₃ _ => .pure ?_
    exact typed_of_records ((later₂.trans later₃).good typed.1) (later₃.plain ▸ records)
  have hbase := good_apply typed.1
  have fields {record : Ty} (hrecord : w₁.Good record) :
      w₁.Yields (do
        let declared ← fieldsAt env base.span record
        updates env level record declared inits
        return t) fun t w' => w'.Typed V env (.update base inits span) t :=
    (yields_fieldsAt (later₁.envGood henv) hrecord base.span).bind fun declared w₂ later₂ good =>
      finish later₂ record (Marks.hereditary_good.field good)
  cases happlied : w₁.subst.apply t with
  | var v =>
    rw [happlied] at hbase
    exact (yields_updatedFields hbase (asks_of_apply typed.1 happlied) (later₁.plain ▸ records) inits
      (by simp)).bind fun declared w₂ later₂ good => finish later₂ (.var v) good
  | _ => exact fields (happlied ▸ hbase)

theorem exprSound_field {object : Expr} {name : String} {span : Span} (sound : ExprSound V object) :
    ExprSound V (.field object name span) := by
  intro w env level henv hplain visited
  have records : ¬w.plain := fun plain => nomatch hplain plain
  rw [expr]
  refine (sound w env level henv (fun plain => absurd plain records)
    fun plain => absurd plain records).bind fun t w₁ later₁ typed => .resolved ?_
  have hobject := good_apply typed.1
  have records := later₁.plain ▸ records
  generalize happlied : w₁.subst.apply t = applied at hobject
  split
  · rename_i v
    have asks := asks_of_apply typed.1 happlied
    exact (yields_fieldOf level hobject asks name records).mono fun t w₂ later₂ good =>
      typed_of_records good (later₂.plain ▸ records)
  · refine (yields_fieldsAt (later₁.envGood henv) hobject object.span).bind
      fun fields w₂ later₂ good => ?_
    cases hget : Assoc.get? fields name with
    | none => exact .fail
    | some t => exact .pure (typed_of_records (good_field good hget) (later₂.plain ▸ records))

include closed in
theorem exprSound_tuple {parts : List Expr} {span : Span} (sound : ∀ e ∈ parts, ExprSound V e) :
    ExprSound V (.tuple parts span) := by
  intro w env level henv hplain visited
  have partsPlain (plain : w.plain) : ∀ e ∈ parts, e.Plain := by
    cases hplain plain with
    | tuple h => exact h
  rw [expr]
  have visits (plain : w.plain) : VisitsEach V env level parts (exprs env level) w.progress := by
    rintro front e back ts q rfl run
    exact closed.enter (visited plain) .tuple (run_bind_ok run)
  refine (yields_exprs henv sound partsPlain visits).bind fun ts w₁ _ typed => .pure ?_
  refine ⟨good_tuple typed.good, fun plain θ hθ => ?_⟩
  rw [subst_tuple]
  exact .tuple (typed.typed plain θ hθ)

include closed in
theorem exprSound_list {parts : List Expr} {span : Span} (sound : ∀ e ∈ parts, ExprSound V e) :
    ExprSound V (.list parts span) := by
  intro w env level henv hplain visited
  have partsPlain (plain : w.plain) : ∀ e ∈ parts, e.Plain := by
    cases hplain plain with
    | list h => exact h
  rw [expr]
  refine (yields_fresh level).bindRun fun element w₁ run later₁ ⟨helement, _⟩ => ?_
  have visits (plain : w.plain) :
      VisitsEach V env level parts (elements env level element) w₁.progress := by
    rintro front e back ⟨⟩ q rfl run'
    refine closed.enter (visited plain) .list ?_
    rw [run_bind_ok run, run_bind_ok run']
    rfl
  refine (yields_elements (later₁.envGood henv) sound
    (fun plain => partsPlain (later₁.plain ▸ plain)) helement
    fun plain => visits (later₁.plain ▸ plain)).bind
    fun _ w₂ later₂ typed => .pure ⟨good_list (later₂.good helement), fun plain θ hθ => ?_⟩
  have elements := typed.typed plain θ hθ
  rw [List.map_replicate] at elements
  exact .list elements

include closed in
theorem exprSound_makeRef {value : Expr} {span : Span} (sound : ExprSound V value) :
    ExprSound V (.makeRef value span) := by
  intro w env level henv hplain visited
  have valuePlain (plain : w.plain) : value.Plain := by
    cases hplain plain with
    | makeRef h => exact h
  rw [expr]
  refine (sound w env level henv valuePlain fun plain =>
    closed.enter (visited plain) .makeRef rfl).bind fun t w₁ _ typed => .pure ?_
  exact ⟨good_ref typed.1, fun plain θ hθ => .makeRef (typed.2 plain θ hθ)⟩

include closed in
theorem exprSound_deref {reference : Expr} {span : Span} (sound : ExprSound V reference) :
    ExprSound V (.deref reference span) := by
  intro w env level henv hplain visited
  have referencePlain (plain : w.plain) : reference.Plain := by
    cases hplain plain with
    | deref h => exact h
  rw [expr]
  refine (sound w env level henv referencePlain fun plain =>
    closed.enter (visited plain) .deref rfl).bind fun t w₁ later₁ typed => ?_
  refine (yields_fresh level).bind fun content w₂ later₂ ⟨hcontent, _⟩ => ?_
  refine (yields_unifyAt ((later₁.trans later₂).envGood henv) span (good_ref hcontent)
    (later₂.good typed.1)).bind fun _ w₃ later₃ equates => .pure ?_
  have fits := ((later₂.trans later₃).typed typed).of_equates
    (later₃.good (good_ref hcontent)) equates
  exact ⟨later₃.good hcontent, fun plain θ hθ => .deref (fits.2 plain θ hθ)⟩

include closed in
theorem exprSound_assign {target value : Expr} {span : Span} (soundTarget : ExprSound V target)
    (soundValue : ExprSound V value) : ExprSound V (.assign target value span) := by
  intro w env level henv hplain visited
  have targetPlain (plain : w.plain) : target.Plain := by
    cases hplain plain with
    | assign h _ => exact h
  have valuePlain (plain : w.plain) : value.Plain := by
    cases hplain plain with
    | assign _ h => exact h
  rw [expr]
  refine (soundTarget w env level henv targetPlain fun plain =>
    closed.enter (visited plain) .target rfl).bindRun fun t w₁ run₁ later₁ typed => ?_
  refine (yields_fresh level).bindRun fun content w₂ run₂ later₂ ⟨hcontent, _⟩ => ?_
  have later := later₁.trans later₂
  refine (yields_unifyAt (later.envGood henv) _ (good_ref hcontent) (later₂.good typed.1)).bindRun
    fun _ w₃ run₃ later₃ equates => ?_
  have cell := ((later₂.trans later₃).typed typed).of_equates
    (later₃.good (good_ref hcontent)) equates
  have later := later.trans later₃
  have visitValue (plain : w₃.plain) : V ⟨env, level, value, w₃.progress⟩ := by
    refine closed.enter (visited (later.plain ▸ plain)) .assigned ?_
    rw [run_bind_ok run₁, run_bind_ok run₂, run_bind_ok run₃]
    rfl
  refine (soundValue w₃ env level (later.envGood henv) (fun plain =>
    valuePlain (later.plain ▸ plain)) visitValue).bind fun u w₄ later₄ typedValue => ?_
  have hcontent := (later₃.trans later₄).good hcontent
  refine (yields_unifyAt ((later.trans later₄).envGood henv) _ hcontent typedValue.1).bind
    fun _ w₅ later₅ equates => .pure ⟨w₅.good_const _, fun plain θ hθ => ?_⟩
  have fits := (later₅.typed typedValue).of_equates (later₅.good hcontent) equates
  exact .assign (((later₄.trans later₅).typed cell).2 plain θ hθ) (fits.2 plain θ hθ)

include closed in
theorem exprSound_binary {op : BinaryOp} {left right : Expr} {span : Span}
    (soundLeft : ExprSound V left) (soundRight : ExprSound V right) :
    ExprSound V (.binary op left right span) := by
  intro w env level henv hplain visited
  have leftPlain (plain : w.plain) : left.Plain := by
    cases hplain plain with
    | binary h _ => exact h
  have rightPlain (plain : w.plain) : right.Plain := by
    cases hplain plain with
    | binary _ h => exact h
  rw [expr]
  refine (soundLeft w env level henv leftPlain fun plain =>
    closed.enter (visited plain) .left rfl).bindRun fun t w₁ run later₁ typedLeft => ?_
  refine (soundRight w₁ env level (later₁.envGood henv) (fun plain =>
    rightPlain (later₁.plain ▸ plain)) fun plain =>
      closed.enter (visited (later₁.plain ▸ plain)) .right (run_bind_ok run)).bind
    fun u w₂ later₂ typedRight => ?_
  refine (yields_binary ((later₁.trans later₂).envGood henv) op (later₂.good typedLeft.1)
    typedRight.1 _ _ span).mono fun result w₃ later₃ ⟨good, typed⟩ => ⟨good, fun plain θ hθ => ?_⟩
  refine .binary (((later₂.trans later₃).typed typedLeft).2 plain θ hθ)
    ((later₃.typed typedRight).2 plain θ hθ) (typed plain θ hθ.toSolution fun hop => ?_)
  exact (hθ.fair _ (visited (((later₁.trans later₂).trans later₃).plain ▸ plain))).compared hop rfl
    run

include closed in
theorem exprSound_unary {op : UnaryOp} {operand : Expr} {span : Span} (sound : ExprSound V operand) :
    ExprSound V (.unary op operand span) := by
  intro w env level henv hplain visited
  have operandPlain (plain : w.plain) : operand.Plain := by
    cases hplain plain with
    | unary h => exact h
  rw [expr]
  refine (sound w env level henv operandPlain fun plain =>
    closed.enter (visited plain) .operand rfl).bind fun t w₁ later₁ typed => ?_
  refine (yields_unary (later₁.envGood henv) op typed.1 _ span).mono
    fun u w₂ later₂ ⟨good, result⟩ => ⟨good, fun plain θ hθ => ?_⟩
  exact .unary ((later₂.typed typed).2 plain θ hθ) (result plain θ hθ.toSolution)

include closed in
theorem exprSound_annotated {inner : Expr} {written : TypeExpr} {span : Span}
    (sound : ExprSound V inner) : ExprSound V (.annotated inner written span) := by
  intro w env level henv hplain visited
  have innerPlain (plain : w.plain) : inner.Plain := by
    cases hplain plain with
    | annotated h _ => exact h
  have writtenPlain (plain : w.plain) : written.Plain := by
    cases hplain plain with
    | annotated _ h => exact h
  rw [expr]
  refine (sound w env level henv innerPlain fun plain =>
    closed.enter (visited plain) .annotated rfl).bind fun t w₁ later₁ typed => ?_
  refine (yields_writtenType env level fun plain => writtenPlain (later₁.plain ▸ plain)).bind
    fun expected w₂ later₂ ⟨hexpected, denotes⟩ => ?_
  refine (yields_unifyAt ((later₁.trans later₂).envGood henv) span hexpected
    (later₂.good typed.1)).bind fun _ w₃ later₃ equates => .pure ?_
  have hexpected := later₃.good hexpected
  have fits := ((later₂.trans later₃).typed typed).of_equates hexpected equates
  refine ⟨hexpected, fun plain θ hθ => ?_⟩
  obtain ⟨names, denotes⟩ := denotes ((later₂.trans later₃).plain ▸ plain) θ
  exact .annotated (fits.2 plain θ hθ) denotes

include closed in
theorem exprSound (e : Expr) : ExprSound V e := by
  induction e using Expr.induct with
  | literal value span =>
    intro w env level henv _ _
    rw [expr]
    refine .pure ⟨good_literal value, fun _ θ _ => ?_⟩
    rw [subst_literal]
    exact .literal
  | var name => exact exprSound_var name
  | lambda params body span ih => exact exprSound_lambda closed ih
  | apply function args span ih ihArgs => exact exprSound_apply closed ih ihArgs
  | letIn name written value recursive body span ihValue ihBody =>
    exact exprSound_letIn closed ihValue ihBody
  | letGroup bindings body span ihValues ihBody => exact exprSound_letGroup closed ihValues ihBody
  | cond condition thenBranch elseBranch span ihCondition ihThen ihElse =>
    exact exprSound_cond closed ihCondition ihThen ihElse
  | block parts span ih => exact exprSound_block closed ih
  | case scrutinee arms span ih ihArms => exact exprSound_case closed ih ihArms
  | record parts span ih => exact exprSound_record ih
  | update base inits span ihBase ihInits => exact exprSound_update ihBase ihInits
  | field object name span ih => exact exprSound_field ih
  | tuple parts span ih => exact exprSound_tuple closed ih
  | list parts span ih => exact exprSound_list closed ih
  | makeRef value span ih => exact exprSound_makeRef closed ih
  | deref reference span ih => exact exprSound_deref closed ih
  | assign target value span ihTarget ihValue => exact exprSound_assign closed ihTarget ihValue
  | binary op left right span ihLeft ihRight => exact exprSound_binary closed ihLeft ihRight
  | unary op operand span ih => exact exprSound_unary closed ih
  | annotated inner written span ih => exact exprSound_annotated closed ih

end Parts

theorem exprSound_everywhere (e : Expr) : ExprSound (fun _ => True) e :=
  exprSound (fun _ _ _ _ => trivial) e

end Polytype.World
