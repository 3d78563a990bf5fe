import Polytype.Proofs.Inference.Typed

namespace Polytype.World

open Ty Infer

variable {w : World} {V : Visit → Prop} {env : Env}

/-! ## Schemes -/

def schemeUnder (env : Env) (level : Nat) (generalizable : Bool) (s : Subst) (t : Ty) : Scheme :=
  if generalizable then generalize env level t s else .mono (s.apply t)

theorem schemeUnder_ty (env : Env) (level : Nat) (generalizable : Bool) (s : Subst) (t : Ty) :
    (schemeUnder env level generalizable s t).ty = s.apply t := by
  cases generalizable <;> rfl

theorem mem_schemeUnder {level : Nat} {generalizable : Bool} {s : Subst} {t : Ty} {q : TypeVar}
    (h : q ∈ (schemeUnder env level generalizable s t).vars) : generalizable = true ∧
      q ∈ (s.apply t).vars ∧ level < q.level ∧ ¬∃ v ∈ env.freeVars s, v.id = q.id := by
  cases generalizable with
  | false => simp [schemeUnder, Scheme.mono] at h
  | true =>
    obtain ⟨hmem, hcond⟩ := List.mem_filter.1 h
    simp only [Bool.and_eq_true, decide_eq_true_eq, Bool.not_eq_true', List.any_eq_false,
      beq_iff_eq] at hcond
    refine ⟨rfl, mem_vars_of_mem_freeVars hmem, hcond.1, ?_⟩
    rintro ⟨v, hv, hid⟩
    exact hcond.2 v hv hid

theorem binds_schemeUnder {level : Nat} {s : Subst} {t : Ty} {id : Nat}
    (hid : (s.apply t).mentions id = true)
    (hlevel : ∀ v ∈ (s.apply t).vars, v.id = id → level < v.level)
    (unused : ¬∃ v ∈ env.freeVars s, v.id = id) :
    (schemeUnder env level true s t).binds id = true := by
  obtain ⟨v, hv, rfl⟩ := mentions_iff.1 hid
  obtain ⟨u, hu, huid⟩ := exists_mem_freeVars hv
  refine Scheme.binds_iff.2 ⟨u, List.mem_filter.2 ⟨hu, ?_⟩, huid⟩
  have above := hlevel u (mem_vars_of_mem_freeVars hu) huid
  have away : ∀ x ∈ env.freeVars s, ¬x.id = u.id := fun x hx heq => unused ⟨x, hx, heq.trans huid⟩
  simpa [above] using away

theorem level_apply {t : Ty} (ht : w.Good t) {v : TypeVar} (hv : v ∈ (w.subst.apply t).vars)
    (hstart : w.start ≤ v.id) : v.level = w.levelOf v.id := by
  obtain ⟨x, rfl, -, hx⟩ := w.resolved.mem_vars_apply hv
  have known : w.Knows w.subst x := by
    rcases hx with hx | ⟨u, hu, t', ht', hx⟩
    · exact allVars_iff.1 ht.1 x hx
    · have hlive := (allVars_iff.1 ht.1 u hu).1
      exact allVars_iff.1 (w.keeps.types hlive ht').1 x hx
  have hid : (w.subst.relevel x).id = x.id := by simp
  rw [hid] at hstart ⊢
  obtain ⟨lower, upper⟩ := known.2 hstart
  change (w.subst.relevel x).level = w.toMarks.level w.subst x.id
  unfold Marks.level at lower ⊢
  unfold Subst.relevel
  cases hl : w.subst.levels.get? x.id with
  | some l =>
    simp only [hl, Option.getD_some] at lower ⊢
    exact Nat.min_eq_left lower
  | none =>
    simp only [hl, Option.getD_none] at lower ⊢
    exact Nat.le_antisymm upper lower

def Below (w : World) (env : Env) (level : Nat) (σ : Scheme) : Prop :=
  ∀ v ∈ σ.ty.vars, σ.binds v.id = false → w.start ≤ v.id →
    w.levelOf v.id ≤ level ∨ ∃ u ∈ env.freeVars w.subst, u.id = v.id

/-- The scheme of a binding at a level: only unbound variables above the level are quantified. -/
structure Placed (w : World) (env : Env) (level : Nat) (σ : Scheme) : Prop where
  unbound : ∀ q ∈ σ.vars, w.subst.isBound q.id = false
  above : ∀ q ∈ σ.vars, w.start ≤ q.id → level < w.levelOf q.id
  below : w.Below env level σ

theorem SameLevels.levelOf {w' : World} (same : w'.SameLevels w) : w'.levelOf = w.levelOf := by
  funext id
  simp only [World.levelOf, Marks.level, same.subst, same.birth]

theorem Below.congr {w' : World} {level : Nat} {σ : Scheme} (below : w.Below env level σ)
    (same : w'.SameLevels w) : w'.Below env level σ := by
  unfold Below
  rw [same.levelOf, same.subst, same.start]
  exact below

theorem Placed.congr {w' : World} {level : Nat} {σ : Scheme} (placed : w.Placed env level σ)
    (same : w'.SameLevels w) : w'.Placed env level σ := by
  refine ⟨same.subst ▸ placed.unbound, fun q hq hid => ?_, placed.below.congr same⟩
  rw [same.levelOf]
  exact placed.above q hq (same.start ▸ hid)

theorem placed_generalized (level : Nat) {t : Ty} (ht : w.Good t) :
    w.Placed env level (schemeUnder env level true w.subst t) where
  unbound q hq := within_iff.1 (w.resolved.settled_apply t) q (mem_schemeUnder hq).2.1
  above q hq hstart := by
    obtain ⟨-, hvars, hlevel, -⟩ := mem_schemeUnder hq
    rwa [← level_apply ht hvars hstart]
  below v hv hfree hstart := by
    rw [schemeUnder_ty] at hv
    rcases Nat.lt_or_ge level (w.levelOf v.id) with above | below
    · refine .inr (Classical.byContradiction fun unused => ?_)
      have binds : (schemeUnder env level true w.subst t).binds v.id = true := by
        refine binds_schemeUnder (mentions_iff.2 ⟨v, hv, rfl⟩) (fun u hu hid => ?_) unused
        rw [level_apply ht hu (hid ▸ hstart), hid]
        exact above
      simp [binds] at hfree
    · exact .inl below

theorem placed_of_lowered {level : Nat} {σ : Scheme} (mono : σ.vars = [])
    (lowered : ∀ id, σ.ty.mentions id = true → w.start ≤ id → w.levelOf id ≤ level) :
    w.Placed env level σ :=
  ⟨by simp [mono], by simp [mono],
    fun v hv _ hid => .inl (lowered v.id (mentions_iff.2 ⟨v, hv, rfl⟩) hid)⟩

theorem found_schemes (level : Nat) (generalizable : Bool) {ts : List Ty}
    (hts : ∀ t ∈ ts, w.Good t) :
    w.Found env (ts.map (schemeUnder env level generalizable w.subst)) := by
  refine ⟨?_, ?_, ?_, ?_, ?_, ?_⟩ <;> simp only [List.forall_mem_map, schemeUnder_ty]
  · exact fun t ht => good_apply (hts t ht)
  · exact fun t ht q hq => (mem_schemeUnder hq).2.1
  · exact fun t ht q hq => within_iff.1 (w.resolved.settled_apply t) q (mem_schemeUnder hq).2.1
  · exact fun t ht q hq => (mem_schemeUnder hq).2.2.2
  · exact fun t ht _ t' ht' => w.resolved.settled_apply t'
  · intro t ht q hq hstart t' ht' hmem
    obtain ⟨rfl, hvars, hlevel, unused⟩ := mem_schemeUnder hq
    refine binds_schemeUnder hmem (fun v hv hid => ?_) unused
    rw [level_apply (hts t' ht') hv (hid ▸ hstart), hid, ← level_apply (hts t ht) hvars hstart]
    exact hlevel

theorem Found.congr {w' : World} {schemes : List Scheme} (found : w.Found env schemes)
    (hs : w'.subst = w.subst) (hmarks : w'.toMarks = w.toMarks) : w'.Found env schemes := by
  obtain ⟨good, mentioned, unbound, unused, settled, shared⟩ := found
  refine ⟨?_, mentioned, ?_, ?_, ?_, ?_⟩
  · simpa only [World.Good, hs, hmarks] using good
  · simpa only [hs] using unbound
  · simpa only [hs] using unused
  · simpa only [hs] using settled
  · simpa only [hmarks] using shared

theorem Found.of_mono {w' : World} {schemes : List Scheme} (found : w.Found env schemes)
    (later : Later w w') (mono : ∀ σ ∈ schemes, σ.vars = []) : w'.Found env schemes where
  good σ hσ := later.good (found.good σ hσ)
  mentioned := found.mentioned
  unbound σ hσ q hq := by simp [mono σ hσ] at hq
  unused σ hσ q hq := by simp [mono σ hσ] at hq
  settled σ hσ hne := absurd (mono σ hσ) hne
  shared σ hσ q hq := by simp [mono σ hσ] at hq

theorem yields_schemeOf (level : Nat) (t : Ty) (generalizable : Bool) :
    w.Yields (schemeOf env level t generalizable) fun σ w' =>
      σ = schemeUnder env level generalizable w.subst t ∧ w'.subst = w.subst ∧
        w'.toMarks = w.toMarks := by
  refine .getSubst ?_
  cases generalizable with
  | false => exact .pure ⟨rfl, rfl, rfl⟩
  | true => exact (yields_log _).bind fun _ w' _ same => .pure ⟨rfl, same⟩

/-! ## Closing and lowering -/

theorem yields_logAll (closed : List Closing) :
    w.Yields (forIn closed PUnit.unit fun closing _ => do
      log (.closed closing)
      return .yield PUnit.unit) fun _ w' => w'.subst = w.subst ∧ w'.toMarks = w.toMarks := by
  induction closed generalizing w with
  | nil => exact .pure ⟨rfl, rfl⟩
  | cons closing rest ih =>
    rw [List.forIn_cons, bind_assoc]
    refine (yields_log _).bind fun _ w' _ ⟨hs, hmarks⟩ => ?_
    rw [pure_bind]
    refine ih.mono fun _ w'' _ ⟨hs', hmarks'⟩ => ⟨hs'.trans hs, hmarks'.trans hmarks⟩

theorem yields_closeRecords (level : Nat) {t : Ty} (ht : w.Good t) (span : Span) :
    w.Yields (closeRecords level t span) fun _ _ => True := by
  refine .getSubst ?_
  have evolves {s' : Subst} (h : (w.subst.closeRecords t level).2 = .ok s') :
      Subst.Evolves (fun _ => none) [t] w.subst s' := Subst.evolves_closeRecords h
  generalize w.subst.closeRecords t level = outcome at evolves ⊢
  obtain ⟨closed, result⟩ := outcome
  refine (yields_logAll closed).bind fun _ w' later ⟨hs, hmarks⟩ => ?_
  cases result with
  | error clash => exact .throw
  | ok s' =>
    have evolved := evolves rfl
    rw [← hs] at evolved
    exact (yields_setSubst evolved w'.defines_none (by simp [later.good ht])).mono
      fun _ _ _ _ => trivial

theorem yields_lower (level : Nat) {t : Ty} (ht : w.Good t) :
    w.Yields (lower level t) fun _ w' => w'.subst.image = w.subst.image ∧
      ∀ id, (w.subst.apply t).mentions id = true → w.start ≤ id → w'.levelOf id ≤ level := by
  refine .getSubst ?_
  refine (yields_setSubst (Subst.evolves_lower w.subst t level) w.defines_none
    (by simp [ht])).mono fun _ w' later ⟨hs, _⟩ => ?_
  refine ⟨hs ▸ Subst.image_lower .., fun id hid hstart => ?_⟩
  obtain ⟨v, hv, rfl⟩ := List.mem_map.1 (Subst.reachable_closed.1 id hid)
  have known := w.keeps.reachable Marks.hereditary_good Marks.levelsAbove_level w.resolved ht v hv
  by_cases above : level < v.level
  · obtain ⟨l, hle, hget⟩ := Subst.lowest_le_newer (Subst.mem_loweredLevels_of_lt hv above)
    rw [← Subst.lower_levels, ← hs] at hget
    have current : w'.levelOf v.id = l := Marks.level_eq hget
    rw [current]
    exact hle
  · calc w'.levelOf v.id ≤ w.levelOf v.id :=
        later.levels _ (w.live_lt _ (everywhere_var.1 known.1).1) hstart
      _ ≤ v.level := ((everywhere_var.1 known.1).2 hstart).1
      _ ≤ level := Nat.not_lt.1 above

/-! ## A single binding -/

/-- What the value of a `let` is inferred with. A recursive value is in scope itself. -/
structure LetScope (w : World) (env : Env) (name : Ident) (written : Option TypeExpr)
    (recursive : Bool) (expected : Option Ty) (scope : Env) : Prop where
  envGood : w.EnvGood scope
  good : ∀ t, expected = some t → w.Good t
  annotated : w.plain → ∀ t, expected = some t → ∀ θ, Annotated (env.subst θ) written (t.subst θ)
  unwritten : expected = none → written = none
  plainScope : recursive = false → scope = env
  selfScope : recursive = true → ∃ t, expected = some t ∧ scope = env.extendValue name.name (.mono t)

theorem yields_letScope (henv : w.EnvGood env) (level : Nat) (name : Ident)
    {written : Option TypeExpr} (hplain : w.plain → ∀ t, written = some t → t.Plain)
    (recursive : Bool) :
    w.Yields (letScope env level name written recursive) fun result w' =>
      LetScope w' env name written recursive result.1 result.2 := by
  -- The self-reference, once its type is known.
  have self {w' : World} (later : Later w w') {t : Ty} (ht : w'.Good t)
      (annotated : w'.plain → ∀ θ, Annotated (env.subst θ) written (t.subst θ)) :
      LetScope w' env name written true (some t) (env.extendValue name.name (.mono t)) :=
    ⟨(later.envGood henv).extendValue (bindingGood_mono ht), by rintro _ ⟨⟩; exact ht,
      by rintro plain _ ⟨⟩; exact annotated plain, by simp, by simp, fun _ => ⟨t, rfl, rfl⟩⟩
  unfold letScope
  cases written with
  | none =>
    rw [show (none : Option TypeExpr).mapM (writtenType env (level + 1)) = pure none from rfl,
      pure_bind]
    cases recursive with
    | false => exact .pure ⟨henv, by simp, by simp, by simp, by simp, by simp⟩
    | true =>
      refine (yields_fresh (level + 1)).bind fun t w' later ⟨good, _⟩ => .pure ?_
      exact self later good fun _ _ => by simp [Annotated]
  | some written =>
    have annotate := yields_writtenType env (level + 1) fun plain => hplain plain written rfl
    rw [show (some written).mapM (writtenType env (level + 1)) =
      some <$> writtenType env (level + 1) written from rfl, map_eq_pure_bind, bind_assoc]
    refine annotate.bind ?_
    rintro t w' later ⟨good, denotes⟩
    have annotated : w'.plain → ∀ θ, Annotated (env.subst θ) (some written) (t.subst θ) := by
      rintro plain θ _ ⟨⟩
      exact denotes (later.plain ▸ plain) θ
    rw [pure_bind]
    cases recursive with
    | true => exact .pure (self later good annotated)
    | false =>
      refine .pure ⟨later.envGood henv, ?_, ?_, by simp, by simp, by simp⟩
      · rintro _ ⟨⟩
        exact good
      · rintro plain _ ⟨⟩
        exact annotated plain

theorem equates_schemeUnder (level : Nat) (generalizable : Bool) (t : Ty) :
    w.Equates (schemeUnder env level generalizable w.subst t).ty t := by
  rw [schemeUnder_ty]
  exact w.equates_apply t

theorem yields_quantify (level : Nat) (name : Ident) (generalizable : Bool) {bound : Ty}
    (hb : w.Good bound) :
    w.Yields (do
      let σ ← schemeOf env level bound generalizable
      if !σ.isPolymorphic then
        lower level bound
      log (.inferred name.name σ)
      return σ) fun σ w' => w'.Found env [σ] ∧ w'.Equates σ.ty bound ∧
        (generalizable = false → σ.vars = []) ∧ w'.Placed env level σ := by
  refine (yields_schemeOf level bound generalizable).bind ?_
  rintro σ w₁ later₁ ⟨rfl, hs, hmarks⟩
  generalize hσ : schemeUnder env level generalizable w.subst bound = σ
  have found : w₁.Found env [σ] := by
    have hts : ∀ t ∈ [bound], w.Good t := by simpa
    have found : w.Found env ([bound].map (schemeUnder env level generalizable w.subst)) :=
      found_schemes level generalizable hts
    rw [List.map_singleton, hσ] at found
    exact found.congr hs hmarks
  have equates : w₁.Equates σ.ty bound := hσ ▸ later₁.equates (equates_schemeUnder level _ bound)
  have restricted : generalizable = false → σ.vars = [] := by
    rintro rfl
    exact hσ ▸ rfl
  cases hpoly : σ.isPolymorphic with
  | true =>
    have placed : w.Placed env level σ := by
      cases generalizable with
      | true => exact hσ ▸ placed_generalized level hb
      | false => simp [Scheme.isPolymorphic, restricted rfl] at hpoly
    refine (yields_log _).bind fun _ w₂ later₂ ⟨hs', hmarks'⟩ => .pure ?_
    exact ⟨found.congr hs' hmarks', later₂.equates equates, restricted,
      placed.congr (.of_marks (hs'.trans hs) (hmarks'.trans hmarks))⟩
  | false =>
    -- Nothing is quantified, so all that the type reaches is lowered to the outer level.
    have mono : σ.vars = [] := by simpa [Scheme.isPolymorphic] using hpoly
    refine (yields_lower level (later₁.good hb)).bind fun _ w₂ later₂ ⟨_, lowered⟩ => ?_
    refine (yields_log _).bind fun _ w₃ later₃ ⟨hs', hmarks'⟩ => .pure ?_
    have later := later₂.trans later₃
    have placed : w₂.Placed env level σ := by
      refine placed_of_lowered mono fun id hid hstart => lowered id ?_ (later₂.start ▸ hstart)
      rwa [← hσ, schemeUnder_ty, ← hs] at hid
    exact ⟨found.of_mono later (by simpa using mono), later.equates equates, restricted,
      placed.congr (.of_marks hs' hmarks')⟩

theorem yields_letScheme (henv : w.EnvGood env) (level : Nat) (name : Ident) {expected : Option Ty}
    (hexpected : ∀ u, expected = some u → w.Good u) (value : Expr) {t : Ty} (ht : w.Good t) :
    w.Yields (letScheme env level name expected value t) fun σ w' => w'.Found env [σ] ∧
      w'.Equates (expected.getD t) t ∧ w'.Equates σ.ty (expected.getD t) ∧
        (value.isValue env = false → σ.vars = []) ∧ w'.Placed env level σ := by
  have finish {w₁ : World} {bound : Ty} (hb : w₁.Good bound) (heq : w₁.Equates bound t) :
      w₁.Yields (do
        let generalizable := value.isValue env
        if generalizable then
          closeRecords level bound value.span
        let σ ← schemeOf env level bound generalizable
        if !σ.isPolymorphic then
          lower level bound
        log (.inferred name.name σ)
        return σ) fun σ w₂ => w₂.Found env [σ] ∧ w₂.Equates bound t ∧ w₂.Equates σ.ty bound ∧
          (value.isValue env = false → σ.vars = []) ∧ w₂.Placed env level σ := by
    cases hg : value.isValue env with
    | false =>
      refine (yields_quantify level name false hb).mono fun σ w₂ later ⟨found, equates, mono⟩ => ?_
      exact ⟨found, later.equates heq, equates, mono⟩
    | true =>
      refine (yields_closeRecords level hb value.span).bind fun _ w₂ later₂ _ => ?_
      refine (yields_quantify level name true (later₂.good hb)).mono
        fun σ w₃ later₃ ⟨found, equates, mono⟩ => ?_
      exact ⟨found, (later₂.trans later₃).equates heq, equates, mono⟩
  cases expected with
  | none => exact finish ht fun _ _ _ => rfl
  | some u =>
    have hu := hexpected u rfl
    exact (yields_unifyAt henv value.span hu ht).bind fun _ w₁ later equates =>
      finish (later.good hu) equates

/-! ## The value and its scheme -/

def letValue (env : Env) (level : Nat) (name : Ident) (written : Option TypeExpr) (value : Expr)
    (recursive : Bool) : Infer Scheme := do
  let (expected, scope) ← letScope env level name written recursive
  let t ← expr scope (level + 1) value
  letScheme env level name expected value t

theorem letBinding_eq (env : Env) (level : Nat) (name : Ident) (written : Option TypeExpr)
    (value : Expr) (recursive : Bool) : letBinding env level name written value recursive = (do
      let drawn ← drawnSoFar
      let σ ← letValue env level name written value recursive
      noteSchemes env drawn [σ]
      return σ) := by
  simp only [letBinding, letValue, bind_assoc]

theorem expr_letIn (env : Env) (level : Nat) (name : Ident) (written : Option TypeExpr)
    (value : Expr) (recursive : Bool) (body : Expr) (span : Span) :
    expr env level (.letIn name written value recursive body span) =
      letBinding env level name written value recursive >>= fun σ =>
        expr (env.extendValue name.name σ) level body := by
  simp only [expr, letBinding, bind_assoc, pure_bind]

def LetTyped (env : Env) (name : Ident) (written : Option TypeExpr) (value : Expr)
    (recursive : Bool) (τ : Ty) : Prop :=
  Annotated env written τ ∧
    HasType (if recursive then env.extendValue name.name (.mono τ) else env) value τ

def VisitsValue (V : Visit → Prop) (env : Env) (level : Nat) (name : Ident)
    (written : Option TypeExpr) (value : Expr) (recursive : Bool) (p : Progress) : Prop :=
  ∀ result q, letScope env level name written recursive p = .ok result q →
    V ⟨result.2, level + 1, value, q⟩

theorem yields_letValue (henv : w.EnvGood env) (level : Nat) (name : Ident)
    {written : Option TypeExpr} (hwritten : w.plain → ∀ t, written = some t → t.Plain)
    {value : Expr} (sound : ExprSound V value) (hvalue : w.plain → value.Plain) (recursive : Bool)
    (visits : w.plain → VisitsValue V env level name written value recursive w.progress) :
    w.Yields (letValue env level name written value recursive) fun σ w' => w'.Found env [σ] ∧
      w'.Placed env level σ ∧ (value.isValue env = false → σ.vars = []) ∧
        (w'.plain → ∀ θ, w'.FairSolution V θ →
          LetTyped (env.subst θ) name written value recursive (σ.ty.subst θ)) := by
  refine (yields_letScope henv level name hwritten recursive).bindRun ?_
  rintro ⟨expected, scope⟩ w₁ run later₁ hscope
  refine (sound w₁ scope (level + 1) hscope.envGood (fun plain => hvalue (later₁.plain ▸ plain))
    fun plain => visits (later₁.plain ▸ plain) _ _ run).bind fun t w₂ later₂ typed => ?_
  have later := later₁.trans later₂
  refine (yields_letScheme (later.envGood henv) level name
    (fun u hu => later₂.good (hscope.good u hu)) value typed.1).mono ?_
  rintro σ w₃ later₃ ⟨found, fits, same, mono, placed⟩
  refine ⟨found, placed, mono, fun plain θ hθ => ?_⟩
  have hb : σ.ty.subst θ = (expected.getD t).subst θ := same plain θ hθ.solves
  have plain₁ : w₁.plain := (later₂.trans later₃).plain ▸ plain
  have typed : HasType (scope.subst θ) value (σ.ty.subst θ) := by
    rw [hb, fits plain θ hθ.solves]
    exact (later₃.typed typed).2 plain θ hθ
  constructor
  · cases expected with
    | some u =>
      rw [hb]
      exact hscope.annotated plain₁ u rfl θ
    | none => simp [hscope.unwritten rfl, Annotated]
  · cases recursive with
    | false =>
      obtain rfl : scope = env := hscope.plainScope rfl
      exact typed
    | true =>
      obtain ⟨u, rfl, rfl⟩ := hscope.selfScope rfl
      rw [Env.extendValue_subst, Scheme.subst_mono, show u.subst θ = σ.ty.subst θ from hb.symm] at typed
      exact typed

theorem Solution.generalizes (henv : w.EnvGood env) {σ : Scheme} (hσ : w.BindingGood (.value σ))
    (plain : w.plain) {θ : Nat → Ty} (hθ : w.Solution θ) {generalizable : Bool}
    (restricted : generalizable = false → σ.vars = []) :
    Generalizes (env.subst θ) generalizable (σ.ty.subst θ) (σ.subst θ) where
  ty := by
    rw [Scheme.subst_eq fun v hv => hθ.retired _ (hσ.2 plain v hv)]
  free v hv entry hentry hfree := by
    obtain ⟨⟨key, b⟩, hb, rfl⟩ := List.mem_map.1 hentry
    have retired := hσ.2 plain v hv
    have apart {τ : Scheme} (hτ : w.SchemeGood τ) : ¬(τ.subst θ).Free v.id := fun hfree => by
      obtain ⟨x, hx, hmem⟩ := Scheme.exists_free_of_subst hfree
      obtain ⟨u, hu, rfl⟩ := mentions_iff.1 hx.1
      simp [hθ.apart _ (hτ.free u hu hx.2).1 _ retired] at hmem
    cases b with
    | value τ => exact apart (henv.values _ hb).1 hfree
    | foreign τ given => exact apart (henv.values _ hb).1 hfree
    | constructor c =>
      obtain ⟨hmem, unbound⟩ := hfree
      obtain ⟨u, hu, hid⟩ := mentions_iff.1 hmem
      have binds := ConstructorGood.binds (henv.values _ hb) hu
      rw [hid] at binds
      exact absurd binds (Bool.eq_false_iff.1 unbound)
  value := restricted

theorem yields_letBinding (henv : w.EnvGood env) (level : Nat) (name : Ident)
    {written : Option TypeExpr} (hwritten : w.plain → ∀ t, written = some t → t.Plain)
    {value : Expr} (sound : ExprSound V value) (hvalue : w.plain → value.Plain) (recursive : Bool)
    (visits : w.plain → VisitsValue V env level name written value recursive w.progress) :
    w.Yields (letBinding env level name written value recursive) fun σ w' =>
      w'.BindingGood (.value σ) ∧ w'.Placed env level σ ∧ (w'.plain → ∀ θ, w'.FairSolution V θ →
        LetTyped (env.subst θ) name written value recursive (σ.ty.subst θ) ∧
          Generalizes (env.subst θ) (value.isValue env) (σ.ty.subst θ) (σ.subst θ)) := by
  have run := (yields_letValue henv level name hwritten sound hvalue recursive visits).mono
    fun σ w' later h => And.intro h.1 (And.intro later.plain h.2)
  have focused := (yields_letValue (focus_envGood henv) level name hwritten sound hvalue
    recursive visits).mono fun σ w' _ h => h.1
  rw [letBinding_eq]
  refine (Yields.noteSchemes (fun σ => [σ]) henv run focused).mono ?_
  rintro σ w₂ later ⟨good, w₁, ⟨hplain, placed, restricted, typed⟩, same, solution⟩
  have hσ := good σ (by simp)
  refine ⟨hσ, placed.congr same, fun plain θ hθ =>
    ⟨?_, hθ.generalizes (later.envGood henv) hσ plain restricted⟩⟩
  have plain : w.plain := later.plain ▸ plain
  exact typed (hplain ▸ plain) θ ⟨solution plain θ hθ.toSolution, hθ.fair⟩

/-! ## Groups -/

theorem yields_groupTypes (level : Nat) {bindings : List GroupBinding}
    (hplain : w.plain → ∀ b ∈ bindings, ∀ t, b.written = some t → t.Plain) :
    w.Yields (groupTypes env level bindings) fun ts w' => ts.length = bindings.length ∧
      (∀ t ∈ ts, w'.Good t) ∧ (w'.plain → ∀ θ,
        List.Forall₂ (fun b τ => Annotated (env.subst θ) b.written τ) bindings
          (ts.map (Ty.subst θ))) := by
  induction bindings generalizing w with
  | nil => exact .pure ⟨rfl, by simp, fun _ _ => .nil⟩
  | cons b bindings ih =>
    refine (yields_writtenTypeOrFresh env (level + 1) fun plain =>
      hplain plain b List.mem_cons_self).bind fun t w₁ later₁ ⟨good, annotated⟩ => ?_
    refine (ih fun plain b hb => hplain (later₁.plain ▸ plain) b (List.mem_cons_of_mem _ hb)).bind
      fun ts w₂ later₂ ⟨hlength, goods, annotatedAll⟩ => .pure ⟨by simp [hlength], ?_, ?_⟩
    · exact List.forall_mem_cons.2 ⟨later₂.good good, goods⟩
    · intro plain θ
      exact .cons (annotated ((later₁.trans later₂).plain ▸ plain) θ) (annotatedAll plain θ)

def VisitsMembers (V : Visit → Prop) (scope : Env) (level : Nat) (bindings : List GroupBinding)
    (types : List Ty) (p : Progress) : Prop :=
  ∀ front b back q, bindings = front ++ b :: back →
    members scope level front types p = .ok () q → V ⟨scope, level + 1, b.value, q⟩

theorem yields_members {scope : Env} (hscope : w.EnvGood scope) (level : Nat)
    {bindings : List GroupBinding} (sound : ∀ b ∈ bindings, ExprSound V b.value)
    (hplain : w.plain → ∀ b ∈ bindings, b.value.Plain) {ts : List Ty}
    (hlength : ts.length = bindings.length) (hts : ∀ t ∈ ts, w.Good t)
    (visits : w.plain → VisitsMembers V scope level bindings ts w.progress) :
    w.Yields (members scope level bindings ts) fun _ w' => w'.plain → ∀ θ, w'.FairSolution V θ →
      HasTypes (scope.subst θ) (bindings.map (·.value)) (ts.map (Ty.subst θ)) := by
  rw [members_eq]
  refine (yields_arguments hscope (List.forall_mem_map.2 sound)
    (fun plain => List.forall_mem_map.2 (hplain plain)) (by simp [hlength]) hts
    fun plain front e back a q heq run => ?_).mono fun _ w' _ typed plain θ hθ => ?_
  · obtain ⟨before, rest, rfl, rfl, hrest⟩ := List.map_eq_append_iff.1 heq
    obtain ⟨b, later, rfl, rfl, -⟩ := List.map_eq_cons_iff.1 hrest
    refine visits plain before b later q rfl ?_
    rw [members_eq]
    exact run
  · have all := typed.2 plain θ hθ
    rwa [List.length_map, ← hlength, List.take_length] at all

theorem yields_closeGroup (level : Nat) (bindings : List GroupBinding) {ts : List Ty}
    (hts : ∀ t ∈ ts, w.Good t) : w.Yields (closeGroup level bindings ts) fun _ _ => True := by
  induction bindings generalizing w ts with
  | nil => exact .pure trivial
  | cons b bindings ih =>
    cases ts with
    | nil => exact .pure trivial
    | cons t ts =>
      refine (yields_closeRecords level (hts t List.mem_cons_self) _).bind fun _ w' later _ => ?_
      exact ih fun t ht => later.good (hts t (List.mem_cons_of_mem _ ht))

theorem yields_lowerGroup (level : Nat) {ts : List Ty} (hts : ∀ t ∈ ts, w.Good t) :
    w.Yields (lowerGroup level ts) fun _ w' => ∀ t ∈ ts, ∀ id,
      (w.subst.apply t).mentions id = true → w.start ≤ id → w'.levelOf id ≤ level := by
  induction ts generalizing w with
  | nil => exact .pure (by simp)
  | cons t ts ih =>
    have ht := hts t List.mem_cons_self
    refine (yields_lower level ht).bind fun _ w₁ later₁ ⟨image, first⟩ => ?_
    refine (ih fun t ht => later₁.good (hts t (List.mem_cons_of_mem _ ht))).mono
      fun _ w₂ later₂ rest => List.forall_mem_cons.2
        ⟨fun id hid hstart => ?_, fun u hu id hid hstart => ?_⟩
    · obtain ⟨v, hv, rfl⟩ := mentions_iff.1 hid
      have hlive := w.live_lt _ (within_iff.1 (good_apply ht).within v hv)
      exact Nat.le_trans (later₂.levels _ (Nat.lt_of_lt_of_le hlive later₁.next)
        (later₁.start ▸ hstart)) (first _ hid hstart)
    · refine rest u hu id ?_ (later₁.start ▸ hstart)
      rw [w₁.resolved.mentions_apply, image]
      exact w.resolved.mentions_apply.1 hid

def groupUnder (env : Env) (level : Nat) (generalizable : Bool) (s : Subst)
    (bindings : List GroupBinding) (ts : List Ty) : List (String × Scheme) :=
  (bindings.map (·.name.name)).zip (ts.map (schemeUnder env level generalizable s))

theorem yields_groupSchemes (level : Nat) (generalizable : Bool) (bindings : List GroupBinding)
    (ts : List Ty) :
    w.Yields (groupSchemes env level generalizable bindings ts) fun schemes w' =>
      schemes = groupUnder env level generalizable w.subst bindings ts ∧ w'.subst = w.subst ∧
        w'.toMarks = w.toMarks := by
  induction bindings generalizing w ts with
  | nil => exact .pure ⟨by simp [groupUnder], rfl, rfl⟩
  | cons b bindings ih =>
    cases ts with
    | nil => exact .pure ⟨by simp [groupUnder], rfl, rfl⟩
    | cons t ts =>
      refine (yields_schemeOf level t generalizable).bind ?_
      rintro σ w₁ - ⟨rfl, hs₁, hmarks₁⟩
      refine (yields_log _).bind fun _ w₂ _ ⟨hs₂, hmarks₂⟩ => ?_
      refine (ih ts).bind ?_
      rintro schemes w₃ - ⟨rfl, hs₃, hmarks₃⟩
      refine .pure ⟨?_, hs₃.trans (hs₂.trans hs₁), hmarks₃.trans (hmarks₂.trans hmarks₁)⟩
      rw [hs₂, hs₁]
      rfl

theorem map_snd_groupUnder {level : Nat} {generalizable : Bool} {s : Subst}
    {bindings : List GroupBinding} {ts : List Ty} (hlength : ts.length = bindings.length) :
    (groupUnder env level generalizable s bindings ts).map (·.2) =
      ts.map (schemeUnder env level generalizable s) :=
  List.map_snd_zip (by simp [hlength])

theorem yields_finishGroup (level : Nat) {bindings : List GroupBinding} {ts : List Ty}
    (hts : ∀ t ∈ ts, w.Good t) {generalizable : Bool}
    (hg : (bindings.all fun b => b.value.isValue env) = generalizable) :
    w.Yields (finishGroup env level bindings ts) fun schemes w' => ∃ s,
      schemes = groupUnder env level generalizable s bindings ts ∧
        w'.Found env (ts.map (schemeUnder env level generalizable s)) ∧
          ∀ t ∈ ts, w'.Placed env level (schemeUnder env level generalizable s t) ∧
            w'.Equates (schemeUnder env level generalizable s t).ty t := by
  unfold finishGroup
  rw [hg]
  cases generalizable with
  | true =>
    refine (yields_closeGroup level bindings hts).bind fun _ w₁ later₁ _ => ?_
    refine (yields_groupSchemes level true bindings ts).bind ?_
    rintro schemes w₂ later₂ ⟨rfl, hs, hmarks⟩
    refine .pure ⟨w₁.subst, rfl, ?_, fun t ht =>
      ⟨?_, later₂.equates (equates_schemeUnder level true t)⟩⟩
    · exact (found_schemes level true fun t ht => later₁.good (hts t ht)).congr hs hmarks
    · exact (placed_generalized level (later₁.good (hts t ht))).congr (.of_marks hs hmarks)
  | false =>
    refine (yields_groupSchemes level false bindings ts).bind ?_
    rintro schemes w₁ later₁ ⟨rfl, hs, hmarks⟩
    refine (yields_lowerGroup level fun t ht => later₁.good (hts t ht)).bind
      fun _ w₂ later₂ lowered => ?_
    have later := later₁.trans later₂
    refine .pure ⟨w.subst, rfl, ?_, fun t ht =>
      ⟨?_, later.equates (equates_schemeUnder level false t)⟩⟩
    · refine ((found_schemes level false hts).congr hs hmarks).of_mono later₂ ?_
      simp [schemeUnder, Scheme.mono]
    · refine placed_of_lowered rfl fun id hid hstart => ?_
      rw [schemeUnder_ty, ← hs] at hid
      exact lowered t ht id hid (later₂.start ▸ hstart)

def groupValues (env : Env) (level : Nat) (bindings : List GroupBinding) :
    Infer (List (String × Scheme)) := do
  let types ← groupTypes env level bindings
  members (groupScope env bindings types) level bindings types
  finishGroup env level bindings types

theorem group_eq (env : Env) (level : Nat) (bindings : List GroupBinding) :
    group env level bindings = (do
      let drawn ← drawnSoFar
      let schemes ← groupValues env level bindings
      noteSchemes env drawn (schemes.map (·.2))
      return schemes) := by
  simp only [group, groupValues, bind_assoc]

theorem expr_letGroup (env : Env) (level : Nat) (bindings : List GroupBinding) (body : Expr)
    (span : Span) :
    expr env level (.letGroup bindings body span) =
      group env level bindings >>= fun schemes =>
        expr (env.extendAll (Assoc.mapValues .value schemes)) level body := by
  simp only [expr, group, bind_assoc, pure_bind]

def GroupTyped (env : Env) (bindings : List GroupBinding) (types : List Ty) : Prop :=
  List.Forall₂ (fun b τ => Annotated env b.written τ) bindings types ∧
    HasTypes (env.extendMono ((bindings.map (·.name.name)).zip types)) (bindings.map (·.value)) types

theorem mapValues_zip {α β : Type} (f : α → β) (keys : List String) (values : List α) :
    Assoc.mapValues f (keys.zip values) = keys.zip (values.map f) := by
  simp [Assoc.mapValues, List.zip_map_right]

def VisitsGroup (V : Visit → Prop) (env : Env) (level : Nat) (bindings : List GroupBinding)
    (p : Progress) : Prop :=
  ∀ types r, groupTypes env level bindings p = .ok types r →
    VisitsMembers V (groupScope env bindings types) level bindings types r

theorem yields_groupValues (henv : w.EnvGood env) (level : Nat) {bindings : List GroupBinding}
    (hwritten : w.plain → ∀ b ∈ bindings, ∀ t, b.written = some t → t.Plain)
    (sound : ∀ b ∈ bindings, ExprSound V b.value)
    (hplain : w.plain → ∀ b ∈ bindings, b.value.Plain)
    (visits : w.plain → VisitsGroup V env level bindings w.progress) :
    w.Yields (groupValues env level bindings) fun schemes w' => w'.Found env (schemes.map (·.2)) ∧
      (∀ σ ∈ schemes.map (·.2), w'.Placed env level σ) ∧
      schemes = (bindings.map (·.name.name)).zip (schemes.map (·.2)) ∧
      ((bindings.all fun b => b.value.isValue env) = false → ∀ σ ∈ schemes.map (·.2), σ.vars = []) ∧
      (w'.plain → ∀ θ, w'.FairSolution V θ →
        GroupTyped (env.subst θ) bindings ((schemes.map (·.2)).map fun σ => σ.ty.subst θ)) := by
  refine (yields_groupTypes level hwritten).bindRun
    fun ts w₁ run later₁ ⟨hlength, hts, annotated⟩ => ?_
  have hscope : w₁.EnvGood (groupScope env bindings ts) := by
    refine (later₁.envGood henv).extendMono fun entry hentry => hts _ ?_
    exact (List.of_mem_zip hentry).2
  refine (yields_members hscope level sound (fun plain => hplain (later₁.plain ▸ plain)) hlength
    hts fun plain => visits (later₁.plain ▸ plain) ts w₁.progress run).bind
    fun _ w₂ later₂ typed => ?_
  generalize hg : (bindings.all fun b => b.value.isValue env) = generalizable
  refine (yields_finishGroup level (fun t ht => later₂.good (hts t ht)) hg).mono ?_
  rintro schemes w₃ later₃ ⟨s, rfl, found, equates⟩
  rw [map_snd_groupUnder hlength]
  refine ⟨found, List.forall_mem_map.2 fun t ht => (equates t ht).1, rfl, ?_, fun plain θ hθ => ?_⟩
  · rintro rfl
    simp [schemeUnder, Scheme.mono]
  · have types : ((ts.map (schemeUnder env level generalizable s)).map fun σ => σ.ty.subst θ) =
        ts.map (Ty.subst θ) := by
      rw [List.map_map]
      exact List.map_congr_left fun t ht => (equates t ht).2 plain θ hθ.solves
    rw [types]
    refine ⟨annotated ((later₂.trans later₃).plain ▸ plain) θ, ?_⟩
    have members := typed (later₃.plain ▸ plain) θ (later₃.fairSolution hθ)
    rwa [groupScope, Env.extendMono_subst, mapValues_zip] at members

theorem yields_group (henv : w.EnvGood env) (level : Nat) {bindings : List GroupBinding}
    (hwritten : w.plain → ∀ b ∈ bindings, ∀ t, b.written = some t → t.Plain)
    (sound : ∀ b ∈ bindings, ExprSound V b.value)
    (hplain : w.plain → ∀ b ∈ bindings, b.value.Plain)
    (visits : w.plain → VisitsGroup V env level bindings w.progress) :
    w.Yields (group env level bindings) fun schemes w' =>
      schemes = (bindings.map (·.name.name)).zip (schemes.map (·.2)) ∧
      (∀ entry ∈ schemes, w'.BindingGood (.value entry.2) ∧ w'.Placed env level entry.2) ∧
      (w'.plain → ∀ θ, w'.FairSolution V θ →
        GroupTyped (env.subst θ) bindings ((schemes.map (·.2)).map fun σ => σ.ty.subst θ) ∧
        ∀ σ ∈ schemes.map (·.2), Generalizes (env.subst θ)
          (bindings.all fun b => b.value.isValue env) (σ.ty.subst θ) (σ.subst θ)) := by
  have run := (yields_groupValues henv level hwritten sound hplain visits).mono
    fun σ w' later h => And.intro h.1 (And.intro later.plain h.2)
  have focused := (yields_groupValues (focus_envGood henv) level hwritten sound hplain visits).mono
    fun σ w' _ h => h.1
  rw [group_eq]
  refine (Yields.noteSchemes (List.map Prod.snd) henv run focused).mono ?_
  rintro schemes w₂ later ⟨good, w₁, ⟨hplain, placed, named, restricted, typed⟩, same, solution⟩
  refine ⟨named, fun entry hentry => ⟨good _ (List.mem_map_of_mem hentry),
    (placed _ (List.mem_map_of_mem hentry)).congr same⟩, fun plain θ hθ => ⟨?_, ?_⟩⟩
  · have plain : w.plain := later.plain ▸ plain
    exact typed (hplain ▸ plain) θ ⟨solution plain θ hθ.toSolution, hθ.fair⟩
  · intro σ hσ
    exact hθ.generalizes (later.envGood henv) (good σ hσ) plain fun hg => restricted hg σ hσ

end Polytype.World
