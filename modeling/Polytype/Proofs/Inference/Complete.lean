import Polytype.Proofs.Inference.Rendering
import Polytype.Proofs.Program.Induction

namespace Polytype

open Ty Infer

namespace Stage

variable {g : Stage} {Γ env : Env} {level : Nat}

/-! ## The watch of a `let` -/

section Focus

variable (g : Stage) (Γ : Env) (level : Nat) (generalizable : Bool)

def watch : Watch := ⟨Γ.Exposes, level, g.next⟩

theorem holds_watch : (g.watch Γ level).Holds g.solution g.subst where
  levels id l hl := by
    rw [Watch.bottom_of_lt (g.below.levels hl)]
    exact Nat.zero_le _
  keeps := by
    refine ⟨fun {id t} hid ht => ?_, fun _ _ hf => by simp [g.firstOrder.records] at hf⟩
    have confined := hid.resolve_right (Nat.not_le.2 (g.below.types ht).1)
    exact Watch.confines_of_get? g.solves ht confined

def focus : Stage :=
  { g with
    watched := fun ω => g.watched ω ∨ generalizable = true ∧ ω = g.watch Γ level
    start_le := by
      rintro ω (hω | ⟨-, rfl⟩)
      · exact g.start_le ω hω
      · exact Nat.le_refl _
    holds := by
      rintro ω (hω | ⟨-, rfl⟩)
      · exact g.holds ω hω
      · exact g.holds_watch Γ level }

variable {g Γ level}

theorem above_focus (above : g.Above level) :
    (g.focus Γ level generalizable).Above (level + 1) := by
  rintro ω (hω | ⟨-, rfl⟩)
  · exact Nat.lt_succ_of_lt (above ω hω)
  · exact Nat.lt_succ_self _

theorem guards_focus (above : g.Above level) :
    (g.focus Γ level generalizable).Guards Γ level generalizable (g.watch Γ level) where
  allowed := rfl
  floor := rfl
  watched h := .inr ⟨h, rfl⟩
  others ω hω := hω.imp_left (above ω)

theorem Renders.focus {b b' : Binding} (h : g.Renders b b')
    (exposed : ∀ id, b.scheme.Free id → Γ.Exposes id) :
    (g.focus Γ level generalizable).Renders b b' where
  arity := h.arity
  good :=
    { firstOrder := h.good.firstOrder
      bound := h.good.bound
      below := h.good.below
      admits := by
        rintro ω (hω | ⟨-, rfl⟩) v hv free
        · exact h.good.admits ω hω v hv free
        · have hfree : b'.scheme.Free v.id := ⟨mentions_iff.2 ⟨v, hv, rfl⟩, free⟩
          exact .inl fun id hid => exposed id (h.free v.id hfree id hid) }
  instances := h.instances
  free := h.free

theorem Models.focus (h : g.Models Γ env) : (g.focus Γ level generalizable).Models Γ env where
  expand := h.expand
  values := by
    have listed := (List.forall₂_and_left (p := (· ∈ Γ.values)) _ _).2
      ⟨fun _ hentry => hentry, h.values⟩
    refine listed.imp fun entry entry' ⟨hentry, hname, renders⟩ => ⟨hname, ?_⟩
    exact renders.focus generalizable fun id free => ⟨entry, hentry, free⟩

def unfocus (g : Stage) (watched : Watch → Prop) (h : ∀ ω, watched ω → g.watched ω) : Stage :=
  { g with
    watched := watched
    start_le := fun ω hω => g.start_le ω (h ω hω)
    holds := fun ω hω => g.holds ω (h ω hω) }

theorem Renders.unfocus {b b' : Binding} (renders : g.Renders b b') {watched : Watch → Prop}
    (h : ∀ ω, watched ω → g.watched ω) : (g.unfocus watched h).Renders b b' where
  arity := renders.arity
  good := ⟨renders.good.firstOrder, renders.good.bound, renders.good.below,
    fun ω hω => renders.good.admits ω (h ω hω)⟩
  instances := renders.instances
  free := renders.free

variable (Γ level) in
theorem Succeeds.unfocus {m : Infer Scheme} {σ : Scheme}
    (h : (g.focus Γ level generalizable).Succeeds m fun σ' g' => g'.Renders (.value σ) (.value σ')) :
    g.Succeeds m fun σ' g' => g'.Renders (.value σ) (.value σ') := by
  obtain ⟨σ', g', hm, later, renders⟩ := h
  have kept : ∀ ω, g.watched ω → g'.watched ω := by
    intro ω hω
    rw [later.watched]
    exact .inl hω
  exact ⟨σ', g'.unfocus g.watched kept, hm, ⟨later.next, later.agree, rfl⟩, renders.unfocus kept⟩

end Focus

/-! ## The scheme of a `let` -/

theorem succeeds_schemeOf (t : Ty) (generalizable : Bool) :
    g.Succeeds (schemeOf env level t generalizable) fun σ g' =>
      σ = World.schemeUnder env level generalizable g.subst t ∧ g'.subst = g.subst := by
  refine .getSubst ?_
  cases generalizable with
  | false => exact .pure ⟨rfl, rfl⟩
  | true => exact (succeeds_log _).bind fun _ g' _ same => .pure ⟨rfl, same⟩

theorem succeeds_closeRecords (level : Nat) (t : Ty) (span : Span) :
    g.Succeeds (closeRecords level t span) fun _ _ => True := by
  have closed : g.subst.openRecord? t level = none := by
    refine Option.eq_none_iff_forall_ne_some.2 fun found hfound => ?_
    obtain ⟨fields, hfields⟩ := Subst.records_of_openRecord? hfound
    simp [g.firstOrder.records] at hfields
  have same : g.subst.closeRecords t level = ([], .ok g.subst) := by
    rw [Subst.closeRecords]
    split
    · rfl
    · simp_all
  refine .getSubst ?_
  rw [same]
  exact ⟨(), g.touch g.progress.events (.solved g.subst :: g.progress.history), rfl,
    g.later_touch _ _, trivial⟩

theorem succeeds_lower {t : Ty} (ht : g.Good t) (h : ∀ ω, g.watched ω →
    ∀ v ∈ (g.subst.apply t).vars, ω.bottom g.solution v.id ≤ level) :
    g.Succeeds (lower level t) fun _ _ => True := by
  obtain ⟨levels, -, hlower⟩ := Subst.exists_lower g.subst t level
  have records : ∀ id, (g.subst.lower t level).records.get? id = none := fun id =>
    (hlower id).2.2 (g.firstOrder.records id)
  have keeps := g.firstOrder.keeps.lower hereditary_firstOrder t level
    (g.subst.lower t level).levelsAbove_zero
  have solves : Subst.Solves g.solution (g.subst.lower t level) := by
    unfold Subst.Solves
    rw [Subst.image_lower]
    exact g.solves
  have below : (g.subst.lower t level).Below g.next :=
    g.below.evolve (fun _ => rfl) (Subst.evolves_lower g.subst t level) g.resolved
      g.firstOrder.records (by simpa using ht.below)
  have holds (ω : Watch) (hω : g.watched ω) : ω.Holds g.solution (g.subst.lower t level) := by
    have above := Subst.levelsAbove_lowest (Subst.lower_levels g.subst t level)
      (g.holds ω hω).levels g.firstOrder.records (h ω hω)
    exact ⟨above, (g.holds ω hω).keeps.lower Watch.hereditary_admits t level above⟩
  exact ⟨(), g.advance _ (.solved (g.subst.lower t level) :: g.progress.history)
    (Subst.resolved_lower g.resolved t level) ⟨fun hu => keeps.types trivial hu, records⟩ solves below
    holds, rfl, ⟨Nat.le_refl _, fun _ _ => rfl, rfl⟩, trivial⟩

section Let

variable {ω : Watch} {generalizable : Bool} {t τ : Ty} {σ : Scheme}

theorem Guards.bottom_le (guards : g.Guards Γ level generalizable ω) (hm : g.Models Γ env)
    (ht : g.Good t) (mono : (World.schemeUnder env level generalizable g.subst t).vars = [])
    {ω' : Watch} (hω : g.watched ω') {v : TypeVar} (hv : v ∈ (g.subst.apply t).vars) :
    ω'.bottom g.solution v.id ≤ level := by
  rcases guards.others ω' hω with outer | ⟨rfl, rfl⟩
  · exact Nat.le_trans (Watch.bottom_le v.id) outer
  · have free : (World.schemeUnder env level true g.subst t).binds v.id = false := by
      simp [Scheme.binds, mono]
    rw [Watch.bottom_of_confines (hm.confines_unquantified guards ht hv free)]
    exact Nat.zero_le _

theorem succeeds_quantify (name : Ident) (hm : g.Models Γ env)
    (guards : g.Guards Γ level generalizable ω) (ht : g.Good t) (heq : g.read t = τ.erase)
    (hσ : Generalizes Γ generalizable τ σ) :
    g.Succeeds (do
      let σ ← schemeOf env level t generalizable
      if !σ.isPolymorphic then
        lower level t
      log (.inferred name.name σ)
      return σ) fun σ' g' => g'.Renders (.value σ) (.value σ') := by
  refine (succeeds_schemeOf t generalizable).bind ?_
  rintro σ' g₁ later₁ ⟨rfl, same⟩
  have renders := later₁.renders (renders_schemeUnder hm guards ht heq hσ)
  rw [← same] at renders ⊢
  generalize hσ' : World.schemeUnder env level generalizable g₁.subst t = σ' at renders ⊢
  cases hpoly : σ'.isPolymorphic with
  | true => exact (succeeds_log _).bind fun _ g₂ later₂ _ => .pure (later₂.renders renders)
  | false =>
    have mono : (World.schemeUnder env level generalizable g₁.subst t).vars = [] := by
      rw [hσ']
      simpa [Scheme.isPolymorphic] using hpoly
    refine (succeeds_lower (later₁.good ht) fun ω' hω v hv => ?_).bind fun _ g₂ later₂ _ => ?_
    · exact (later₁.guards guards).bottom_le (later₁.models hm) (later₁.good ht) mono hω hv
    · exact (succeeds_log _).bind fun _ g₃ later₃ _ => .pure ((later₂.trans later₃).renders renders)

theorem succeeds_letScheme (name : Ident) {value : Expr} (hm : g.Models Γ env)
    (guards : g.Guards Γ level (value.isValue env) ω) {expected : Option Ty}
    (hexpected : ∀ u, expected = some u → g.Good u ∧ g.read u = τ.erase) (ht : g.Good t)
    (heq : g.read t = τ.erase) (hσ : Generalizes Γ (value.isValue env) τ σ) :
    g.Succeeds (letScheme env level name expected value t) fun σ' g' =>
      g'.Renders (.value σ) (.value σ') := by
  have finish {g₁ : Stage} (later : Later g g₁) {bound : Ty} (hb : g.Good bound)
      (hbound : g.read bound = τ.erase) : g₁.Succeeds (do
        let generalizable := value.isValue env
        if generalizable then
          closeRecords level bound value.span
        let σ ← schemeOf env level bound generalizable
        if !σ.isPolymorphic then
          lower level bound
        log (.inferred name.name σ)
        return σ) fun σ' g' => g'.Renders (.value σ) (.value σ') := by
    have quantify {g₂ : Stage} (later₂ : Later g g₂) := succeeds_quantify name (later₂.models hm)
      (later₂.guards guards) (later₂.good hb) ((later₂.read hb).trans hbound) hσ
    cases hg : value.isValue env with
    | false =>
      rw [hg] at quantify
      exact quantify later
    | true =>
      rw [hg] at quantify
      exact (succeeds_closeRecords level bound value.span).bind fun _ g₂ later₂ _ =>
        quantify (later.trans later₂)
  cases expected with
  | none => exact finish (.refl g) ht heq
  | some u =>
    obtain ⟨hu, hread⟩ := hexpected u rfl
    exact (succeeds_unifyAt hm.expand value.span hu ht (hread.trans heq.symm)).bind
      fun _ g₁ later _ => finish later hu hread

end Let

/-! ## Expressions -/

def ExprComplete (e : Expr) : Prop := ∀ (g : Stage) (Γ env : Env) (level : Nat) (τ : Ty),
  g.Above level → g.Models Γ env → CoreTyped Γ e τ →
    g.Succeeds (expr env level e) fun t g' => g'.Good t ∧ g'.read t = τ.erase

theorem ExprComplete.fits {α : Type} {e : Expr} (complete : ExprComplete e) (above : g.Above level)
    (hm : g.Models Γ env) {τ : Ty} (typed : CoreTyped Γ e τ) {expected : Ty}
    (good : g.Good expected) (heq : g.read expected = τ.erase) (span : Span) {k : Infer α}
    {post : α → Stage → Prop} (hk : ∀ g', Later g g' → g'.Succeeds k post) :
    g.Succeeds (do
      let t ← expr env level e
      unifyAt env span expected t
      k) post := by
  refine (complete g Γ env level τ above hm typed).bind fun t g₁ later₁ ⟨ht, hread⟩ => ?_
  have same : g₁.read expected = g₁.read t := (later₁.read good).trans (heq.trans hread.symm)
  exact (succeeds_unifyAt hm.expand span (later₁.good good) ht same).bind
    fun _ g₂ later₂ _ => hk g₂ (later₁.trans later₂)

section Lists

variable {es : List Expr} (complete : ∀ e ∈ es, ExprComplete e) (above : g.Above level)
  (hm : g.Models Γ env) {types : List Ty} (typed : CoreTypedAll Γ es types)

include complete above hm typed

theorem succeeds_exprs : g.Succeeds (exprs env level es) fun ts g' =>
    (∀ t ∈ ts, g'.Good t) ∧ ts.map g'.read = types.map erase := by
  induction es generalizing g types with
  | nil =>
    cases typed
    rw [exprs]
    exact .pure ⟨by simp, rfl⟩
  | cons e es ih =>
    obtain ⟨first, others⟩ := List.forall_mem_cons.1 complete
    cases typed with
    | cons he hes =>
      rw [exprs]
      refine (first g Γ env level _ above hm he).bind fun t g₁ later₁ ⟨good, heq⟩ => ?_
      refine (ih others (later₁.above above) (later₁.models hm) hes).bind
        fun ts g₂ later₂ ⟨goods, heqs⟩ => .pure ⟨?_, ?_⟩
      · exact List.forall_mem_cons.2 ⟨later₂.good good, goods⟩
      · rw [List.map_cons, List.map_cons, heqs, later₂.read good, heq]

theorem succeeds_arguments {params : List Ty} (good : ∀ t ∈ params, g.Good t)
    (heq : params.map g.read = types.map erase) :
    g.Succeeds (arguments env level es params) fun _ _ => True := by
  induction es generalizing g types params with
  | nil =>
    rw [arguments]
    · exact .pure trivial
    · simp
  | cons e es ih =>
    obtain ⟨first, others⟩ := List.forall_mem_cons.1 complete
    cases typed with
    | @cons _ _ _ τ types he hes =>
      cases params with
      | nil => simp at heq
      | cons param params =>
        obtain ⟨same, sames⟩ := List.cons.inj heq
        obtain ⟨hparam, hparams⟩ := List.forall_mem_cons.1 good
        rw [arguments]
        refine first.fits above hm he hparam same e.span fun g₁ later => ?_
        refine ih others (later.above above) (later.models hm) hes
          (fun u hu => later.good (hparams u hu)) ?_
        rw [List.map_congr_left fun u hu => later.read (hparams u hu), sames]

end Lists

theorem succeeds_elements {es : List Expr} (complete : ∀ e ∈ es, ExprComplete e)
    (above : g.Above level) (hm : g.Models Γ env) {τ : Ty}
    (typed : CoreTypedAll Γ es (List.replicate es.length τ)) {element : Ty} (good : g.Good element)
    (heq : g.read element = τ.erase) :
    g.Succeeds (elements env level element es) fun _ _ => True := by
  rw [elements_eq]
  refine succeeds_arguments complete above hm typed (fun t ht => ?_) (by simp [heq])
  exact List.eq_of_mem_replicate ht ▸ good

theorem resolving_params {params : List Param} (h : ∀ param ∈ params, param.written = none)
    (names : Assoc String Ty) :
    resolving names (Resolve.params env level params) = freshList level params.length := by
  induction params with
  | nil => rfl
  | cons param params ih =>
    obtain ⟨first, others⟩ := List.forall_mem_cons.1 h
    funext p
    have rest := congrFun (ih others) { p with next := p.next + 1 }
    have drawn : fresh level p = .ok (.var ⟨p.next, level⟩) { p with next := p.next + 1 } := rfl
    have found : Resolve.fresh level ⟨p.next, names⟩ =
      .ok (.var ⟨p.next, level⟩) ⟨p.next + 1, names⟩ := rfl
    rw [List.length_cons, freshList, run_bind_ok drawn]
    simp only [resolving, Resolve.params, first] at rest ⊢
    rw [run_bind_ok found]
    simp only [bind, EStateM.bind]
    rw [← rest]
    cases Resolve.params env level params ⟨p.next + 1, names⟩ <;> rfl

theorem exprComplete_literal (value : Literal) (span : Span) :
    ExprComplete (.literal value span) := by
  intro g Γ env level τ _ _ typed
  cases typed
  rw [expr]
  exact .pure ⟨g.good_literal value, by cases value <;> rfl⟩

theorem exprComplete_var (name : Ident) : ExprComplete (.var name) := by
  intro g Γ env level τ above hm typed
  cases typed with
  | var hlookup hinstance =>
    obtain ⟨b, hb, renders⟩ := hm.lookup hlookup
    obtain ⟨η, hη, heq⟩ := renders.instances τ hinstance
    rw [expr, hb]
    exact (succeeds_instantiate above renders.good hη).mono fun t g' _ ⟨good, hread⟩ =>
      ⟨good, hread.trans heq.symm⟩

theorem exprComplete_lambda {params : List Param} {body : Expr} {span : Span}
    (complete : ExprComplete body) : ExprComplete (.lambda params body span) := by
  intro g Γ env level τ above hm typed
  cases typed with
  | @lambda _ _ _ _ types result unwritten hlength hbody =>
    have above' : g.Above (level + 1) := fun ω hω => Nat.lt_succ_of_lt (above ω hω)
    rw [expr, resolving_params unwritten, hlength]
    refine (succeeds_freshList above' types).bind fun ts g₁ later₁ ⟨goods, heqs, _⟩ => ?_
    refine (complete g₁ _ _ (level + 1) result (later₁.above above')
      ((later₁.models hm).extendMono goods heqs) hbody).bind fun t g₂ later₂ ⟨good, heq⟩ =>
        .pure ⟨good_func (fun u hu => later₂.good (goods u hu)) good, ?_⟩
    rw [read, subst_func, erase_func, ← heqs, ← heq,
      List.map_congr_left fun u hu => later₂.read (goods u hu)]

theorem length_eq_of_coreTypedAll {es : List Expr} {types : List Ty} (h : CoreTypedAll Γ es types) :
    es.length = types.length := by
  induction es generalizing types with
  | nil =>
    cases h
    rfl
  | cons e es ih =>
    cases h with
    | cons _ hes => simp [ih hes]

theorem exprComplete_apply {function : Expr} {args : List Expr} {span : Span}
    (complete : ExprComplete function) (completeArgs : ∀ e ∈ args, ExprComplete e) :
    ExprComplete (.apply function args span) := by
  intro g Γ env level τ above hm typed
  cases typed with
  | @apply _ _ _ _ types _ hfunction hargs =>
    have hlength := length_eq_of_coreTypedAll hargs
    rw [expr]
    refine (complete g Γ env level _ above hm hfunction).bind ?_
    rintro t g₁ later₁ ⟨good, heq⟩
    refine .resolved ?_
    rw [World.callee_eq hm.expand]
    have called := good_apply good
    have hread := (g₁.read_apply t).trans heq
    have above₁ := later₁.above above
    have hm₁ := later₁.models hm
    -- Under the solution the callee is a function, so it is one already or a variable.
    generalize g₁.subst.apply t = callee at called hread ⊢
    rw [erase_func] at hread
    cases callee with
    | func params result =>
      rw [read, subst_func] at hread
      obtain ⟨hparams, hresult⟩ := Ty.func.inj hread
      have harity : params.length = args.length := by
        rw [hlength]
        simpa using congrArg List.length hparams
      have saturated : ¬(params.length < args.length ∨ (args.isEmpty ∧ ¬params.isEmpty)) := by
        rw [List.isEmpty_iff_length_eq_zero, List.isEmpty_iff_length_eq_zero, harity]
        simp
      dsimp only
      rw [if_neg saturated]
      refine (succeeds_arguments completeArgs above₁ hm₁ hargs called.params hparams).bind
        fun _ g₂ later₂ _ => .pure ?_
      rw [← harity, List.drop_length]
      exact ⟨later₂.good called.result, (later₂.read called.result).trans hresult⟩
    | var v =>
      refine (succeeds_exprs completeArgs above₁ hm₁ hargs).bind ?_
      rintro ts g₂ later₂ ⟨goods, heqs⟩
      refine (succeeds_fresh (later₂.above above₁) τ).bind ?_
      rintro result g₃ later₃ ⟨hresult, same, -⟩
      have later := later₂.trans later₃
      have hfunc : g₃.Good (.func ts result) :=
        good_func (fun u hu => later₃.good (goods u hu)) hresult
      have params : ts.map g₃.read = types.map erase := by
        rw [List.map_congr_left fun u hu => later₃.read (goods u hu), heqs]
      have fits : g₃.read (.var v) = g₃.read (.func ts result) := by
        rw [later.read called, hread, ← params, ← same]
        exact (subst_func _ _ _).symm
      refine (succeeds_unifyAt hm.expand _ (later.good called) hfunc fits).bind
        fun _ g₄ later₄ _ => .pure ⟨later₄.good hresult, (later₄.read hresult).trans same⟩
    | _ => simp at hread

/-! ## Bindings -/

theorem succeeds_letScope (above : g.Above (level + 1)) (hm : g.Models Γ env) (name : Ident)
    (recursive : Bool) (τ : Ty) :
    g.Succeeds (letScope env level name none recursive) fun result g' =>
      (∀ u, result.1 = some u → g'.Good u ∧ g'.read u = τ.erase) ∧
        g'.Models (if recursive then Γ.extendValue name.name (.mono τ) else Γ) result.2 := by
  cases recursive with
  | false => exact .pure ⟨by simp, hm⟩
  | true =>
    have self : letScope env level name none true = (do
      let t ← fresh (level + 1)
      return (some t, env.extendValue name.name (.mono t))) := rfl
    rw [self]
    refine (succeeds_fresh above τ).bind fun t g₁ later ⟨good, heq, _⟩ => .pure ⟨?_, ?_⟩
    · rintro _ ⟨⟩
      exact ⟨good, heq⟩
    · exact (later.models hm).extendValue name.name (renders_mono good heq)

theorem succeeds_letValue {value : Expr} (complete : ExprComplete value) (above : g.Above level)
    (hm : g.Models Γ env) (name : Ident) (recursive : Bool) {τ : Ty} {σ : Scheme}
    (typed : CoreTyped (if recursive then Γ.extendValue name.name (.mono τ) else Γ) value τ)
    (hσ : Generalizes Γ (value.isValue Γ) τ σ) :
    g.Succeeds (World.letValue env level name none value recursive) fun σ' g' =>
      g'.Renders (.value σ) (.value σ') := by
  rw [hm.isValue] at hσ
  have above' : (g.focus Γ level (value.isValue env)).Above (level + 1) := above_focus _ above
  have hm' : (g.focus Γ level (value.isValue env)).Models Γ env := hm.focus _
  have guards := guards_focus (Γ := Γ) (value.isValue env) above
  refine Succeeds.unfocus Γ level (value.isValue env) ?_
  refine (succeeds_letScope above' hm' name recursive τ).bind ?_
  rintro ⟨expected, scope⟩ g₁ later₁ ⟨hexpected, hscope⟩
  refine (complete g₁ _ scope (level + 1) τ (later₁.above above') hscope typed).bind
    fun t g₂ later₂ ⟨good, heq⟩ => ?_
  have later := later₁.trans later₂
  refine succeeds_letScheme name (later.models hm') (later.guards guards) (fun u hu => ?_) good heq hσ
  obtain ⟨hu, hread⟩ := hexpected u hu
  exact ⟨later₂.good hu, (later₂.read hu).trans hread⟩

theorem exprComplete_letIn {name : Ident} {written : Option TypeExpr} {value : Expr}
    {recursive : Bool} {body : Expr} {span : Span} (completeValue : ExprComplete value)
    (completeBody : ExprComplete body) :
    ExprComplete (.letIn name written value recursive body span) := by
  intro g Γ env level ρ above hm typed
  have parts : ∃ τ σ, written = none ∧
      CoreTyped (if recursive then Γ.extendValue name.name (.mono τ) else Γ) value τ ∧
      Generalizes Γ (value.isValue Γ) τ σ ∧ CoreTyped (Γ.extendValue name.name σ) body ρ := by
    cases typed with
    | letIn hvalue generalizes hbody => exact ⟨_, _, rfl, hvalue, generalizes, hbody⟩
    | letRec hvalue generalizes hbody => exact ⟨_, _, rfl, hvalue, generalizes, hbody⟩
  obtain ⟨τ, σ, rfl, hvalue, generalizes, hbody⟩ := parts
  rw [World.expr_letIn, World.letBinding_eq, bind_assoc]
  refine succeeds_drawnSoFar.bind fun drawn g₁ later₁ _ => ?_
  rw [bind_assoc]
  refine (succeeds_letValue completeValue (later₁.above above) (later₁.models hm) name recursive
    hvalue generalizes).bind fun σ' g₂ later₂ renders => ?_
  rw [bind_assoc]
  refine (succeeds_noteSchemes env drawn [σ']).bind fun _ g₃ later₃ _ => ?_
  rw [pure_bind]
  have later := (later₁.trans later₂).trans later₃
  exact completeBody g₃ _ _ level ρ (later.above above)
    ((later.models hm).extendValue name.name (later₃.renders renders)) hbody

/-! ## The other expressions -/

theorem exprComplete_cond {condition thenBranch elseBranch : Expr} {span : Span}
    (completeCondition : ExprComplete condition) (completeThen : ExprComplete thenBranch)
    (completeElse : ExprComplete elseBranch) :
    ExprComplete (.cond condition thenBranch elseBranch span) := by
  intro g Γ env level τ above hm typed
  cases typed with
  | cond hcondition hthen helse =>
    rw [expr]
    refine completeCondition.fits above hm hcondition (g.good_const _) rfl _ fun g₁ later₁ => ?_
    refine (completeThen g₁ Γ env level τ (later₁.above above) (later₁.models hm) hthen).bind
      fun t g₂ later₂ ⟨good, heq⟩ => ?_
    have later := later₁.trans later₂
    exact completeElse.fits (later.above above) (later.models hm) helse good heq _
      fun g₃ later₃ => .pure ⟨later₃.good good, (later₃.read good).trans heq⟩

theorem exprComplete_tuple {parts : List Expr} {span : Span}
    (complete : ∀ e ∈ parts, ExprComplete e) : ExprComplete (.tuple parts span) := by
  intro g Γ env level τ above hm typed
  cases typed with
  | tuple hparts =>
    rw [expr]
    refine (succeeds_exprs complete above hm hparts).bind fun ts g₁ _ ⟨goods, heqs⟩ =>
      .pure ⟨good_tuple goods, ?_⟩
    rw [read, subst_tuple, heqs, erase_tuple]

theorem exprComplete_list {parts : List Expr} {span : Span}
    (complete : ∀ e ∈ parts, ExprComplete e) : ExprComplete (.list parts span) := by
  intro g Γ env level τ above hm typed
  cases typed with
  | @list _ _ _ τ hparts =>
    rw [expr]
    refine (succeeds_fresh above τ).bind fun element g₁ later₁ ⟨good, heq, _⟩ => ?_
    refine (succeeds_elements complete (later₁.above above) (later₁.models hm) hparts good heq).bind
      fun _ g₂ later₂ _ => .pure ⟨good_app (later₂.good good), ?_⟩
    exact congrArg Ty.list ((later₂.read good).trans heq)

theorem exprComplete_makeRef {value : Expr} {span : Span} (complete : ExprComplete value) :
    ExprComplete (.makeRef value span) := by
  intro g Γ env level τ above hm typed
  cases typed with
  | makeRef hvalue =>
    rw [expr]
    exact (complete g Γ env level _ above hm hvalue).bind fun t g₁ _ ⟨good, heq⟩ =>
      .pure ⟨good_app good, congrArg Ty.ref heq⟩

theorem succeeds_content {α : Type} (above : g.Above level) (hm : g.Models Γ env) {t τ : Ty}
    (good : g.Good t) (heq : g.read t = (Ty.ref τ).erase) (span : Span) {f : Ty → Infer α}
    {post : α → Stage → Prop} (hf : ∀ content g', Later g g' → g'.Good content →
      g'.read content = τ.erase → g'.Succeeds (f content) post) :
    g.Succeeds (do
      let content ← fresh level
      unifyAt env span (.ref content) t
      f content) post := by
  refine (succeeds_fresh above τ).bind fun content g₁ later₁ ⟨hcontent, same, _⟩ => ?_
  have cell : g₁.read (.ref content) = g₁.read t :=
    (congrArg Ty.ref same).trans ((later₁.read good).trans heq).symm
  exact (succeeds_unifyAt hm.expand span (good_app hcontent) (later₁.good good) cell).bind
    fun _ g₂ later₂ _ => hf content g₂ (later₁.trans later₂) (later₂.good hcontent)
      ((later₂.read hcontent).trans same)

theorem exprComplete_deref {reference : Expr} {span : Span} (complete : ExprComplete reference) :
    ExprComplete (.deref reference span) := by
  intro g Γ env level τ above hm typed
  cases typed with
  | deref hreference =>
    rw [expr]
    refine (complete g Γ env level _ above hm hreference).bind fun t g₁ later₁ ⟨good, heq⟩ => ?_
    exact succeeds_content (later₁.above above) (later₁.models hm) good heq span
      fun content g₂ _ hcontent same => .pure ⟨hcontent, same⟩

theorem exprComplete_assign {target value : Expr} {span : Span}
    (completeTarget : ExprComplete target) (completeValue : ExprComplete value) :
    ExprComplete (.assign target value span) := by
  intro g Γ env level τ above hm typed
  cases typed with
  | assign htarget hvalue =>
    rw [expr]
    refine (completeTarget g Γ env level _ above hm htarget).bind fun t g₁ later₁ ⟨good, heq⟩ => ?_
    refine succeeds_content (later₁.above above) (later₁.models hm) good heq _
      fun content g₂ later₂ hcontent same => ?_
    have later := later₁.trans later₂
    exact completeValue.fits (later.above above) (later.models hm) hvalue hcontent same _
      fun g₃ _ => .pure ⟨g₃.good_const _, rfl⟩

theorem exprComplete (e : Expr) : ExprComplete e := by
  induction e using Expr.induct with
  | literal value span => exact exprComplete_literal value span
  | var name => exact exprComplete_var name
  | lambda params body span complete => exact exprComplete_lambda complete
  | apply function args span complete completeArgs => exact exprComplete_apply complete completeArgs
  | letIn name written value recursive body span completeValue completeBody =>
    exact exprComplete_letIn completeValue completeBody
  | cond condition thenBranch elseBranch span completeCondition completeThen completeElse =>
    exact exprComplete_cond completeCondition completeThen completeElse
  | tuple parts span complete => exact exprComplete_tuple complete
  | list parts span complete => exact exprComplete_list complete
  | makeRef value span complete => exact exprComplete_makeRef complete
  | deref reference span complete => exact exprComplete_deref complete
  | assign target value span completeTarget completeValue =>
    exact exprComplete_assign completeTarget completeValue
  | _ => exact fun _ _ _ _ _ _ _ typed => nomatch typed

end Stage

end Polytype
