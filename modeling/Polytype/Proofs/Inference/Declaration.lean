import Polytype.Inference.Declaration
import Polytype.Proofs.Env.Parameters
import Polytype.Proofs.Inference.Expr
import Polytype.Proofs.Module.Scope

namespace Polytype

open Ty

theorem Definition.mem_constructors {d : Definition} {c : Constructor} (h : c ∈ d.constructors) :
    c.params = d.params ∧ c.result = d.selfType ∧ ∀ t ∈ c.args, t ∈ d.body.types := by
  unfold constructors at h
  split at h
  · rename_i alternatives hbody
    obtain ⟨a, ha, rfl⟩ := List.mem_map.1 h
    exact ⟨rfl, rfl, fun t ht => hbody ▸ List.mem_flatMap.2 ⟨a, ha, ht⟩⟩
  · simp at h

theorem Definition.mem_vars_selfType {d : Definition} {v : TypeVar} (h : v ∈ d.selfType.vars) :
    v ∈ d.params := by
  obtain ⟨u, hu, hv⟩ := Resolve.mem_vars_named h
  obtain ⟨p, hp, rfl⟩ := List.mem_map.1 hu
  obtain rfl : v = p := by simpa [vars] using hv
  exact hp

theorem Definition.recordless_selfType (d : Definition) : Recordless d.selfType := by
  unfold selfType named
  split
  · exact .const trivial
  · refine .app trivial (.const trivial) fun u hu => ?_
    obtain ⟨p, -, rfl⟩ := List.mem_map.1 hu
    exact .var trivial

/-! ## Definitions in scope -/

namespace World

/-- A parameter of a definition: it occurs nowhere else, and is born at the level `0`. -/
structure Param (w : World) (v : TypeVar) : Prop where
  retired : w.retired v.id
  omitted : w.subst.Omits v.id
  unseen : ∀ m ∈ w.recent, m.Omits v.id
  level : v.level = 0
  born : w.birth v.id = 0

/-- The definition mentions its own parameters only. If it stands for another type, these were drawn
since the start. In a plain world it stands for no other type and has no record. -/
structure Defined (w : World) (d : Definition) : Prop where
  params : ∀ p ∈ d.params, w.Param p
  distinct : (d.params.map (·.id)).Nodup
  closed : ∀ t ∈ d.body.types, ∀ v ∈ t.vars, v ∈ d.params
  since : ∀ target, d.body.target? = some target → ∀ p ∈ d.params, w.start ≤ p.id
  plain : w.plain → d.body.target? = none ∧ ∀ t ∈ d.body.types, Recordless t

structure Params (w : World) (params : List (String × TypeVar)) : Prop where
  param : ∀ entry ∈ params, w.Param entry.2
  distinct : (params.map (·.2.id)).Nodup
  since : ∀ entry ∈ params, w.start ≤ entry.2.id

structure ScopeGood (w : World) (env : Env) : Prop extends w.EnvGood env where
  definitions : ∀ entry ∈ env.types, w.Defined entry.2

open Infer Resolve

section Later

variable {w w' : World} (h : Later w w')

include h in
theorem Later.param {v : TypeVar} (hv : w.Param v) : w'.Param v := by
  have hid := w.retired_lt _ hv.retired
  have hlive := w.apart _ hv.retired
  refine ⟨h.retired _ hv.retired, h.omits _ hid hlive hv.omitted, ?_, hv.level, ?_⟩
  · obtain ⟨new, heq, hnew⟩ := h.recent
    rw [heq]
    exact List.forall_mem_append.2
      ⟨fun m hm => (hnew m hm).2 _ hid hlive hv.omitted, hv.unseen⟩
  · rw [h.birth _ hid]
    exact hv.born

include h in
theorem Later.params {params : List (String × TypeVar)} (hp : w.Params params) :
    w'.Params params :=
  ⟨fun entry hentry => h.param (hp.param entry hentry), hp.distinct,
    fun entry hentry => h.start ▸ hp.since entry hentry⟩

include h in
theorem Later.scopeGood {env : Env} (henv : w.ScopeGood env) : w'.ScopeGood env where
  toEnvGood := h.envGood henv.toEnvGood
  definitions entry hentry := by
    have hd := henv.definitions entry hentry
    exact ⟨fun p hp => h.param (hd.params p hp), hd.distinct, hd.closed,
      fun target htarget p hp => h.start ▸ hd.since target htarget p hp,
      fun plain => hd.plain (h.plain ▸ plain)⟩

end Later

variable {w : World} {env : Env}

theorem Defined.constructorGood {d : Definition} (h : w.Defined d) {c : Constructor}
    (hc : c ∈ d.constructors) : w.ConstructorGood c := by
  obtain ⟨hparams, hresult, hargs⟩ := Definition.mem_constructors hc
  refine ⟨fun t ht v hv => ?_, fun p hp => ?_, fun plain t ht => ?_⟩
  · rw [hparams]
    rcases List.mem_cons.1 ht with rfl | ht
    · exact ⟨v, Definition.mem_vars_selfType (hresult ▸ hv), rfl⟩
    · exact ⟨v, h.closed t (hargs t ht) v hv, rfl⟩
  · exact w.retired_lt _ (h.params p (hparams ▸ hp)).retired
  · rcases List.mem_cons.1 ht with rfl | ht
    · rw [hresult]
      exact d.recordless_selfType
    · exact (h.plain plain).2 t (hargs t ht)

theorem EnvGood.define (henv : w.EnvGood env) {d : Definition} (h : w.Defined d) :
    w.EnvGood (env.define d) where
  values entry hentry := by
    rcases Assoc.mem_of_mem_insertAll hentry with hentry | hentry
    · obtain ⟨c, hc, rfl⟩ := List.mem_map.1 hentry
      exact h.constructorGood hc
    · exact henv.values entry hentry
  types entry hentry target htarget := by
    rcases Assoc.mem_of_mem_insert hentry with rfl | hentry
    · have closed := h.closed target (Body.mem_types_of_target? htarget)
      refine ⟨fun v hv => ⟨v, closed v hv, rfl⟩, fun p hp => ?_, fun p hp => ?_,
        allVars_iff.2 fun v hv => ?_, fun plain => ?_⟩
      · exact w.retired_lt _ (h.params p hp).retired
      · exact w.apart _ (h.params p hp).retired
      · have param := h.params v (closed v hv)
        rw [param.level, param.born]
      · simp [(h.plain plain).1] at htarget
    · exact henv.types entry hentry target htarget
  params plain entry hentry := by
    rcases Assoc.mem_of_mem_insert hentry with rfl | hentry
    · exact fun q hq => (h.params q hq).retired
    · exact henv.params plain entry hentry

theorem ScopeGood.define (henv : w.ScopeGood env) {d : Definition} (h : w.Defined d) :
    w.ScopeGood (env.define d) where
  toEnvGood := henv.toEnvGood.define h
  definitions entry hentry := by
    rcases Assoc.mem_of_mem_insert hentry with rfl | hentry
    · exact h
    · exact henv.definitions entry hentry

theorem ScopeGood.extend (henv : w.ScopeGood env) {name : String} {b : Binding}
    (hb : w.BindingGood b) : w.ScopeGood (env.extend name b) :=
  ⟨henv.toEnvGood.extend hb, henv.definitions⟩

theorem ScopeGood.without (henv : w.ScopeGood env) (names : List String) :
    w.ScopeGood (env.without names) where
  values entry hentry := henv.values entry (List.mem_of_mem_filter hentry)
  types := henv.types
  params := henv.params
  definitions := henv.definitions

/-! ## Declared types -/

theorem yields_freshParam : w.Yields (freshVar 0) fun v w' => w'.Param v ∧ v.id = w.next :=
  ⟨w.draw 1 0 False, rfl, later_draw _ _ _ _,
    { retired := .inr ⟨not_false, Nat.le_refl _, Nat.lt_succ_self _⟩
      omitted := w.fresh _ (Nat.le_refl _)
      unseen := fun m hm => w.unseen m hm _ (Nat.le_refl _)
      level := rfl
      born := if_pos (Nat.le_refl _) }, rfl⟩

theorem yields_typeParams (decl : TypeDecl) (names : List String) {drawn : List (String × TypeVar)}
    (hdrawn : w.Params drawn) :
    w.Yields (typeParams decl names drawn) fun params w' => w'.Params params := by
  induction names generalizing w drawn with
  | nil => exact .pure hdrawn
  | cons name names ih =>
    unfold typeParams
    split
    · exact .fail
    · refine yields_freshParam.bind fun v w' later ⟨hv, hid⟩ => ih ?_
      have old := later.params hdrawn
      refine ⟨List.forall_mem_append.2 ⟨old.param, by simpa using hv⟩, ?_,
        List.forall_mem_append.2 ⟨old.since, by simpa [later.start, hid] using w.start_le⟩⟩
      rw [List.map_append, List.nodup_append]
      refine ⟨old.distinct, by simp, fun id hdrawn' other hother => ?_⟩
      obtain ⟨param, hparam, rfl⟩ := List.mem_map.1 hdrawn'
      obtain rfl : other = v.id := by simpa using hother
      rw [hid]
      exact Nat.ne_of_lt (w.retired_lt _ (hdrawn.param param hparam).retired)

theorem Params.defined {params : List (String × TypeVar)} (h : w.Params params) (name : String)
    {body : Body} (closed : ∀ t ∈ body.types, ∀ v ∈ t.vars, v ∈ params.map (·.2))
    (plain : w.plain → body.target? = none ∧ ∀ t ∈ body.types, Recordless t) :
    w.Defined ⟨name, params.map (·.2), body⟩ where
  params := List.forall_mem_map.2 h.param
  distinct := by
    rw [List.map_map]
    exact h.distinct
  closed := closed
  since _ _ := List.forall_mem_map.2 h.since
  plain := plain

theorem yields_declareTypes (henv : w.ScopeGood env) (decls : List TypeDecl) :
    w.Yields (declareTypes env decls) fun result w' => w'.ScopeGood result.1 ∧
      ∀ entry ∈ result.2, entry.1 ∈ decls ∧ w'.Params entry.2 := by
  induction decls generalizing w env with
  | nil => exact .pure ⟨henv, by simp⟩
  | cons decl decls ih =>
    have none : w.Params [] := ⟨by simp, by simp, by simp⟩
    refine (yields_typeParams decl decl.params none).bind fun params w₁ later₁ hparams => ?_
    have named : w₁.ScopeGood (env.define ⟨decl.name.name, params.map (·.2), .abstract⟩) :=
      (later₁.scopeGood henv).define
        (hparams.defined decl.name.name (by simp [Body.types]) (by simp [Body.types, Body.target?]))
    refine (ih named).bind ?_
    rintro ⟨scope, entries⟩ w₂ later₂ ⟨hscope, hentries⟩
    refine .pure ⟨hscope, List.forall_mem_cons.2
      ⟨⟨List.mem_cons_self, later₂.params hparams⟩, fun entry hentry => ?_⟩⟩
    exact ⟨List.mem_cons_of_mem _ (hentries entry hentry).1, (hentries entry hentry).2⟩

theorem finds_alternatives {scope : NameScope} (written : List (Ident × List TypeExpr)) :
    Finds none scope (alternativesOf env written) fun found scope' =>
      ∀ t ∈ (Body.variant found).types, Comes none scope scope' t ∧
        ((∀ c ∈ written, ∀ x ∈ c.2, x.Plain) → Bare scope → Recordless t) := by
  induction written generalizing scope with
  | nil => exact .pure (by simp [Body.types])
  | cons c rest ih =>
    refine (finds_types fun x _ => finds_type x).bind fun args scope₁ grows all => ?_
    refine ih.bind fun found scope₂ grows' hrest => .pure fun t ht => ?_
    simp only [Body.types, List.flatMap_cons, List.mem_append] at ht
    rcases ht with ht | ht
    · refine ⟨(all.comes t ht).later grows'.next, fun plain bare => ?_⟩
      exact all.recordless (plain c List.mem_cons_self) bare t ht
    · obtain ⟨comes, recordless⟩ := hrest t ht
      refine ⟨comes.earlier grows grows'.next, fun plain bare => ?_⟩
      exact recordless (fun c hc => plain c (List.mem_cons_of_mem _ hc)) (grows.bare bare)

theorem finds_body {scope : NameScope} (decl : TypeDecl) :
    Finds none scope (bodyOf env decl.body) fun body scope' =>
      (∀ t ∈ body.types, Comes none scope scope' t) ∧ (decl.Plain → Bare scope →
        body.target? = none ∧ ∀ t ∈ body.types, Recordless t) := by
  cases hbody : decl.body with
  | synonym target =>
    refine (finds_type target scope).bind fun t scope' _ found => .pure ⟨?_, ?_⟩
    · simpa [Body.types] using found.comes
    · rintro ⟨constructors, hvariant, -⟩
      simp [hbody] at hvariant
  | record written =>
    refine (finds_fields fun x _ => finds_type x.2).bind fun fields scope' _ found => .pure ⟨?_, ?_⟩
    · simpa [Body.types] using comes_record found
    · rintro ⟨constructors, hvariant, -⟩
      simp [hbody] at hvariant
  | variant written =>
    refine (finds_alternatives written).bind fun found scope' _ all => .pure ⟨fun t ht => ?_, ?_⟩
    · exact (all t ht).1
    · rintro ⟨constructors, hvariant, plain⟩ bare
      obtain rfl := TypeDeclBody.variant.inj (hbody.symm.trans hvariant)
      exact ⟨rfl, fun t ht => (all t ht).2 plain bare⟩

theorem yields_defineBodies (scope : Env) {decls : List (TypeDecl × List (String × TypeVar))}
    (hparams : ∀ entry ∈ decls, w.Params entry.2)
    (hplain : w.plain → ∀ entry ∈ decls, entry.1.Plain) (henv : w.ScopeGood env) :
    w.Yields (defineBodies scope decls env) fun env' w' => w'.ScopeGood env' := by
  induction decls generalizing w env with
  | nil => exact .pure henv
  | cons entry decls ih =>
    obtain ⟨decl, params⟩ := entry
    obtain ⟨first, rest⟩ := List.forall_mem_cons.1 hparams
    -- A name in scope is that of a parameter, and no other variable is drawn.
    have named {name : String} {t : Ty}
        (h : Assoc.get? (Assoc.ofList (params.map fun param => (param.1, Ty.var param.2))) name =
          some t) : ∃ param ∈ params, t = .var param.2 := by
      rcases Assoc.mem_of_mem_insertAll (Assoc.mem_of_get? h) with hmem | hmem
      · obtain ⟨param, hparam, heq⟩ := List.mem_map.1 hmem
        exact ⟨param, hparam, (Prod.mk.inj heq).2.symm⟩
      · simp at hmem
    refine (yields_drawing 0 False (finds_body decl)).bind ?_
    rintro body _ later ⟨names, ⟨comes, plainBody⟩, -, rfl⟩
    refine ih (fun entry hentry => later.params (rest entry hentry))
      (fun plain entry hentry => hplain plain entry (List.mem_cons_of_mem _ hentry))
      ((later.scopeGood henv).define
        ((later.params first).defined decl.name.name (fun t ht v hv => ?_) fun plain => ?_))
    · rcases comes t ht v hv with ⟨name, u, hu, hv⟩ | ⟨-, -, hlevel⟩
      · obtain ⟨param, hparam, rfl⟩ := named hu
        obtain rfl : v = param.2 := by simpa [vars] using hv
        exact List.mem_map_of_mem hparam
      · simp at hlevel
    · refine plainBody (hplain plain _ List.mem_cons_self) fun name t ht => ?_
      obtain ⟨param, -, rfl⟩ := named ht
      exact .var trivial

theorem yields_defineTypes (henv : w.ScopeGood env) {decls : List TypeDecl}
    (hplain : w.plain → ∀ decl ∈ decls, decl.Plain) :
    w.Yields (defineTypes env decls) fun env' w' => w'.ScopeGood env' := by
  refine (yields_declareTypes henv decls).bind ?_
  rintro ⟨scope, entries⟩ w' later ⟨hscope, hentries⟩
  exact yields_defineBodies scope (fun entry hentry => (hentries entry hentry).2)
    (fun plain entry hentry => hplain (later.plain ▸ plain) _ (hentries entry hentry).1) hscope

/-! ## Signatures -/

theorem apply_empty (t : Ty) : Subst.empty.apply t = t := mapVars_var t

/-- A scheme that quantifies all its variables, which are retired and above the level `0`. -/
structure Rigid (w : World) (σ : Scheme) : Prop where
  closed : ∀ v ∈ σ.ty.vars, σ.binds v.id = true
  retired : ∀ q ∈ σ.vars, w.retired q.id
  above : ∀ q ∈ σ.vars, 0 < w.levelOf q.id
  recordless : w.plain → Recordless σ.ty

theorem Later.rigid {w' : World} (h : Later w w') {σ : Scheme} (hσ : w.Rigid σ) : w'.Rigid σ where
  closed := hσ.closed
  retired q hq := h.retired _ (hσ.retired q hq)
  above q hq := by
    have hid := w.retired_lt _ (hσ.retired q hq)
    have hlevel : w'.levelOf q.id = w.levelOf q.id := by
      simp only [levelOf, Marks.level, h.birth _ hid,
        h.unlowered _ hid (w.apart _ (hσ.retired q hq))]
    exact hlevel ▸ hσ.above q hq
  recordless plain := hσ.recordless (h.plain ▸ plain)

theorem Rigid.bindingGood {σ : Scheme} (h : w.Rigid σ) : w.BindingGood (.value σ) :=
  ⟨⟨fun v hv hfree => by simp [h.closed v hv] at hfree, fun q hq => w.retired_lt _ (h.retired q hq),
    h.recordless⟩, fun _ => h.retired⟩

theorem Rigid.placed {σ : Scheme} (h : w.Rigid σ) : w.Placed env 0 σ :=
  ⟨fun q hq => w.unbound _ (h.retired q hq), fun q hq _ => h.above q hq,
    fun v hv hfree => by simp [h.closed v hv] at hfree⟩

theorem yields_signature (henv : w.EnvGood env) {written : TypeExpr}
    (hplain : w.plain → written.Plain) :
    w.Yields (signature env written) fun σ w' => w'.Rigid σ := by
  refine (yields_drawing 1 False (finds_type written _)).bind ?_
  rintro t _ later ⟨scope, found, hnext, rfl⟩
  have drawn {v : TypeVar} (hv : v ∈ t.vars) : Drawn (some 1) ⟨w.next, []⟩ scope v := by
    rcases found.comes v hv with ⟨name, u, hu, -⟩ | hdrawn
    · simp at hu
    · exact hdrawn
  refine (yields_log _).bind fun _ w' later' _ => .pure (later'.rigid ?_)
  show (w.draw _ 1 False).Rigid (schemeUnder env 0 true .empty t)
  have hty : (schemeUnder env 0 true .empty t).ty = t := apply_empty t
  have quantified {v : TypeVar} (hv : v ∈ (schemeUnder env 0 true .empty t).vars) : v ∈ t.vars :=
    apply_empty t ▸ (mem_schemeUnder hv).2.1
  refine ⟨fun v hv => ?_, fun q hq => ?_, fun q hq => ?_, fun plain => ?_⟩
  · rw [hty] at hv
    refine binds_schemeUnder (mentions_iff.2 ⟨v, (apply_empty t).symm ▸ hv, rfl⟩) ?_ ?_
    · intro u hu _
      have hlevel := (drawn (apply_empty t ▸ hu)).2.2
      simp only [Option.some.injEq] at hlevel
      omega
    · rintro ⟨u, hu, hid⟩
      have resolved : Subst.empty.Resolved := by simp [Subst.Resolved, Subst.empty]
      obtain ⟨x, hx, hmem⟩ := Env.exists_free_of_mem_freeVars resolved hu
      obtain rfl : x = u.id := mentions_var.1 hmem
      exact absurd (w.live_lt _ (henv.live hx)) (Nat.not_lt.2 (hid ▸ (drawn hv).1))
  · obtain ⟨hle, hlt, -⟩ := drawn (quantified hq)
    refine .inr ⟨not_false, hle, ?_⟩
    rwa [Nat.add_sub_cancel' hnext]
  · have hle := (drawn (quantified hq)).1
    have hlevel : (w.draw (scope.next - w.next) 1 False).levelOf q.id = 1 := levelOf_draw hle
    rw [hlevel]
    exact Nat.one_pos
  · rw [hty]
    exact found.recordless (hplain plain) (bare_nil _)

/-! ## Values -/

theorem yields_importItems (moduleName : String) {items : List ImportItem}
    (hplain : w.plain → ∀ item ∈ items, item.Plain) (henv : w.ScopeGood env)
    {values : List (String × Scheme)} (hvalues : ∀ value ∈ values, w.Rigid value.2) :
    w.Yields (importItems moduleName items env values) fun result w' => w'.ScopeGood result.1 ∧
      ∀ value ∈ result.2, w'.Rigid value.2 := by
  induction items generalizing w env values with
  | nil => exact .pure ⟨henv, hvalues⟩
  | cons item items ih =>
    have rest {w' : World} (later : Later w w') (plain : w'.plain) : ∀ item ∈ items, item.Plain :=
      fun item hitem => hplain (later.plain ▸ plain) item (List.mem_cons_of_mem _ hitem)
    cases item with
    | type decl =>
      have hdecl : w.plain → ∀ d ∈ [decl], d.Plain := by
        intro plain d hd
        obtain rfl := List.mem_singleton.1 hd
        exact hplain plain _ List.mem_cons_self
      refine (yields_defineTypes henv hdecl).bind fun env' w' later henv' => ?_
      exact ih (rest later) henv' fun value hvalue => later.rigid (hvalues value hvalue)
    | value name localName written =>
      refine (yields_signature henv.toEnvGood fun plain => hplain plain _ List.mem_cons_self).bind
        fun σ w₁ later₁ hσ => ?_
      refine (yields_log _).bind fun _ w₂ later₂ _ => ?_
      have later := later₁.trans later₂
      refine ih (rest later) (later.scopeGood henv) fun value hvalue => ?_
      rcases List.mem_append.1 hvalue with hvalue | hvalue
      · exact later.rigid (hvalues value hvalue)
      · obtain rfl := List.mem_singleton.1 hvalue
        exact later₂.rigid hσ

/-- What a declaration has added to a scope, which it checks at the level `0`: its bindings leave
nothing above that level free, and the schemes that it declares quantify nothing else. -/
structure Adds (w : World) (scope scope' : Polytype.Scope) : Prop where
  values : ∀ entry ∈ scope'.env.values,
    entry ∈ scope.env.values ∨ w.Below scope.env 0 entry.2.scheme
  declared : ∀ d ∈ scope'.declared,
    d ∈ scope.declared ∨ w.SchemeGood d.scheme ∧ w.Placed scope.env 0 d.scheme

theorem Adds.refl (w : World) (scope : Polytype.Scope) : w.Adds scope scope :=
  ⟨fun _ => .inl, fun _ => .inl⟩

theorem Adds.congr {w' : World} {scope scope' : Polytype.Scope} (h : w.Adds scope scope')
    (later : Later w w') (same : w'.SameLevels w) : w'.Adds scope scope' where
  values entry hentry := (h.values entry hentry).imp_right fun below => below.congr same
  declared d hd := (h.declared d hd).imp_right fun ⟨good, placed⟩ =>
    ⟨later.schemeGood good, placed.congr same⟩

theorem Adds.bind {scope scope' : Polytype.Scope} (h : w.Adds scope scope') {name : String}
    {b : Binding} (good : w.BindingGood b) (placed : w.Placed scope.env 0 b.scheme) (span : Span) :
    w.Adds scope (scope'.bind name b span) where
  values entry hentry := by
    rcases Assoc.mem_of_mem_insert hentry with rfl | hentry
    · exact .inr placed.below
    · exact h.values entry hentry
  declared d hd := by
    rcases List.mem_append.1 hd with hd | hd
    · exact h.declared d (List.mem_of_mem_filter hd)
    · obtain rfl := List.mem_singleton.1 hd
      exact .inr ⟨good.scheme, placed⟩

theorem adds_defineAll {scope : Polytype.Scope} {definitions : List Definition}
    (h : w.EnvGood (scope.env.defineAll definitions)) :
    w.Adds scope { scope with env := scope.env.defineAll definitions } where
  values entry hentry := by
    rcases Env.mem_values_defineAll hentry with hentry' | ⟨c, hc⟩
    · exact .inl hentry'
    · have good : w.ConstructorGood c := by
        have := h.values entry hentry
        rwa [hc] at this
      refine .inr fun v hv hfree => ?_
      rw [hc] at hv hfree
      simp [Binding.scheme, good.binds hv] at hfree
  declared _ := .inl

theorem yields_declareGroup (members : List GroupBinding) {scope scope' : Polytype.Scope}
    {schemes : List (String × Scheme)} (hschemes : ∀ entry ∈ schemes,
      w.BindingGood (.value entry.2) ∧ w.Placed scope.env 0 entry.2)
    (hscope : w.ScopeGood scope'.env) (adds : w.Adds scope scope') :
    w.Yields (declareGroup members schemes scope') fun scope'' w' =>
      w'.ScopeGood scope''.env ∧ w'.Adds scope scope'' := by
  induction members generalizing w schemes scope' with
  | nil => exact .pure ⟨hscope, adds⟩
  | cons member members ih =>
    cases schemes with
    | nil => exact .pure ⟨hscope, adds⟩
    | cons entry schemes =>
      refine (yields_log _).bind fun _ w' later ⟨hs, hmarks⟩ => ?_
      have same : w'.SameLevels w := .of_marks hs hmarks
      obtain ⟨first, rest⟩ := List.forall_mem_cons.1 fun entry hentry =>
        have found := hschemes entry hentry
        And.intro (later.bindingGood found.1) (found.2.congr same)
      exact ih rest ((later.scopeGood hscope).extend first.1)
        ((adds.congr later same).bind first.1 first.2 _)

theorem Rigid.bindAll {scope scope' : Polytype.Scope} (hscope : w.ScopeGood scope'.env)
    (adds : w.Adds scope scope') (span : Span) {values : List (String × Scheme)}
    (hvalues : ∀ value ∈ values, w.Rigid value.2) :
    w.ScopeGood (values.foldl (fun scope value => scope.bind value.1 (.value value.2) span)
      scope').env ∧
    w.Adds scope (values.foldl (fun scope value => scope.bind value.1 (.value value.2) span)
      scope') := by
  induction values generalizing scope' with
  | nil => exact ⟨hscope, adds⟩
  | cons value values ih =>
    obtain ⟨first, rest⟩ := List.forall_mem_cons.1 hvalues
    exact ih (hscope.extend first.bindingGood) (adds.bind first.bindingGood first.placed span) rest

theorem Yields.returns {α : Type} {m : Infer α} {post : α → World → Prop} {P : α → Prop}
    (h : w.Yields m post) (h' : Returns m P) : w.Yields m fun a w' => post a w' ∧ P a := by
  unfold Yields at h ⊢
  cases hm : m w.progress with
  | error e p =>
    rw [hm] at h
    exact h
  | ok a p =>
    rw [hm] at h
    obtain ⟨w', hp, later, ha⟩ := h
    exact ⟨w', hp, later, ha, h' _ _ _ hm⟩

theorem yields_declaration {scope : Polytype.Scope} (hscope : w.ScopeGood scope.env)
    {d : Declaration} (hplain : w.plain → d.Plain) :
    w.Yields (declaration scope d) fun scope' w' =>
      w'.ScopeGood scope'.env ∧ w'.Adds scope scope' := by
  cases d with
  | value name written body recursive span =>
    refine (yields_letBinding hscope.toEnvGood 0 name (fun plain => (hplain plain).1)
      (exprSound_everywhere body) (fun plain => (hplain plain).2) recursive
      fun _ _ _ _ => trivial).bind fun σ w₁ later₁ ⟨hσ, placed, _⟩ => ?_
    refine (yields_log _).bind fun _ w₂ later₂ ⟨hs, hmarks⟩ => .pure ?_
    have good := later₂.bindingGood hσ
    exact ⟨((later₁.trans later₂).scopeGood hscope).extend good,
      (Adds.refl _ scope).bind good (placed.congr (.of_marks hs hmarks)) span⟩
  | group bindings span =>
    refine (yields_group hscope.toEnvGood 0 (fun plain => (hplain plain).1)
      (fun b _ => exprSound_everywhere b.value) (fun plain => (hplain plain).2)
      fun _ _ _ _ _ _ _ _ _ _ => trivial).bind
      fun schemes w₁ later₁ ⟨_, hschemes, _⟩ => ?_
    exact yields_declareGroup bindings hschemes (later₁.scopeGood hscope) (.refl _ scope)
  | types decls span =>
    refine ((yields_defineTypes hscope hplain).returns (returns_defineTypes scope.env decls)).bind ?_
    rintro _ w₁ - ⟨henv, definitions, rfl, -⟩
    refine (yields_log _).bind fun _ w₂ later₂ _ => .pure ?_
    exact ⟨later₂.scopeGood henv, adds_defineAll (later₂.scopeGood henv).toEnvGood⟩
  | foreign name written foreignName span =>
    refine (yields_signature hscope.toEnvGood hplain).bind fun σ w₁ later₁ hσ => ?_
    refine (yields_log _).bind fun _ w₂ later₂ _ => .pure ?_
    have rigid := later₂.rigid hσ
    have good : w₂.BindingGood (.foreign σ foreignName) := rigid.bindingGood
    exact ⟨((later₁.trans later₂).scopeGood hscope).extend good,
      (Adds.refl _ scope).bind good rigid.placed span⟩
  | imports moduleName items span =>
    refine ((yields_importItems moduleName hplain hscope (by simp)).returns
      (returns_importItems moduleName items scope.env [])).bind ?_
    rintro _ w₁ - ⟨⟨henv, hvalues⟩, definitions, values, rfl, -⟩
    exact .pure (Rigid.bindAll henv (adds_defineAll henv.toEnvGood) span hvalues)

end World

end Polytype
