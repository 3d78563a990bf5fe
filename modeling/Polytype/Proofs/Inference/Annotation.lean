import Polytype.Inference.Annotation
import Polytype.Proofs.Inference.Yields
import Polytype.Proofs.Program.Induction
import Polytype.Proofs.Typing.Substitution

namespace Polytype

open Ty

namespace Resolve

def Drawn (level : Option Nat) (scope scope' : NameScope) (v : TypeVar) : Prop :=
  scope.next ≤ v.id ∧ v.id < scope'.next ∧ level = some v.level

def Comes (level : Option Nat) (scope scope' : NameScope) (t : Ty) : Prop :=
  ∀ v ∈ t.vars, (∃ name u, scope.names.get? name = some u ∧ v ∈ u.vars) ∨
    Drawn level scope scope' v

structure Grows (level : Option Nat) (scope scope' : NameScope) : Prop where
  next : scope.next ≤ scope'.next
  names : ∀ name t, scope.names.get? name = some t → scope'.names.get? name = some t
  new : ∀ name t, scope'.names.get? name = some t →
    scope.names.get? name = some t ∨ ∃ v, t = .var v ∧ Drawn level scope scope' v

variable {level : Option Nat} {scope scope' scope'' : NameScope}

theorem Grows.refl (level : Option Nat) (scope : NameScope) : Grows level scope scope :=
  ⟨Nat.le_refl _, fun _ _ h => h, fun _ _ h => .inl h⟩

theorem Drawn.mono {v : TypeVar} (h : Drawn level scope' scope'' v) (hnext : scope.next ≤ scope'.next) :
    Drawn level scope scope'' v :=
  ⟨Nat.le_trans hnext h.1, h.2⟩

theorem Drawn.grows {v : TypeVar} (h : Drawn level scope scope' v)
    (hnext : scope'.next ≤ scope''.next) : Drawn level scope scope'' v :=
  ⟨h.1, Nat.lt_of_lt_of_le h.2.1 hnext, h.2.2⟩

theorem Grows.trans (h : Grows level scope scope') (h' : Grows level scope' scope'') :
    Grows level scope scope'' where
  next := Nat.le_trans h.next h'.next
  names name t ht := h'.names name t (h.names name t ht)
  new name t ht := by
    rcases h'.new name t ht with ht | ⟨v, rfl, hv⟩
    · exact (h.new name t ht).imp_right fun ⟨v, heq, hv⟩ => ⟨v, heq, hv.grows h'.next⟩
    · exact .inr ⟨v, rfl, hv.mono h.next⟩

theorem Comes.later {t : Ty} (h : Comes level scope scope' t) (hnext : scope'.next ≤ scope''.next) :
    Comes level scope scope'' t :=
  fun v hv => (h v hv).imp_right fun hv => hv.grows hnext

theorem Comes.earlier {t : Ty} (h : Comes level scope' scope'' t) (grows : Grows level scope scope')
    (hnext : scope'.next ≤ scope''.next) : Comes level scope scope'' t := by
  intro v hv
  rcases h v hv with ⟨name, u, hu, hv⟩ | hv
  · rcases grows.new name u hu with hu | ⟨x, rfl, hx⟩
    · exact .inl ⟨name, u, hu, hv⟩
    · obtain rfl : v = x := by simpa [vars] using hv
      exact .inr (hx.grows hnext)
  · exact .inr (hv.mono grows.next)

def Finds {α : Type} (level : Option Nat) (scope : NameScope) (x : Resolve α)
    (post : α → NameScope → Prop) : Prop :=
  match x scope with
  | .ok a scope' => Grows level scope scope' ∧ post a scope'
  | .error _ scope' => scope.next ≤ scope'.next

section Finds

variable {α β : Type}

theorem Finds.pure {a : α} {post : α → NameScope → Prop} (h : post a scope) :
    Finds level scope (pure a) post :=
  ⟨.refl level scope, h⟩

theorem Finds.throw {e : TypeError} {post : α → NameScope → Prop} :
    Finds level scope (MonadExcept.throw e) post :=
  Nat.le_refl _

theorem Finds.get {f : NameScope → Resolve α} {post : α → NameScope → Prop}
    (h : Finds level scope (f scope) post) : Finds level scope (MonadState.get >>= f) post := h

theorem Finds.bind {x : Resolve α} {f : α → Resolve β} {mid : α → NameScope → Prop}
    {post : β → NameScope → Prop} (h : Finds level scope x mid)
    (hf : ∀ a scope', Grows level scope scope' → mid a scope' → Finds level scope' (f a) post) :
    Finds level scope (x >>= f) post := by
  change match EStateM.bind x f scope with
    | .ok a scope' => Grows level scope scope' ∧ post a scope'
    | .error _ scope' => scope.next ≤ scope'.next
  unfold Finds at h
  unfold EStateM.bind
  cases hx : x scope with
  | error e scope' =>
    rw [hx] at h
    exact h
  | ok a scope' =>
    rw [hx] at h
    have next := hf a scope' h.1 h.2
    unfold Finds at next
    dsimp only
    cases hn : f a scope' with
    | ok b scope'' =>
      rw [hn] at next
      exact ⟨h.1.trans next.1, next.2⟩
    | error e scope'' =>
      rw [hn] at next
      exact Nat.le_trans h.1.next next

end Finds

/-! ## What is found -/

def Reads (scope : NameScope) (names : String → Ty) (θ : Nat → Ty) : Prop :=
  ∀ name t, scope.names.get? name = some t → names name = t.subst θ

theorem Grows.reads (h : Grows level scope scope') {names : String → Ty} {θ : Nat → Ty}
    (hnames : Reads scope' names θ) : Reads scope names θ :=
  fun name t ht => hnames name t (h.names name t ht)

def Bare (scope : NameScope) : Prop := ∀ name t, scope.names.get? name = some t → Recordless t

theorem Grows.bare (h : Grows level scope scope') (hbare : Bare scope) : Bare scope' := by
  intro name t ht
  rcases h.new name t ht with ht | ⟨v, rfl, -⟩
  · exact hbare name t ht
  · exact .var trivial

structure Found (env : Env) (level : Option Nat) (scope : NameScope) (written : TypeExpr) (t : Ty)
    (scope' : NameScope) : Prop where
  comes : Comes level scope scope' t
  recordless : written.Plain → Bare scope → Recordless t
  denotes : written.Plain → ∀ env' names θ, env'.types = env.types → Reads scope' names θ →
    written.Denotes env' names (t.subst θ)

structure FoundAll (env : Env) (level : Option Nat) (scope : NameScope) (written : List TypeExpr)
    (ts : List Ty) (scope' : NameScope) : Prop where
  comes : ∀ t ∈ ts, Comes level scope scope' t
  recordless : (∀ x ∈ written, x.Plain) → Bare scope → ∀ t ∈ ts, Recordless t
  denotes : (∀ x ∈ written, x.Plain) → ∀ env' names θ, env'.types = env.types →
    Reads scope' names θ → TypeExpr.DenotesAll env' names written (ts.map (Ty.subst θ))

variable {env : Env}

theorem grows_insert {l : Nat} {name : String} (h : scope.names.get? name = none) :
    Grows (some l) scope ⟨scope.next + 1, scope.names.insert name (.var ⟨scope.next, l⟩)⟩ where
  next := Nat.le_succ _
  names other t ht := by
    rw [Assoc.get?_insert, if_neg]
    · exact ht
    · rintro rfl
      simp [h] at ht
  new other t ht := by
    rw [Assoc.get?_insert] at ht
    split at ht
    · cases ht
      exact .inr ⟨_, rfl, Nat.le_refl _, Nat.lt_succ_self _, rfl⟩
    · exact .inl ht

theorem found_var {name : String} {span : Span} {t : Ty} (hcomes : Comes level scope scope' t)
    (hbare : Bare scope → Recordless t) (h : scope'.names.get? name = some t) :
    Found env level scope (.var name span) t scope' where
  comes := hcomes
  recordless _ := hbare
  denotes _ _ names θ _ hnames := by
    rw [← hnames name t h]
    exact .var

theorem finds_typeVar (name : String) (span : Span) :
    Finds level scope (typeVar level name span) (Found env level scope (.var name span)) := by
  unfold typeVar
  refine .get ?_
  split
  · rename_i t h
    exact .pure (found_var (fun v hv => .inl ⟨name, t, h, hv⟩) (fun bare => bare name t h) h)
  · rename_i l h
    refine ⟨grows_insert h, found_var (fun v hv => ?_) (fun _ => .var trivial)
      (Assoc.get?_insert_self _ _ _)⟩
    obtain rfl : v = _ := by simpa [vars] using hv
    exact .inr ⟨Nat.le_refl _, Nat.lt_succ_self _, rfl⟩
  · exact .throw

theorem finds_types {written : List TypeExpr}
    (ih : ∀ x ∈ written, ∀ scope, Finds level scope (type env level x) (Found env level scope x)) :
    Finds level scope (types env level written) (FoundAll env level scope written) := by
  induction written generalizing scope with
  | nil =>
    simp only [types]
    exact .pure ⟨by simp, by simp, fun _ _ _ _ _ _ => .nil⟩
  | cons x rest ihRest =>
    simp only [types]
    refine (ih x List.mem_cons_self scope).bind fun t scope' grows found => ?_
    refine (ihRest fun x hx => ih x (List.mem_cons_of_mem _ hx)).bind fun ts scope'' grows' all => ?_
    refine .pure ⟨fun u hu => ?_, fun plain bare u hu => ?_, fun plain env' names θ henv hnames => ?_⟩
    · rcases List.mem_cons.1 hu with rfl | hu
      · exact found.comes.later grows'.next
      · exact (all.comes u hu).earlier grows grows'.next
    · rcases List.mem_cons.1 hu with rfl | hu
      · exact found.recordless (plain x List.mem_cons_self) bare
      · exact all.recordless (fun x hx => plain x (List.mem_cons_of_mem _ hx)) (grows.bare bare) u hu
    · exact .cons (found.denotes (plain x List.mem_cons_self) env' names θ henv (grows'.reads hnames))
        (all.denotes (fun x hx => plain x (List.mem_cons_of_mem _ hx)) env' names θ henv hnames)

theorem finds_fields {written : List (String × TypeExpr)}
    (ih : ∀ x ∈ written, ∀ scope,
      Finds level scope (type env level x.2) (Found env level scope x.2)) :
    Finds level scope (fields env level written) fun found scope' =>
      ∀ field ∈ found, Comes level scope scope' field.2 := by
  induction written generalizing scope with
  | nil =>
    simp only [fields]
    exact .pure (by simp)
  | cons x rest ihRest =>
    simp only [fields]
    refine (ih x List.mem_cons_self scope).bind fun t scope' grows found => ?_
    refine (ihRest fun x hx => ih x (List.mem_cons_of_mem _ hx)).bind fun ts scope'' grows' all => ?_
    refine .pure fun field hf => ?_
    rcases List.mem_cons.1 hf with rfl | hf
    · exact found.comes.later grows'.next
    · exact (all field hf).earlier grows grows'.next

theorem comes_parts (ts : List Ty) {t : Ty} (h : ∀ v ∈ t.vars, ∃ u ∈ ts, v ∈ u.vars)
    (hts : ∀ u ∈ ts, Comes level scope scope' u) : Comes level scope scope' t := by
  intro v hv
  obtain ⟨u, hu, hv⟩ := h v hv
  exact hts u hu v hv

theorem comes_record {fields : List (String × Ty)}
    (h : ∀ field ∈ fields, Comes level scope scope' field.2) :
    Comes level scope scope' (.record (Assoc.ofList fields)) := by
  intro v hv
  simp only [vars, varsFields_eq, List.mem_flatMap] at hv
  obtain ⟨field, hfield, hv⟩ := hv
  rcases Assoc.mem_of_mem_insertAll hfield with hfield | hfield
  · exact h field hfield v hv
  · simp at hfield

theorem subst_named (θ : Nat → Ty) (name : String) (ts : List Ty) :
    (Ty.named name ts).subst θ = .named name (ts.map (Ty.subst θ)) := by
  cases ts with
  | nil => rfl
  | cons t ts => simp [Ty.named]

theorem mem_vars_named {name : String} {ts : List Ty} {v : TypeVar}
    (h : v ∈ (Ty.named name ts).vars) : ∃ u ∈ ts, v ∈ u.vars := by
  unfold Ty.named at h
  split at h
  · simp [vars] at h
  · simpa [vars, varsList_eq] using h

theorem finds_type (written : TypeExpr) :
    ∀ scope, Finds level scope (type env level written) (Found env level scope written) := by
  induction written using TypeExpr.induct with
  | named name args span ih =>
    intro scope
    simp only [type]
    split
    · exact .throw
    · rename_i d hd
      split
      · rename_i hlength
        refine (finds_types ih).bind fun ts scope' _ all => .pure ?_
        refine ⟨comes_parts ts (fun v => mem_vars_named) all.comes, fun plain bare => ?_,
          fun plain env' names θ henv hnames => ?_⟩
        · cases plain with
          | named plain =>
            have parts := all.recordless plain bare
            unfold Ty.named
            split
            · exact .const trivial
            · exact .app trivial (.const trivial) parts
        · cases plain with
          | named plain =>
            rw [subst_named]
            have hd' : env'.definition? name = some d := by
              unfold Env.definition? at hd ⊢
              rw [henv, hd]
            exact .named hd' hlength (all.denotes plain env' names θ henv hnames)
      · exact .throw
  | var name span =>
    intro scope
    simp only [type]
    exact finds_typeVar name span
  | func params result span ihParams ihResult =>
    intro scope
    simp only [type]
    refine (finds_types ihParams).bind fun ts scope' grows all => ?_
    refine (ihResult scope').bind fun t scope'' grows' found => .pure ?_
    refine ⟨comes_parts (t :: ts) (fun v hv => ?_) fun u hu => ?_, fun plain bare => ?_,
      fun plain env' names θ henv hnames => ?_⟩
    · simp only [vars, varsList_eq, List.mem_append, List.mem_flatMap] at hv
      rcases hv with ⟨u, hu, hv⟩ | hv
      · exact ⟨u, List.mem_cons_of_mem _ hu, hv⟩
      · exact ⟨t, List.mem_cons_self, hv⟩
    -- A name that the parameters brought up means the same in the result.
    · rcases List.mem_cons.1 hu with rfl | hu
      · exact found.comes.earlier grows grows'.next
      · exact (all.comes u hu).later grows'.next
    · cases plain with
      | func plain plain' =>
        exact .func trivial (all.recordless plain bare) (found.recordless plain' (grows.bare bare))
    · cases plain with
      | func plain plain' =>
        rw [subst_func]
        exact .func (all.denotes plain env' names θ henv (grows'.reads hnames))
          (found.denotes plain' env' names θ henv hnames)
  | record written span ih =>
    intro scope
    simp only [type]
    refine (finds_fields ih).bind fun found scope' _ all => .pure ?_
    exact ⟨comes_record all, (fun plain => by cases plain), fun plain => by cases plain⟩
  | tuple elements span ih =>
    intro scope
    simp only [type]
    refine (finds_types ih).bind fun ts scope' _ all => .pure ?_
    refine ⟨comes_parts ts (fun v hv => ?_) all.comes, fun plain bare => ?_,
      fun plain env' names θ henv hnames => ?_⟩
    · simpa [vars, varsList_eq] using hv
    · cases plain with
      | tuple plain => exact .tuple trivial (all.recordless plain bare)
    · cases plain with
      | tuple plain =>
        rw [subst_tuple]
        exact .tuple (all.denotes plain env' names θ henv hnames)

theorem finds_fresh (l : Nat) :
    Finds (some l) scope (fresh l) fun t scope' =>
      Comes (some l) scope scope' t ∧ Recordless t := by
  refine ⟨⟨Nat.le_succ _, fun _ _ h => h, fun _ _ h => .inl h⟩, fun v hv => ?_, .var trivial⟩
  obtain rfl : v = _ := by simpa [vars] using hv
  exact .inr ⟨Nat.le_refl _, Nat.lt_succ_self _, rfl⟩

structure FoundParam (env : Env) (l : Nat) (scope : NameScope) (written : Option TypeExpr) (t : Ty)
    (scope' : NameScope) : Prop where
  comes : Comes (some l) scope scope' t
  recordless : (∀ x, written = some x → x.Plain) → Bare scope → Recordless t
  denotes : (∀ x, written = some x → x.Plain) → ∀ env' names θ, env'.types = env.types →
    Reads scope' names θ → ∀ x, written = some x → x.Denotes env' names (t.subst θ)

structure FoundParams (env : Env) (l : Nat) (scope : NameScope) (given : List Param)
    (ts : List Ty) (scope' : NameScope) : Prop where
  comes : ∀ t ∈ ts, Comes (some l) scope scope' t
  length : ts.length = given.length
  recordless : (∀ x ∈ given, ∀ t, x.written = some t → t.Plain) → Bare scope →
    ∀ t ∈ ts, Recordless t
  typed : (∀ x ∈ given, ∀ t, x.written = some t → t.Plain) → ∀ env' names θ,
    env'.types = env.types → Reads scope' names θ →
      ParamsTyped env' names given (ts.map (Ty.subst θ))

theorem FoundParams.cons {l : Nat} {param : Param} {rest : List Param} {t : Ty} {ts : List Ty}
    (first : FoundParam env l scope param.written t scope') (grows : Grows (some l) scope scope')
    (all : FoundParams env l scope' rest ts scope'') (grows' : Grows (some l) scope' scope'') :
    FoundParams env l scope (param :: rest) (t :: ts) scope'' where
  comes u hu := by
    rcases List.mem_cons.1 hu with rfl | hu
    · exact first.comes.later grows'.next
    · exact (all.comes u hu).earlier grows grows'.next
  length := by simp [all.length]
  recordless plain bare u hu := by
    rcases List.mem_cons.1 hu with rfl | hu
    · exact first.recordless (plain param List.mem_cons_self) bare
    · exact all.recordless (fun x hx => plain x (List.mem_cons_of_mem _ hx)) (grows.bare bare) u hu
  typed plain env' names θ henv hnames :=
    .cons (first.denotes (plain param List.mem_cons_self) env' names θ henv (grows'.reads hnames))
      (all.typed (fun x hx => plain x (List.mem_cons_of_mem _ hx)) env' names θ henv hnames)

theorem finds_params (l : Nat) (given : List Param) :
    Finds (some l) scope (params env l given) (FoundParams env l scope given) := by
  induction given generalizing scope with
  | nil =>
    simp only [params]
    exact .pure ⟨by simp, rfl, by simp, fun _ _ _ _ _ _ => .nil⟩
  | cons param rest ih =>
    have after {t : Ty} {scope' : NameScope} (grows : Grows (some l) scope scope')
        (first : FoundParam env l scope param.written t scope') :
        Finds (some l) scope' (do return t :: (← params env l rest))
          (FoundParams env l scope (param :: rest)) :=
      ih.bind fun ts scope'' grows' all => .pure (.cons first grows all grows')
    simp only [params]
    split
    · rename_i written hwritten
      refine (finds_type written scope).bind fun t scope' grows found => after grows ?_
      rw [hwritten]
      refine ⟨found.comes, fun plain => found.recordless (plain written rfl), ?_⟩
      rintro plain env' names θ henv hnames _ ⟨⟩
      exact found.denotes (plain written rfl) env' names θ henv hnames
    · rename_i hwritten
      refine (finds_fresh l).bind fun t scope' grows ⟨comes, recordless⟩ => after grows ?_
      rw [hwritten]
      exact ⟨comes, fun _ _ => recordless, by simp⟩

end Resolve

namespace World

open Infer Resolve

variable {w : World}

def readNames (scope : NameScope) (θ : Nat → Ty) (name : String) : Ty :=
  ((scope.names.get? name).map (Ty.subst θ)).getD .unit

theorem reads_readNames (scope : NameScope) (θ : Nat → Ty) : Reads scope (readNames scope θ) θ := by
  intro name t ht
  simp [readNames, ht]

theorem yields_drawing {α : Type} (l : Nat) (keep : Prop) {level : Option Nat}
    {names : Assoc String Ty} {x : Resolve α} {post : α → NameScope → Prop}
    (h : Finds level ⟨w.next, names⟩ x post) :
    w.Yields (resolving names x) fun a w' => ∃ scope, post a scope ∧ w.next ≤ scope.next ∧
      w' = w.draw (scope.next - w.next) l keep := by
  have drawn {next : Nat} (hnext : w.next ≤ next) :
      (w.draw (next - w.next) l keep).progress = { w.progress with next } := by
    simp only [draw, Nat.add_sub_cancel' hnext]
  unfold Finds at h
  unfold Yields resolving
  cases hx : x ⟨w.next, names⟩ with
  | error e scope =>
    rw [hx] at h
    exact ⟨w.draw (scope.next - w.next) l keep, drawn h, later_draw _ _ _ _⟩
  | ok a scope =>
    rw [hx] at h
    exact ⟨w.draw (scope.next - w.next) l keep, drawn h.1.next, later_draw _ _ _ _, scope, h.2,
      h.1.next, rfl⟩

theorem yields_resolving {α : Type} {level : Nat} {x : Resolve α} {post : α → NameScope → Prop}
    (h : Finds (some level) ⟨w.next, []⟩ x post) :
    w.Yields (resolving [] x) fun a w' => ∃ scope, post a scope ∧
      ∀ t, Comes (some level) ⟨w.next, []⟩ scope t → (w.plain → Recordless t) → w'.Good t := by
  refine (yields_drawing level True h).mono ?_
  rintro a _ - ⟨scope, ha, hnext, rfl⟩
  refine ⟨scope, ha, fun t comes recordless => ⟨allVars_iff.2 fun v hv => ?_, recordless⟩⟩
  rcases comes v hv with ⟨name, u, hu, -⟩ | ⟨hle, hlt, hlevel⟩
  · simp at hu
  · obtain ⟨id, l⟩ := v
    cases hlevel
    have bound : id < w.next + (scope.next - w.next) := by
      rw [Nat.add_sub_cancel' hnext]
      exact hlt
    exact everywhere_var.1 (good_draw hle bound).1

theorem bare_nil (next : Nat) : Bare ⟨next, []⟩ := fun _ _ h => by simp at h

theorem yields_writtenType (env : Env) (level : Nat) {written : TypeExpr}
    (hplain : w.plain → written.Plain) :
    w.Yields (writtenType env level written) fun t w' => w'.Good t ∧
      (w.plain → ∀ θ, ∃ names, written.Denotes (env.subst θ) names (t.subst θ)) := by
  refine (yields_resolving (finds_type written _)).mono fun t w' _ ⟨scope, found, good⟩ => ?_
  refine ⟨good t found.comes fun plain => found.recordless (hplain plain) (bare_nil _),
    fun plain θ => ⟨readNames scope θ, ?_⟩⟩
  exact found.denotes (hplain plain) _ _ θ rfl (reads_readNames scope θ)

theorem yields_writtenTypeOrFresh (env : Env) (level : Nat) {written : Option TypeExpr}
    (hplain : w.plain → ∀ t, written = some t → t.Plain) :
    w.Yields (writtenTypeOrFresh env level written) fun t w' => w'.Good t ∧
      (w.plain → ∀ θ, Annotated (env.subst θ) written (t.subst θ)) := by
  cases written with
  | none =>
    refine (yields_fresh level).mono ?_
    rintro t w' _ ⟨good, -⟩
    exact ⟨good, fun _ _ => by simp [Annotated]⟩
  | some written =>
    refine (yields_writtenType env level fun plain => hplain plain _ rfl).mono ?_
    rintro t w' _ ⟨good, denotes⟩
    refine ⟨good, ?_⟩
    rintro plain θ _ ⟨⟩
    exact denotes plain θ

theorem yields_params (env : Env) (level : Nat) {params : List Param}
    (hplain : w.plain → ∀ x ∈ params, ∀ t, x.written = some t → t.Plain) :
    w.Yields (resolving [] (Resolve.params env level params)) fun ts w' =>
      ts.length = params.length ∧ (∀ t ∈ ts, w'.Good t) ∧
        (w.plain → ∀ θ, ∃ names, ParamsTyped (env.subst θ) names params (ts.map (Ty.subst θ))) := by
  refine (yields_resolving (finds_params level params)).mono fun ts w' _ ⟨scope, found, good⟩ => ?_
  refine ⟨found.length, fun t ht => good t (found.comes t ht) fun plain =>
    found.recordless (hplain plain) (bare_nil _) t ht, fun plain θ => ⟨readNames scope θ, ?_⟩⟩
  exact found.typed (hplain plain) _ _ θ rfl (reads_readNames scope θ)

end World

end Polytype
