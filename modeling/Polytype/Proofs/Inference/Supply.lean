import Polytype.Proofs.Env.Mentions
import Polytype.Proofs.Inference.Visits

namespace Polytype

open Ty

/-! ## What has been drawn -/

abbrev Ty.Below (n : Nat) : Ty → Prop := Ty.Within (· < n)

theorem Ty.Below.mono {n m : Nat} {t : Ty} (h : t.Below n) (le : n ≤ m) : t.Below m :=
  Ty.Within.mono (fun _ hid => Nat.lt_of_lt_of_le hid le) h

structure Scheme.Drawn (n : Nat) (σ : Scheme) : Prop where
  mentions : σ.MentionsOnly (· < n)
  distinct : (σ.vars.map (·.id)).Nodup

theorem Scheme.Drawn.mono {n m : Nat} {σ : Scheme} (h : σ.Drawn n) (le : n ≤ m) : σ.Drawn m :=
  ⟨h.mentions.mono fun _ hid => Nat.lt_of_lt_of_le hid le, h.distinct⟩

theorem Scheme.drawn_mono {n : Nat} {t : Ty} (ht : t.Below n) : (Scheme.mono t).Drawn n :=
  ⟨⟨by simp [Scheme.mono], ht⟩, by simp [Scheme.mono]⟩

/-- The environment mentions the first `n` variables only, and its schemes quantify no variable
twice. -/
structure Env.Drawn (n : Nat) (env : Env) : Prop where
  mentions : env.MentionsOnly (· < n)
  distinct : env.Distinct

namespace Env.Drawn

variable {n : Nat} {env : Env} (h : env.Drawn n)

include h

theorem mono {m : Nat} (le : n ≤ m) : env.Drawn m :=
  ⟨h.mentions.mono fun _ hid => Nat.lt_of_lt_of_le hid le, h.distinct⟩

theorem lookup {name : String} {binding : Binding} (found : env.lookup name = some binding) :
    binding.scheme.Drawn n :=
  ⟨h.mentions.lookup found, h.distinct _ (Assoc.mem_of_get? found)⟩

theorem extendAll {schemes : List (String × Scheme)}
    (hschemes : ∀ entry ∈ schemes, entry.2.Drawn n) :
    (env.extendAll (Assoc.mapValues .value schemes)).Drawn n := by
  have new {entry : String × Binding}
      (he : entry ∈ (env.extendAll (Assoc.mapValues .value schemes)).values) :
      entry ∈ env.values ∨ entry.2.scheme.Drawn n := by
    rcases Assoc.mem_of_mem_insertAll he with he | he
    · obtain ⟨given, hgiven, rfl⟩ := List.mem_map.1 he
      exact .inr (hschemes given hgiven)
    · exact .inl he
  refine ⟨⟨fun entry he => ?_, h.mentions.types⟩, fun entry he => ?_⟩
  · exact (new he).elim (h.mentions.values entry) Scheme.Drawn.mentions
  · exact (new he).elim (h.distinct entry) Scheme.Drawn.distinct

theorem extendValue (name : String) {σ : Scheme} (hσ : σ.Drawn n) :
    (env.extendValue name σ).Drawn n := by
  have single : ∀ entry ∈ [(name, σ)], entry.2.Drawn n := by simpa using hσ
  exact h.extendAll single

theorem extendMono {types : List (String × Ty)} (htypes : ∀ entry ∈ types, entry.2.Below n) :
    (env.extendMono types).Drawn n := by
  have drawn : ∀ entry ∈ Assoc.mapValues Scheme.mono types, entry.2.Drawn n := by
    intro entry he
    obtain ⟨given, hgiven, rfl⟩ := List.mem_map.1 he
    exact Scheme.drawn_mono (htypes given hgiven)
  have extended := h.extendAll drawn
  rwa [Assoc.mapValues, Assoc.mapValues, List.map_map] at extended

theorem extendZip (names : List String) {types : List Ty} (htypes : ∀ t ∈ types, t.Below n) :
    (env.extendMono (names.zip types)).Drawn n :=
  h.extendMono fun entry he => htypes entry.2 (List.of_mem_zip he).2

end Env.Drawn

theorem Env.MentionsOnly.callee {C : Nat → Prop} {env : Env} (henv : env.MentionsOnly C) {t : Ty}
    (ht : Ty.Within C t) : Ty.Within C (env.callee t) :=
  Env.callee_induction henv.expand ht

/-- All that inference works on mentions drawn variables only, and so do the instances of schemes
that were logged after the first `logged` events. -/
structure Progress.Drawn (logged : Nat) (p : Progress) : Prop where
  subst : p.subst.MentionsOnly (· < p.next)
  instances : ∀ σ t, Event.instantiated σ t ∈ p.events.toList.drop logged → t.Below p.next

theorem generalize_drawn {n : Nat} {s : Subst} (hs : s.MentionsOnly (· < n)) (env : Env) (level : Nat)
    {t : Ty} (ht : t.Below n) : (generalize env level t s).Drawn n := by
  have applied : (s.apply t).Below n := hs.apply ht
  refine ⟨⟨fun v hv => ?_, applied⟩, ?_⟩
  · exact within_iff.1 applied v (mem_vars_of_mem_freeVars (List.mem_filter.1 hv).1)
  · exact (nodup_freeVars (s.apply t)).sublist (List.filter_sublist.map _)

namespace Infer

open Progress

def Draws {α : Type} (logged n : Nat) (m : Infer α) (P : Nat → α → Prop) : Prop :=
  ∀ p a q, n ≤ p.next → p.Drawn logged → m p = .ok a q →
    p.next ≤ q.next ∧ q.Drawn logged ∧ P q.next a

section Draws

variable {α β : Type} {logged n : Nat} {P : Nat → α → Prop} {Q : Nat → β → Prop}

/-! ## Putting runs together -/

theorem Draws.pure {a : α} (h : ∀ m, n ≤ m → P m a) : Draws logged n (pure a) P := by
  intro p b q le hp run
  obtain ⟨rfl, rfl⟩ := EStateM.Result.ok.inj (run : EStateM.Result.ok a p = .ok b q)
  exact ⟨Nat.le_refl _, hp, h _ le⟩

theorem Draws.bind {m : Infer α} {f : α → Infer β} (h : Draws logged n m P)
    (hf : ∀ a n', n ≤ n' → P n' a → Draws logged n' (f a) Q) : Draws logged n (m >>= f) Q := by
  intro p b q le hp run
  obtain ⟨a, mid, first, run⟩ := exists_of_bind run
  obtain ⟨up, hmid, ha⟩ := h p a mid le hp first
  obtain ⟨up', hq, hb⟩ := hf a mid.next (Nat.le_trans le up) ha mid b q (Nat.le_refl _) hmid run
  exact ⟨Nat.le_trans up up', hq, hb⟩

theorem draws_fail {cause : Cause} {span : Span} {hint : Option Hint} {related : List Span} :
    Draws logged n (fail cause span hint related : Infer α) P := by
  intro p a q _ _ run
  cases run

theorem Draws.read {m : Infer α} {f : Progress → α} (run : ∀ p, m p = .ok (f p) p)
    (h : ∀ p : Progress, n ≤ p.next → p.Drawn logged → P p.next (f p)) : Draws logged n m P := by
  intro p a q le hp ran
  obtain ⟨rfl, rfl⟩ := EStateM.Result.ok.inj ((run p).symm.trans ran)
  exact ⟨Nat.le_refl _, hp, h p le hp⟩

theorem draws_get : Draws logged n (get : Infer Progress) fun _ _ => True :=
  .read (fun _ => rfl) fun _ _ _ => trivial

theorem draws_drawnSoFar : Draws logged n drawnSoFar fun _ _ => True :=
  .read (fun _ => rfl) fun _ _ _ => trivial

theorem draws_getSubst : Draws logged n getSubst fun n' s => s.MentionsOnly (· < n') :=
  .read (fun _ => rfl) fun _ _ hp => hp.subst

theorem draws_resolved {t : Ty} (ht : t.Below n) :
    Draws logged n (resolved t) fun n' u => u.Below n' :=
  .read (fun _ => rfl) fun _ le hp => hp.subst.apply (ht.mono le)

theorem draws_setSubst {s : Subst} (hs : s.MentionsOnly (· < n)) :
    Draws logged n (setSubst s) fun _ _ => True := by
  intro p a q le hp run
  obtain ⟨rfl, rfl⟩ := EStateM.Result.ok.inj (run : EStateM.Result.ok _ _ = .ok a q)
  exact ⟨Nat.le_refl _, ⟨hs.mono fun _ hid => Nat.lt_of_lt_of_le hid le, hp.instances⟩, trivial⟩

theorem draws_noteSchemes (env : Env) (drawn : Nat) (schemes : List Scheme) :
    Draws logged n (noteSchemes env drawn schemes) fun _ _ => True := by
  intro p a q le hp run
  obtain ⟨rfl, rfl⟩ := EStateM.Result.ok.inj (run : EStateM.Result.ok _ _ = .ok a q)
  exact ⟨Nat.le_refl _, ⟨hp.subst, hp.instances⟩, trivial⟩

theorem draws_log {event : Event} (h : ∀ σ t, event = .instantiated σ t → t.Below n) :
    Draws logged n (log event) fun _ _ => True := by
  intro p a q le hp run
  obtain ⟨rfl, rfl⟩ := EStateM.Result.ok.inj (run : EStateM.Result.ok _ _ = .ok a q)
  refine ⟨Nat.le_refl _, ⟨hp.subst, fun σ t ht => ?_⟩, trivial⟩
  rw [Array.toList_push, List.drop_append] at ht
  rcases List.mem_append.1 ht with ht | ht
  · exact hp.instances σ t ht
  · exact (h σ t (List.mem_singleton.1 (List.mem_of_mem_drop ht)).symm).mono le

/-! ## Drawing -/

theorem draws_freshVar (level : Nat) : Draws logged n (freshVar level) fun n' v => v.id < n' := by
  intro p a q le hp run
  obtain ⟨rfl, rfl⟩ := EStateM.Result.ok.inj
    (run : EStateM.Result.ok ⟨p.next, level⟩ { p with next := p.next + 1 } = .ok a q)
  have up : p.next ≤ p.next + 1 := Nat.le_succ _
  refine ⟨up, ⟨hp.subst.mono fun _ hid => Nat.lt_of_lt_of_le hid up, fun σ t ht => ?_⟩,
    Nat.lt_succ_self _⟩
  exact (hp.instances σ t ht).mono up

theorem draws_fresh (level : Nat) : Draws logged n (fresh level) fun n' t => t.Below n' :=
  (draws_freshVar level).bind fun _ _ _ hv => .pure fun _ le => .var (Nat.lt_of_lt_of_le hv le)

theorem draws_freshList (level count : Nat) :
    Draws logged n (freshList level count) fun n' ts => ∀ t ∈ ts, t.Below n' := by
  induction count generalizing n with
  | zero => exact .pure (by simp)
  | succ count ih =>
    refine (draws_fresh level).bind fun t n₁ _ ht => ih.bind fun ts n₂ le₂ hts => ?_
    refine .pure fun m le => List.forall_mem_cons.2 ⟨ht.mono (Nat.le_trans le₂ le), fun u hu => ?_⟩
    exact (hts u hu).mono le

theorem draws_instantiate {σ : Scheme} (hσ : σ.Drawn n) (level : Nat) :
    Draws logged n (instantiate σ level) fun n' t => t.Below n' := by
  refine (draws_freshList level _).bind fun types n₁ le₁ htypes => ?_
  obtain ⟨⟨hvars, hty⟩, -⟩ := hσ.mono le₁
  have instance_below := Subst.within_apply_ofPairs hvars htypes hty
  refine (draws_log fun σ t heq => ?_).bind fun _ n₂ le₂ _ => .pure fun m le => ?_
  · cases heq
    exact instance_below
  · exact Ty.Below.mono instance_below (Nat.le_trans le₂ le)

theorem draws_resolving {level : Option Nat} {x : Resolve α} {post : Nat → α → NameScope → Prop}
    (h : ∀ next, Resolve.Finds level ⟨next, []⟩ x (post next))
    (hpost : ∀ next a scope m, post next a scope → scope.next ≤ m → P m a) :
    Draws logged n (resolving [] x) P := by
  intro p a q le hp run
  have found := h p.next
  unfold Resolve.Finds at found
  unfold resolving at run
  cases ran : x ⟨p.next, []⟩ with
  | error e scope => simp [ran] at run
  | ok b scope =>
    simp only [ran, EStateM.Result.ok.injEq] at run found
    obtain ⟨rfl, rfl⟩ := run
    obtain ⟨grows, hb⟩ := found
    have up : p.next ≤ scope.next := grows.next
    refine ⟨up, ⟨hp.subst.mono fun _ hid => Nat.lt_of_lt_of_le hid up, fun σ t ht => ?_⟩,
      hpost _ b scope _ hb (Nat.le_refl _)⟩
    exact (hp.instances σ t ht).mono up

theorem below_of_comes {level : Option Nat} {next m : Nat} {scope : NameScope} {t : Ty}
    (h : Resolve.Comes level ⟨next, []⟩ scope t) (le : scope.next ≤ m) : t.Below m := by
  refine within_iff.2 fun v hv => ?_
  -- no name stands for a type at the start, so that the variable has been drawn on the way
  rcases h v hv with ⟨name, u, hu, -⟩ | drawn
  · simp at hu
  · exact Nat.lt_of_lt_of_le drawn.2.1 le

theorem draws_writtenType (env : Env) (level : Nat) (written : TypeExpr) :
    Draws logged n (writtenType env level written) fun n' t => t.Below n' :=
  draws_resolving (fun _ => Resolve.finds_type written _) fun _ _ _ _ found le =>
    below_of_comes found.comes le

theorem draws_params (env : Env) (level : Nat) (params : List Param) :
    Draws logged n (resolving [] (Resolve.params env level params)) fun n' ts =>
      ∀ t ∈ ts, t.Below n' :=
  draws_resolving (fun _ => Resolve.finds_params level params) fun _ _ _ _ found le t ht =>
    below_of_comes (found.comes t ht) le

/-! ## Changing the substitution -/

theorem draws_unifyAt {env : Env} (henv : env.Drawn n) (span : Span) {expected actual : Ty}
    (hexpected : expected.Below n) (hactual : actual.Below n) :
    Draws logged n (unifyAt env span expected actual) fun _ _ => True := by
  refine draws_getSubst.bind fun s n₁ le₁ hs => ?_
  split
  · rename_i s' h
    refine draws_setSubst (hs.unify (fun t t' ht => ?_) (hexpected.mono le₁) (hactual.mono le₁) h)
    exact (henv.mono le₁).mentions.expand ht
  · intro p a q _ _ run
    cases run

theorem draws_fieldOf {v : TypeVar} (hv : v.id < n) (field : String) (level : Nat) :
    Draws logged n (fieldOf v field level) fun n' t => t.Below n' := by
  refine draws_getSubst.bind fun s n₁ le₁ hs => ?_
  split
  · rename_i t h
    exact .pure fun m le => Ty.Below.mono (hs.knownField h) le
  · refine (draws_fresh level).bind fun t n₂ le₂ ht => draws_getSubst.bind fun s n₃ le₃ hs => ?_
    refine (draws_setSubst (hs.requireField (by omega) field (ht.mono le₃))).bind fun _ n₄ le₄ _ => ?_
    exact .pure fun m le => ht.mono (by omega)

theorem draws_logAll (closed : List Closing) :
    Draws logged n (forIn closed PUnit.unit fun closing _ => do
      log (.closed closing)
      return .yield PUnit.unit) fun _ _ => True := by
  induction closed generalizing n with
  | nil => exact .pure fun _ _ => trivial
  | cons closing rest ih =>
    rw [List.forIn_cons, bind_assoc]
    exact (draws_log fun σ t h => by cases h).bind fun _ _ _ _ => ih

theorem draws_closeRecords (level : Nat) {t : Ty} (ht : t.Below n) (span : Span) :
    Draws logged n (closeRecords level t span) fun _ _ => True := by
  refine draws_getSubst.bind fun s n₁ le₁ hs => ?_
  -- it is set only after the log has been written, so its bound is stated for later counts as well
  have closing {s' : Subst} (h : (s.closeRecords t level).2 = .ok s') : s'.MentionsOnly (· < n₁) :=
    hs.closeRecords (ht.mono le₁) h
  generalize s.closeRecords t level = outcome at closing ⊢
  obtain ⟨closed, result⟩ := outcome
  refine (draws_logAll closed).bind fun _ n₂ le₂ _ => ?_
  cases result with
  | error clash =>
    intro p a q _ _ run
    cases run
  | ok s' => exact draws_setSubst ((closing rfl).mono fun _ hid => Nat.lt_of_lt_of_le hid le₂)

theorem draws_lower (level : Nat) {t : Ty} (ht : t.Below n) :
    Draws logged n (lower level t) fun _ _ => True :=
  draws_getSubst.bind fun _ _ le hs => draws_setSubst (hs.lower (ht.mono le) level)

theorem draws_schemeOf (env : Env) (level : Nat) {t : Ty} (ht : t.Below n) (generalizable : Bool) :
    Draws logged n (schemeOf env level t generalizable) fun n' σ => σ.Drawn n' := by
  refine draws_getSubst.bind fun s n₁ le₁ hs => ?_
  split
  · have drawn := generalize_drawn hs env level (ht.mono le₁)
    refine (draws_log fun σ t h => by cases h).bind fun _ n₂ le₂ _ => .pure fun m le => ?_
    exact drawn.mono (Nat.le_trans le₂ le)
  · exact .pure fun m le => (Scheme.drawn_mono (hs.apply (ht.mono le₁))).mono le

end Draws

/-! ## Patterns -/

def BoundBelow (n : Nat) (bound : PatternBindings) : Prop := ∀ entry ∈ bound, entry.2.1.Below n

theorem BoundBelow.mono {n m : Nat} {bound : PatternBindings} (h : BoundBelow n bound)
    (le : n ≤ m) : BoundBelow m bound := fun entry he => (h entry he).mono le

section Patterns

variable {logged n : Nat} {env : Env} {level : Nat}

theorem draws_bindName {name : String} {t : Ty} (ht : t.Below n) (span : Span)
    {bound : PatternBindings} (hbound : BoundBelow n bound) :
    Draws logged n (bindName name t span bound) BoundBelow := by
  unfold bindName
  split
  · exact draws_fail
  · refine .pure fun m le entry he => ?_
    rcases Assoc.mem_of_mem_insert he with rfl | he
    · exact ht.mono le
    · exact hbound.mono le entry he

theorem draws_bindNames {names bound : PatternBindings} (hnames : BoundBelow n names)
    (hbound : BoundBelow n bound) : Draws logged n (bindNames names bound) BoundBelow := by
  induction names generalizing n bound with
  | nil => exact .pure fun m le => hbound.mono le
  | cons entry rest ih =>
    obtain ⟨ht, hrest⟩ := List.forall_mem_cons.1 hnames
    rw [bindNames]
    exact (draws_bindName ht _ hbound).bind fun bound n₁ le₁ hbound =>
      ih (BoundBelow.mono hrest le₁) hbound

theorem draws_unifyBindings (henv : env.Drawn n) {first names : PatternBindings}
    (hfirst : BoundBelow n first) (hnames : BoundBelow n names) :
    Draws logged n (unifyBindings env first names) fun _ _ => True := by
  induction names generalizing n with
  | nil => exact .pure fun _ _ => trivial
  | cons entry rest ih =>
    obtain ⟨name, t, span⟩ := entry
    obtain ⟨ht, hrest⟩ := List.forall_mem_cons.1 hnames
    simp only [unifyBindings]
    split
    · rename_i expected _ hget
      refine (draws_unifyAt henv span (hfirst _ (Assoc.mem_of_get? hget)) ht).bind fun _ n₁ le₁ _ => ?_
      exact ih (henv.mono le₁) (hfirst.mono le₁) (BoundBelow.mono hrest le₁)
    · exact ih henv hfirst hrest

theorem draws_freshFields (fields : List FieldPattern) :
    Draws logged n (freshFields level fields) fun _ _ => True := by
  induction fields generalizing n with
  | nil => exact .pure fun _ _ => trivial
  | cons field rest ih =>
    exact (draws_fresh level).bind fun _ _ _ _ => ih.bind fun _ _ _ _ => .pure fun _ _ => trivial

theorem draws_tupleArity {t : Ty} (ht : t.Below n) (arity : Nat) (span : Span) :
    Draws logged n (tupleArity t arity span) fun _ _ => True := by
  refine (draws_resolved ht).bind fun applied _ _ _ => ?_
  split
  · split
    · exact .pure fun _ _ => trivial
    · exact draws_fail
  · exact .pure fun _ _ => trivial

def PatternDraws (logged : Nat) (p : Pattern) : Prop :=
  ∀ {env level n t bound}, env.Drawn n → t.Below n → BoundBelow n bound →
    Draws logged n (pattern env level p t bound) BoundBelow

theorem draws_patterns {ps : List Pattern} (ih : ∀ p ∈ ps, PatternDraws logged p)
    (henv : env.Drawn n) {ts : List Ty} (hts : ∀ t ∈ ts, t.Below n) {bound : PatternBindings}
    (hbound : BoundBelow n bound) : Draws logged n (patterns env level ps ts bound) BoundBelow := by
  induction ps generalizing n ts bound with
  | nil =>
    unfold patterns
    exact .pure fun m le => hbound.mono le
  | cons p ps ihRest =>
    unfold patterns
    cases ts with
    | nil => exact .pure fun m le => hbound.mono le
    | cons t ts =>
      obtain ⟨ht, hts⟩ := List.forall_mem_cons.1 hts
      obtain ⟨first, others⟩ := List.forall_mem_cons.1 ih
      refine (first henv ht hbound).bind fun bound n₁ le₁ hbound => ?_
      exact ihRest others (henv.mono le₁) (fun t ht => (hts t ht).mono le₁) hbound

theorem draws_openFields {fields : List FieldPattern}
    (ih : ∀ field ∈ fields, PatternDraws logged field.pattern) (henv : env.Drawn n) {v : TypeVar}
    (hv : v.id < n) {bound : PatternBindings} (hbound : BoundBelow n bound) :
    Draws logged n (openFields env level v fields bound) BoundBelow := by
  induction fields generalizing n bound with
  | nil =>
    rw [openFields]
    exact .pure fun m le => hbound.mono le
  | cons field rest ihRest =>
    obtain ⟨name, p, span⟩ := field
    obtain ⟨first, others⟩ := List.forall_mem_cons.1 ih
    rw [openFields]
    refine (draws_fieldOf hv name level).bind fun t n₁ le₁ ht => ?_
    refine (first (henv.mono le₁) ht (hbound.mono le₁)).bind fun bound n₂ le₂ hbound => ?_
    exact ihRest others (henv.mono (by omega)) (by omega) hbound

theorem draws_declaredFields (record : Ty) {fields : List FieldPattern}
    (ih : ∀ field ∈ fields, PatternDraws logged field.pattern) (henv : env.Drawn n)
    {declared : List (String × Ty)} (hdeclared : ∀ field ∈ declared, field.2.Below n)
    {bound : PatternBindings} (hbound : BoundBelow n bound) :
    Draws logged n (declaredFields env level record declared fields bound) BoundBelow := by
  induction fields generalizing n bound with
  | nil =>
    rw [declaredFields]
    exact .pure fun m le => hbound.mono le
  | cons field rest ihRest =>
    obtain ⟨name, p, span⟩ := field
    obtain ⟨first, others⟩ := List.forall_mem_cons.1 ih
    rw [declaredFields]
    split
    · rename_i t hget
      have ht := hdeclared _ (Assoc.mem_of_get? hget)
      refine (first henv ht hbound).bind fun bound n₁ le₁ hbound => ?_
      exact ihRest others (henv.mono le₁) (fun field hf => (hdeclared field hf).mono le₁) hbound
    · exact (draws_fresh level).bind fun _ _ _ _ => draws_fail

theorem draws_alternatives (firstSpan : Span) {ps : List Pattern}
    (ih : ∀ p ∈ ps, PatternDraws logged p) (henv : env.Drawn n) {first : PatternBindings}
    (hfirst : BoundBelow n first) {t : Ty} (ht : t.Below n) :
    Draws logged n (alternatives env level firstSpan first ps t) fun _ _ => True := by
  induction ps generalizing n with
  | nil =>
    rw [alternatives]
    exact .pure fun _ _ => trivial
  | cons p ps ihRest =>
    obtain ⟨head, others⟩ := List.forall_mem_cons.1 ih
    rw [alternatives]
    refine (head henv ht (by simp [BoundBelow])).bind fun names n₁ le₁ hnames => ?_
    split
    · refine (draws_unifyBindings (henv.mono le₁) (hfirst.mono le₁) hnames).bind fun _ n₂ le₂ _ => ?_
      exact ihRest others (henv.mono (by omega)) (hfirst.mono (by omega)) (ht.mono (by omega))
    · exact draws_fail

theorem draws_pattern (p : Pattern) : PatternDraws logged p := by
  induction p using Pattern.induct with
  | wild span =>
    intro env level n t bound henv ht hbound
    rw [pattern]
    exact .pure fun m le => hbound.mono le
  | var name =>
    intro env level n t bound henv ht hbound
    rw [pattern]
    exact draws_bindName ht _ hbound
  | literal value span =>
    intro env level n t bound henv ht hbound
    rw [pattern]
    have hvalue : value.ty.Below n := by cases value <;> exact .const trivial
    exact (draws_unifyAt henv span ht hvalue).bind fun _ n₁ le₁ _ =>
      .pure fun m le => hbound.mono (by omega)
  | constructor name args span ih =>
    intro env level n t bound henv ht hbound
    rw [pattern]
    split
    · exact draws_fail
    · rename_i c hc
      split
      · obtain ⟨hparams, hargs, hresult⟩ := Constructor.mentionsOnly (henv.mentions.constructor? hc)
        refine (draws_freshList level _).bind fun types n₁ le₁ htypes => ?_
        have filled {u : Ty} (hu : u.Below n) :=
          Subst.within_apply_ofPairs (C := (· < n₁))
            (fun v hv => Nat.lt_of_lt_of_le (hparams v hv) le₁) htypes (hu.mono le₁)
        refine (draws_unifyAt (henv.mono le₁) span (ht.mono le₁) (filled hresult)).bind
          fun _ n₂ le₂ _ => ?_
        refine draws_patterns ih (henv.mono (by omega)) (fun u hu => ?_) (hbound.mono (by omega))
        obtain ⟨arg, harg, rfl⟩ := List.mem_map.1 hu
        exact Ty.Below.mono (filled (hargs arg harg)) le₂
      · exact draws_fail
  | record fields span ih =>
    intro env level n t bound henv ht hbound
    rw [pattern]
    refine (draws_resolved ht).bind fun applied n₁ le₁ happlied => ?_
    split
    · exact draws_openFields ih (henv.mono le₁) (everywhere_var.1 happlied) (hbound.mono le₁)
    · split
      · rename_i declared hdeclared
        exact draws_declaredFields _ ih (henv.mono le₁)
          ((henv.mono le₁).mentions.recordFields happlied hdeclared) (hbound.mono le₁)
      · exact (draws_freshFields fields).bind fun _ _ _ _ => draws_fail
  | tuple elements span ih =>
    intro env level n t bound henv ht hbound
    rw [pattern]
    refine (draws_tupleArity ht _ span).bind fun _ n₁ le₁ _ => ?_
    refine (draws_freshList level _).bind fun types n₂ le₂ htypes => ?_
    refine (draws_unifyAt (henv.mono (by omega)) span (ht.mono (by omega))
      (.tuple trivial htypes)).bind fun _ n₃ le₃ _ => ?_
    exact draws_patterns ih (henv.mono (by omega)) (fun t ht => (htypes t ht).mono le₃)
      (hbound.mono (by omega))
  | list elements rest span ih ihRest =>
    intro env level n t bound henv ht hbound
    have listed {n' : Nat} {element : Ty} (h : element.Below n') : (Ty.list element).Below n' :=
      .app trivial (.const trivial) (by simpa using h)
    have repeated {n' : Nat} {element : Ty} (h : element.Below n') :
        ∀ u ∈ List.replicate elements.length element, u.Below n' := fun u hu =>
      List.eq_of_mem_replicate hu ▸ h
    cases rest with
    | none =>
      rw [pattern]
      refine (draws_fresh level).bind fun element n₁ le₁ helement => ?_
      refine (draws_unifyAt (henv.mono le₁) span (ht.mono le₁) (listed helement)).bind
        fun _ n₂ le₂ _ => ?_
      exact draws_patterns ih (henv.mono (by omega)) (repeated (helement.mono le₂))
        (hbound.mono (by omega))
    | some rest =>
      rw [pattern]
      refine (draws_fresh level).bind fun element n₁ le₁ helement => ?_
      refine (draws_unifyAt (henv.mono le₁) span (ht.mono le₁) (listed helement)).bind
        fun _ n₂ le₂ _ => ?_
      refine (draws_patterns ih (henv.mono (by omega)) (repeated (helement.mono le₂))
        (hbound.mono (by omega))).bind fun bound n₃ le₃ hbound => ?_
      exact ihRest rest rfl (henv.mono (by omega)) (listed (helement.mono (by omega))) hbound
  | either ps span ih =>
    intro env level n t bound henv ht hbound
    cases ps with
    | nil =>
      rw [pattern]
      exact draws_fail
    | cons first rest =>
      obtain ⟨head, others⟩ := List.forall_mem_cons.1 ih
      rw [pattern]
      refine (head henv ht (by simp [BoundBelow])).bind fun names n₁ le₁ hnames => ?_
      refine (draws_alternatives _ others (henv.mono le₁) hnames (ht.mono le₁)).bind
        fun _ n₂ le₂ _ => ?_
      exact draws_bindNames (hnames.mono le₂) (hbound.mono (by omega))

theorem draws_checkPattern (henv : env.Drawn n) (p : Pattern) {t : Ty} (ht : t.Below n) :
    Draws logged n (checkPattern env level p t) fun n' bound => ∀ entry ∈ bound, entry.2.Below n' := by
  refine (draws_pattern p henv ht (by simp [BoundBelow])).bind fun bound n₁ _ hbound => ?_
  refine .pure fun m le entry he => ?_
  obtain ⟨given, hgiven, rfl⟩ := List.mem_map.1 he
  exact (hbound given hgiven).mono le

end Patterns

/-! ## Parts of expressions -/

section Parts

variable {logged n : Nat} {env : Env} {level : Nat}

theorem below_const (name : String) : (Ty.const name).Below n := .const trivial

theorem draws_operand (henv : env.Drawn n) (span : Span) (allowed : List String) {t : Ty}
    (ht : t.Below n) : Draws logged n (operand env span allowed t) fun n' u => u.Below n' := by
  refine (draws_resolved ht).bind fun applied n₁ le₁ happlied => ?_
  split
  · exact (draws_unifyAt (henv.mono le₁) span (ht.mono le₁) (below_const _)).bind fun _ _ _ _ =>
      .pure fun _ _ => below_const _
  · split
    · exact .pure fun m le => happlied.mono le
    · exact draws_fail

theorem draws_binary (henv : env.Drawn n) (op : BinaryOp) {left right : Ty} (hleft : left.Below n)
    (hright : right.Below n) (leftSpan rightSpan span : Span) :
    Draws logged n (binary env op left right leftSpan rightSpan span) fun n' t => t.Below n' := by
  have unified {f : Unit → Infer Ty}
      (hf : ∀ n', n ≤ n' → Draws logged n' (f ()) fun n' t => t.Below n') :
      Draws logged n (unifyAt env rightSpan left right >>= f) fun n' t => t.Below n' :=
    (draws_unifyAt henv rightSpan hleft hright).bind fun _ n₁ le₁ _ => hf n₁ le₁
  have both (name : String) : Draws logged n (do
      unifyAt env leftSpan (.const name) left
      unifyAt env rightSpan (.const name) right
      return Ty.const name) fun n' t => t.Below n' :=
    (draws_unifyAt henv _ (below_const name) hleft).bind fun _ n₁ le₁ _ =>
      (draws_unifyAt (henv.mono le₁) _ (below_const name) (hright.mono le₁)).bind fun _ _ _ _ =>
        .pure fun _ _ => below_const name
  cases op with
  | add | sub | mul | div | mod =>
    exact unified fun _ le => draws_operand (henv.mono le) _ _ (hleft.mono le)
  | lt | ltEq | gt | gtEq =>
    exact unified fun _ le => (draws_operand (henv.mono le) _ _ (hleft.mono le)).bind
      fun _ _ _ _ => .pure fun _ _ => below_const _
  | eq | notEq =>
    refine unified fun _ le => (draws_resolved (hleft.mono le)).bind fun _ _ _ _ => ?_
    split
    · exact draws_fail
    · exact .pure fun _ _ => below_const _
  | and | or | concat => exact both _
  | cons =>
    have listed {n' : Nat} (le : n ≤ n') : (Ty.list left).Below n' :=
      .app trivial (.const trivial) (by simpa using hleft.mono le)
    exact (draws_unifyAt henv _ (listed (Nat.le_refl _)) hright).bind fun _ _ le _ =>
      .pure fun _ le' => listed (Nat.le_trans le le')

theorem draws_unary (henv : env.Drawn n) (op : UnaryOp) {t : Ty} (ht : t.Below n)
    (operandSpan span : Span) :
    Draws logged n (unary env op t operandSpan span) fun n' u => u.Below n' := by
  cases op with
  | neg => exact draws_operand henv _ _ ht
  | not =>
    exact (draws_unifyAt henv _ (below_const _) ht).bind fun _ _ _ _ =>
      .pure fun _ _ => below_const _

theorem draws_fieldsAt (henv : env.Drawn n) (span : Span) {t : Ty} (ht : t.Below n) :
    Draws logged n (fieldsAt env span t) fun n' fields => ∀ field ∈ fields, field.2.Below n' := by
  unfold fieldsAt
  split
  · rename_i fields hfields
    exact .pure fun m le field hf => Ty.Below.mono (henv.mentions.recordFields ht hfields field hf) le
  · exact draws_fail

theorem draws_spreadFields (henv : env.Drawn n) (span : Span) {t : Ty} (ht : t.Below n) :
    Draws logged n (spreadFields env span t) fun n' fields => ∀ field ∈ fields, field.2.Below n' := by
  unfold spreadFields
  split
  · rename_i fields hfields
    exact .pure fun m le field hf => Ty.Below.mono (henv.mentions.recordFields ht hfields field hf) le
  · exact draws_fail
  · exact draws_fail

theorem draws_updatedFields {v : TypeVar} (hv : v.id < n) (inits : List FieldInit)
    {fields : List (String × Ty)} (hfields : ∀ field ∈ fields, field.2.Below n) :
    Draws logged n (updatedFields level v inits fields) fun n' fields =>
      ∀ field ∈ fields, field.2.Below n' := by
  induction inits generalizing n fields with
  | nil => exact .pure fun m le field hf => (hfields field hf).mono le
  | cons init rest ih =>
    refine (draws_fieldOf hv _ level).bind fun t n₁ le₁ ht => ih (by omega) fun field hf => ?_
    rcases Assoc.mem_of_mem_insert hf with rfl | hf
    · exact ht
    · exact (hfields field hf).mono le₁

theorem draws_letScope (henv : env.Drawn n) (name : Ident) (written : Option TypeExpr)
    (recursive : Bool) :
    Draws logged n (letScope env level name written recursive) fun n' result =>
      (∀ t, result.1 = some t → t.Below n') ∧ result.2.Drawn n' := by
  have declared : Draws logged n (written.mapM (writtenType env (level + 1))) fun n' result =>
      ∀ t, result = some t → t.Below n' := by
    cases written with
    | none => exact .pure (by simp)
    | some written =>
      refine (draws_writtenType env (level + 1) written).bind fun t n₁ _ ht => .pure fun m le u hu => ?_
      obtain rfl := Option.some.inj hu
      exact ht.mono le
  have bound {n' m : Nat} {t : Ty} (ht : t.Below n') (le : n ≤ n') (le' : n' ≤ m) :
      (∀ u, some t = some u → u.Below m) ∧ (env.extendValue name.name (.mono t)).Drawn m := by
    refine ⟨fun u hu => ?_, (henv.mono (Nat.le_trans le le')).extendValue _
      (Scheme.drawn_mono (ht.mono le'))⟩
    obtain rfl := Option.some.inj hu
    exact ht.mono le'
  refine declared.bind fun declared n₁ le₁ hdeclared => ?_
  split
  · cases declared with
    | none =>
      exact (draws_fresh (level + 1)).bind fun t n₂ le₂ ht =>
        .pure fun m le => bound ht (Nat.le_trans le₁ le₂) le
    | some t => exact .pure fun m le => bound (hdeclared t rfl) le₁ le
  · exact .pure fun m le => ⟨fun t ht => (hdeclared t ht).mono le, henv.mono (Nat.le_trans le₁ le)⟩

theorem draws_settle (name : Ident) (value : Expr) {bound : Ty} (hbound : bound.Below n) :
    Draws logged n (settle env level name value bound) fun n' σ => σ.Drawn n' := by
  have settled {n' : Nat} {σ : Scheme} (hσ : σ.Drawn n') : Draws logged n' (do
      log (.inferred name.name σ)
      return σ) fun n' σ => σ.Drawn n' :=
    (draws_log fun σ t h => by cases h).bind fun _ _ le _ =>
      .pure fun _ le' => hσ.mono (Nat.le_trans le le')
  have quantified {n' : Nat} (le : n ≤ n') : Draws logged n' (do
      let σ ← schemeOf env level bound (value.isValue env)
      if !σ.isPolymorphic then
        lower level bound
      log (.inferred name.name σ)
      return σ) fun n' σ => σ.Drawn n' := by
    refine (draws_schemeOf env level (hbound.mono le) _).bind fun σ n₁ le₁ hσ => ?_
    split
    · exact (draws_lower level (hbound.mono (Nat.le_trans le le₁))).bind fun _ n₂ le₂ _ =>
        settled (hσ.mono le₂)
    · exact settled hσ
  unfold settle
  split
  · exact (draws_closeRecords level hbound _).bind fun _ _ le _ => quantified le
  · exact quantified (Nat.le_refl _)

theorem draws_letScheme (henv : env.Drawn n) (name : Ident) {expected : Option Ty}
    (hexpected : ∀ t, expected = some t → t.Below n) (value : Expr) {t : Ty} (ht : t.Below n) :
    Draws logged n (letScheme env level name expected value t) fun n' σ => σ.Drawn n' := by
  cases expected with
  | none => exact draws_settle name value ht
  | some u =>
    exact (draws_unifyAt henv _ (hexpected u rfl) ht).bind fun _ _ le _ =>
      draws_settle name value ((hexpected u rfl).mono le)

theorem draws_groupTypes (bindings : List GroupBinding) :
    Draws logged n (groupTypes env level bindings) fun n' ts => ∀ t ∈ ts, t.Below n' := by
  induction bindings generalizing n with
  | nil => exact .pure (by simp)
  | cons member rest ih =>
    have first : Draws logged n (writtenTypeOrFresh env (level + 1) member.written) fun n' t =>
        t.Below n' := by
      cases member.written with
      | none => exact draws_fresh _
      | some written => exact draws_writtenType env _ written
    refine first.bind fun t n₁ _ ht => ih.bind fun ts n₂ le₂ hts => .pure fun m le => ?_
    exact List.forall_mem_cons.2 ⟨ht.mono (Nat.le_trans le₂ le), fun u hu => (hts u hu).mono le⟩

theorem draws_closeGroup (members : List GroupBinding) {ts : List Ty} (hts : ∀ t ∈ ts, t.Below n) :
    Draws logged n (closeGroup level members ts) fun _ _ => True := by
  induction members generalizing n ts with
  | nil => exact .pure fun _ _ => trivial
  | cons member members ih =>
    cases ts with
    | nil => exact .pure fun _ _ => trivial
    | cons t ts =>
      obtain ⟨ht, hts⟩ := List.forall_mem_cons.1 hts
      exact (draws_closeRecords level ht _).bind fun _ _ le _ => ih fun u hu => (hts u hu).mono le

theorem draws_groupSchemes (generalizable : Bool) (members : List GroupBinding) {ts : List Ty}
    (hts : ∀ t ∈ ts, t.Below n) :
    Draws logged n (groupSchemes env level generalizable members ts) fun n' schemes =>
      ∀ entry ∈ schemes, entry.2.Drawn n' := by
  induction members generalizing n ts with
  | nil => exact .pure (by simp)
  | cons member members ih =>
    cases ts with
    | nil => exact .pure (by simp)
    | cons t ts =>
      obtain ⟨ht, hts⟩ := List.forall_mem_cons.1 hts
      refine (draws_schemeOf env level ht generalizable).bind fun σ n₁ le₁ hσ => ?_
      refine (draws_log fun σ t h => by cases h).bind fun _ n₂ le₂ _ => ?_
      refine (ih fun u hu => (hts u hu).mono (by omega)).bind fun schemes n₃ le₃ hschemes => ?_
      exact .pure fun m le => List.forall_mem_cons.2
        ⟨hσ.mono (by omega), fun entry he => (hschemes entry he).mono le⟩

theorem draws_lowerGroup {ts : List Ty} (hts : ∀ t ∈ ts, t.Below n) :
    Draws logged n (lowerGroup level ts) fun _ _ => True := by
  induction ts generalizing n with
  | nil => exact .pure fun _ _ => trivial
  | cons t ts ih =>
    obtain ⟨ht, hts⟩ := List.forall_mem_cons.1 hts
    exact (draws_lower level ht).bind fun _ _ le _ => ih fun u hu => (hts u hu).mono le

theorem draws_finishGroup (members : List GroupBinding) {types : List Ty}
    (htypes : ∀ t ∈ types, t.Below n) :
    Draws logged n (finishGroup env level members types) fun n' schemes =>
      ∀ entry ∈ schemes, entry.2.Drawn n' := by
  have later {n' : Nat} (le : n ≤ n') : ∀ t ∈ types, t.Below n' := fun t ht => (htypes t ht).mono le
  have finish {n' : Nat} (le : n ≤ n') (generalizable : Bool) : Draws logged n' (do
      let schemes ← groupSchemes env level generalizable members types
      if !generalizable then
        lowerGroup level types
      return schemes) fun n' schemes => ∀ entry ∈ schemes, entry.2.Drawn n' := by
    refine (draws_groupSchemes generalizable members (later le)).bind fun schemes n₁ le₁ hschemes => ?_
    split
    · exact (draws_lowerGroup (later (Nat.le_trans le le₁))).bind fun _ n₂ le₂ _ =>
        .pure fun m le entry he => (hschemes entry he).mono (Nat.le_trans le₂ le)
    · exact .pure fun m le entry he => (hschemes entry he).mono le
  unfold finishGroup
  dsimp only
  split
  · exact (draws_closeGroup members htypes).bind fun _ _ le _ => finish le _
  · exact finish (Nat.le_refl _) _

end Parts

/-! ## Expressions -/

def ExprDraws (logged : Nat) (e : Expr) : Prop :=
  ∀ {env level n}, env.Drawn n → Draws logged n (expr env level e) fun n' t => t.Below n'

section Expressions

variable {logged n : Nat} {env : Env} {level : Nat} (henv : env.Drawn n)

include henv

theorem draws_exprs {es : List Expr} (ih : ∀ e ∈ es, ExprDraws logged e) :
    Draws logged n (exprs env level es) fun n' ts => ∀ t ∈ ts, t.Below n' := by
  induction es generalizing n with
  | nil =>
    rw [exprs]
    exact .pure (by simp)
  | cons e es ihRest =>
    obtain ⟨first, others⟩ := List.forall_mem_cons.1 ih
    rw [exprs]
    refine (first henv).bind fun t n₁ le₁ ht => ?_
    refine (ihRest (henv.mono le₁) others).bind fun ts n₂ le₂ hts => .pure fun m le => ?_
    exact List.forall_mem_cons.2 ⟨ht.mono (Nat.le_trans le₂ le), fun u hu => (hts u hu).mono le⟩

theorem draws_arguments {es : List Expr} (ih : ∀ e ∈ es, ExprDraws logged e) {params : List Ty}
    (hparams : ∀ t ∈ params, t.Below n) :
    Draws logged n (arguments env level es params) fun _ _ => True := by
  induction es generalizing n params with
  | nil =>
    unfold arguments
    exact .pure fun _ _ => trivial
  | cons e es ihRest =>
    cases params with
    | nil =>
      unfold arguments
      exact .pure fun _ _ => trivial
    | cons param params =>
      obtain ⟨first, others⟩ := List.forall_mem_cons.1 ih
      obtain ⟨hparam, hparams⟩ := List.forall_mem_cons.1 hparams
      rw [arguments]
      refine (first henv).bind fun t n₁ le₁ ht => ?_
      refine (draws_unifyAt (henv.mono le₁) _ (hparam.mono le₁) ht).bind fun _ n₂ le₂ _ => ?_
      exact ihRest (henv.mono (by omega)) others fun u hu => (hparams u hu).mono (by omega)

theorem draws_elements {element : Ty} (helement : element.Below n) {es : List Expr}
    (ih : ∀ e ∈ es, ExprDraws logged e) :
    Draws logged n (elements env level element es) fun _ _ => True := by
  rw [elements_eq]
  exact draws_arguments henv ih fun t ht => List.eq_of_mem_replicate ht ▸ helement

theorem draws_members {bindings : List GroupBinding}
    (ih : ∀ b ∈ bindings, ExprDraws logged b.value) {ts : List Ty} (hts : ∀ t ∈ ts, t.Below n) :
    Draws logged n (members env level bindings ts) fun _ _ => True := by
  rw [members_eq]
  exact draws_arguments henv (List.forall_mem_map.2 ih) hts

theorem draws_guardOf {guard : Option Expr} (ih : ∀ e, guard = some e → ExprDraws logged e) :
    Draws logged n (guardOf env level guard) fun _ _ => True := by
  cases guard with
  | none =>
    rw [guardOf]
    exact .pure fun _ _ => trivial
  | some guard =>
    rw [guardOf]
    refine (ih guard rfl henv).bind fun t n₁ le₁ ht => draws_getSubst.bind fun s n₂ le₂ hs => ?_
    split
    · rename_i s' h
      refine draws_setSubst (hs.unify (fun t t' ht => ?_) (below_const _) (ht.mono le₂) h)
      exact (henv.mono (Nat.le_trans le₁ le₂)).mentions.expand ht
    · exact draws_fail

theorem draws_arms {scrutinee result : Ty} (hscrutinee : scrutinee.Below n)
    (hresult : result.Below n) {cases : List Arm} (ih : ∀ arm ∈ cases, arm.Each (ExprDraws logged)) :
    Draws logged n (arms env level scrutinee result cases) fun _ _ => True := by
  induction cases generalizing n with
  | nil =>
    rw [arms]
    exact .pure fun _ _ => trivial
  | cons arm rest ihRest =>
    obtain ⟨p, guard, body, span⟩ := arm
    obtain ⟨⟨ihGuard, ihBody⟩, others⟩ := List.forall_mem_cons.1 ih
    rw [arms]
    refine (draws_checkPattern henv p hscrutinee).bind fun bound n₁ le₁ hbound => ?_
    have hscope := (henv.mono le₁).extendMono hbound
    refine (draws_guardOf hscope ihGuard).bind fun _ n₂ le₂ _ => ?_
    refine (ihBody (hscope.mono le₂)).bind fun t n₃ le₃ ht => ?_
    refine (draws_unifyAt (henv.mono (by omega)) _ (hresult.mono (by omega)) ht).bind
      fun _ n₄ le₄ _ => ?_
    exact ihRest (henv.mono (by omega)) (hscrutinee.mono (by omega)) (hresult.mono (by omega)) others

theorem draws_entries {parts : List Entry} (ih : ∀ entry ∈ parts, entry.Each (ExprDraws logged))
    {fields : List (String × Ty)} (hfields : ∀ field ∈ fields, field.2.Below n) :
    Draws logged n (entries env level parts fields) fun n' fields =>
      ∀ field ∈ fields, field.2.Below n' := by
  induction parts generalizing n fields with
  | nil =>
    rw [entries]
    exact .pure fun m le field hf => (hfields field hf).mono le
  | cons entry rest ihRest =>
    obtain ⟨first, others⟩ := List.forall_mem_cons.1 ih
    cases entry with
    | field init =>
      obtain ⟨name, value, span⟩ := init
      rw [entries]
      refine (first henv).bind fun t n₁ le₁ ht => ihRest (henv.mono le₁) others fun field hf => ?_
      rcases Assoc.mem_of_mem_insert hf with rfl | hf
      · exact ht
      · exact (hfields field hf).mono le₁
    | spread base =>
      rw [entries]
      refine (first henv).bind fun t n₁ le₁ ht => (draws_resolved ht).bind
        fun applied n₂ le₂ happlied => ?_
      refine (draws_spreadFields (henv.mono (by omega)) _ happlied).bind
        fun spread n₃ le₃ hspread => ihRest (henv.mono (by omega)) others fun field hf => ?_
      rcases Assoc.mem_of_mem_insertAll hf with hf | hf
      · exact hspread field hf
      · exact (hfields field hf).mono (by omega)

theorem draws_updates (record : Ty) {declared : List (String × Ty)}
    (hdeclared : ∀ field ∈ declared, field.2.Below n) {inits : List FieldInit}
    (ih : ∀ init ∈ inits, ExprDraws logged init.value) :
    Draws logged n (updates env level record declared inits) fun _ _ => True := by
  induction inits generalizing n with
  | nil =>
    rw [updates]
    exact .pure fun _ _ => trivial
  | cons init rest ihRest =>
    obtain ⟨name, value, span⟩ := init
    obtain ⟨first, others⟩ := List.forall_mem_cons.1 ih
    rw [updates]
    split
    · exact draws_fail
    · rename_i expected hget
      have hexpected := hdeclared _ (Assoc.mem_of_get? hget)
      refine (first henv).bind fun t n₁ le₁ ht => ?_
      refine (draws_unifyAt (henv.mono le₁) _ (hexpected.mono le₁) ht).bind fun _ n₂ le₂ _ => ?_
      exact ihRest (henv.mono (by omega)) (fun field hf => (hdeclared field hf).mono (by omega)) others

theorem draws_letBinding (name : Ident) (written : Option TypeExpr) {value : Expr}
    (ih : ExprDraws logged value) (recursive : Bool) :
    Draws logged n (letBinding env level name written value recursive) fun n' σ => σ.Drawn n' := by
  refine draws_drawnSoFar.bind fun drawn n₁ le₁ _ => ?_
  refine (draws_letScope (henv.mono le₁) name written recursive).bind
    fun result n₂ le₂ ⟨hexpected, hscope⟩ => ?_
  refine (ih hscope).bind fun t n₃ le₃ ht => ?_
  refine (draws_letScheme (henv.mono (by omega)) name
    (fun u hu => (hexpected u hu).mono le₃) value ht).bind fun σ n₄ le₄ hσ => ?_
  exact (draws_noteSchemes env drawn [σ]).bind fun _ n₅ le₅ _ =>
    .pure fun m le => hσ.mono (Nat.le_trans le₅ le)

theorem draws_group {bindings : List GroupBinding}
    (ih : ∀ b ∈ bindings, ExprDraws logged b.value) :
    Draws logged n (group env level bindings) fun n' schemes =>
      ∀ entry ∈ schemes, entry.2.Drawn n' := by
  refine draws_drawnSoFar.bind fun drawn n₁ le₁ _ => ?_
  refine (draws_groupTypes bindings).bind fun types n₂ le₂ htypes => ?_
  have hscope := (henv.mono (Nat.le_trans le₁ le₂)).extendZip (bindings.map (·.name.name)) htypes
  refine (draws_members hscope ih htypes).bind fun _ n₃ le₃ _ => ?_
  refine (draws_finishGroup bindings fun t ht => (htypes t ht).mono le₃).bind
    fun schemes n₄ le₄ hschemes => ?_
  exact (draws_noteSchemes env drawn _).bind fun _ n₅ le₅ _ =>
    .pure fun m le entry he => (hschemes entry he).mono (Nat.le_trans le₅ le)

omit henv in
theorem draws_expr (e : Expr) : ExprDraws logged e := by
  induction e using Expr.induct with
  | literal value span =>
    intro env level n henv
    rw [expr]
    exact .pure fun m le => by cases value <;> exact below_const _
  | var name =>
    intro env level n henv
    rw [expr]
    split
    · rename_i binding found
      exact draws_instantiate (henv.lookup found) level
    · refine draws_get.bind fun p _ _ _ => ?_
      split
      · exact draws_fail
      · exact draws_fail
  | lambda params body span ih =>
    intro env level n henv
    rw [expr]
    refine (draws_params env (level + 1) params).bind fun types n₁ le₁ htypes => ?_
    refine (ih ((henv.mono le₁).extendZip _ htypes)).bind fun result n₂ le₂ hresult => ?_
    exact .pure fun m le => .func trivial (fun t ht => (htypes t ht).mono (by omega))
      (hresult.mono le)
  | apply function args span ihFunction ihArgs =>
    intro env level n henv
    rw [expr]
    refine (ihFunction henv).bind fun t n₁ le₁ ht => (draws_resolved ht).bind
      fun applied n₂ le₂ happlied => ?_
    -- Definitions mention their own parameters only, so following names brings in no variable.
    have hcallee := (henv.mono (Nat.le_trans le₁ le₂)).mentions.callee happlied
    split
    · rename_i params result heq
      rw [heq] at hcallee
      obtain ⟨-, hparams, hresult⟩ := everywhere_func.1 hcallee
      split
      · exact draws_fail
      · refine (draws_arguments (henv.mono (by omega)) ihArgs hparams).bind fun _ n₃ le₃ _ => ?_
        refine .pure fun m le => ?_
        have hm : n₂ ≤ m := Nat.le_trans le₃ le
        split
        · exact Ty.Below.mono hresult hm
        · exact .func trivial (fun u hu => Ty.Below.mono (hparams u (List.mem_of_mem_drop hu)) hm)
            (Ty.Below.mono hresult hm)
    · rename_i v heq
      rw [heq] at hcallee
      refine (draws_exprs (henv.mono (by omega)) ihArgs).bind fun types n₃ le₃ htypes => ?_
      refine (draws_fresh level).bind fun result n₄ le₄ hresult => ?_
      refine (draws_unifyAt (henv.mono (by omega)) _ (Ty.Below.mono hcallee (by omega))
        (.func trivial (fun u hu => (htypes u hu).mono le₄) hresult)).bind fun _ n₅ le₅ _ => ?_
      exact .pure fun m le => hresult.mono (Nat.le_trans le₅ le)
    · exact (draws_freshList level _).bind fun _ _ _ _ => (draws_fresh level).bind
        fun _ _ _ _ => draws_fail
  | letIn name written value recursive body span ihValue ihBody =>
    intro env level n henv
    rw [World.expr_letIn]
    refine (draws_letBinding henv name written ihValue recursive).bind fun σ n₁ le₁ hσ => ?_
    exact ihBody ((henv.mono le₁).extendValue _ hσ)
  | letGroup bindings body span ihValues ihBody =>
    intro env level n henv
    rw [World.expr_letGroup]
    refine (draws_group henv ihValues).bind fun schemes n₁ le₁ hschemes => ?_
    exact ihBody ((henv.mono le₁).extendAll hschemes)
  | cond condition thenBranch elseBranch span ihCondition ihThen ihElse =>
    intro env level n henv
    rw [expr]
    refine (ihCondition henv).bind fun t n₁ le₁ ht => ?_
    refine (draws_unifyAt (henv.mono le₁) _ (below_const _) ht).bind fun _ n₂ le₂ _ => ?_
    refine (ihThen (henv.mono (by omega))).bind fun thenType n₃ le₃ hthen => ?_
    refine (ihElse (henv.mono (by omega))).bind fun elseType n₄ le₄ helse => ?_
    refine (draws_unifyAt (henv.mono (by omega)) _ (hthen.mono le₄) helse).bind fun _ n₅ le₅ _ => ?_
    exact .pure fun m le => hthen.mono (by omega)
  | block parts span ih =>
    intro env level n henv
    rw [expr]
    refine (draws_exprs henv ih).bind fun ts n₁ le₁ hts => .pure fun m le => ?_
    rcases List.eq_nil_or_concat ts with rfl | ⟨front, last, rfl⟩
    · exact below_const _
    · simpa using (hts last (by simp)).mono le
  | case scrutinee cases span ihScrutinee ihArms =>
    intro env level n henv
    rw [expr]
    refine (ihScrutinee henv).bind fun t n₁ le₁ ht => ?_
    refine (draws_fresh level).bind fun result n₂ le₂ hresult => ?_
    refine (draws_arms (henv.mono (by omega)) (ht.mono le₂) hresult ihArms).bind fun _ n₃ le₃ _ => ?_
    refine draws_getSubst.bind fun s n₄ le₄ _ => ?_
    dsimp only
    split
    · exact draws_fail
    · exact .pure fun m le => hresult.mono (by omega)
  | record parts span ih =>
    intro env level n henv
    rw [expr]
    refine (draws_entries henv ih (by simp)).bind fun fields n₁ le₁ hfields => .pure fun m le => ?_
    exact .record trivial fun field hf => (hfields field hf).mono le
  | update base inits span ihBase ihInits =>
    intro env level n henv
    have finish (applied : Ty) {t : Ty} {n' : Nat} (le : n ≤ n') (ht : t.Below n')
        {declared : List (String × Ty)} (hdeclared : ∀ field ∈ declared, field.2.Below n') :
        Draws logged n' (do
          updates env level applied declared inits
          return t) fun n' t => t.Below n' :=
      (draws_updates (henv.mono le) applied hdeclared ihInits).bind fun _ _ le _ =>
        .pure fun _ le' => ht.mono (Nat.le_trans le le')
    rw [expr]
    refine (ihBase henv).bind fun t n₁ le₁ ht => (draws_resolved ht).bind
      fun applied n₂ le₂ happlied => ?_
    split
    · exact (draws_updatedFields (everywhere_var.1 happlied) inits (by simp)).bind
        fun declared n₃ le₃ hdeclared => finish _ (by omega) (ht.mono (by omega)) hdeclared
    · exact (draws_fieldsAt (henv.mono (by omega)) _ happlied).bind
        fun declared n₃ le₃ hdeclared => finish _ (by omega) (ht.mono (by omega)) hdeclared
  | field object name span ih =>
    intro env level n henv
    rw [expr]
    refine (ih henv).bind fun t n₁ le₁ ht => (draws_resolved ht).bind
      fun applied n₂ le₂ happlied => ?_
    split
    · exact draws_fieldOf (everywhere_var.1 happlied) name level
    · refine (draws_fieldsAt (henv.mono (by omega)) _ happlied).bind fun fields n₃ le₃ hfields => ?_
      split
      · rename_i u hget
        exact .pure fun m le => (hfields _ (Assoc.mem_of_get? hget)).mono le
      · exact draws_fail
  | tuple parts span ih =>
    intro env level n henv
    rw [expr]
    exact (draws_exprs henv ih).bind fun ts n₁ le₁ hts =>
      .pure fun m le => .tuple trivial fun t ht => (hts t ht).mono le
  | list parts span ih =>
    intro env level n henv
    rw [expr]
    refine (draws_fresh level).bind fun element n₁ le₁ helement => ?_
    refine (draws_elements (henv.mono le₁) helement ih).bind fun _ n₂ le₂ _ => .pure fun m le => ?_
    exact .app trivial (below_const _) (by simpa using helement.mono (Nat.le_trans le₂ le))
  | makeRef value span ih =>
    intro env level n henv
    rw [expr]
    exact (ih henv).bind fun t n₁ le₁ ht =>
      .pure fun m le => .app trivial (below_const _) (by simpa using ht.mono le)
  | deref reference span ih =>
    intro env level n henv
    rw [expr]
    refine (ih henv).bind fun t n₁ le₁ ht => (draws_fresh level).bind
      fun content n₂ le₂ hcontent => ?_
    refine (draws_unifyAt (henv.mono (by omega)) _
      (.app trivial (below_const _) (by simpa using hcontent)) (ht.mono le₂)).bind
      fun _ n₃ le₃ _ => ?_
    exact .pure fun m le => hcontent.mono (Nat.le_trans le₃ le)
  | assign target value span ihTarget ihValue =>
    intro env level n henv
    rw [expr]
    refine (ihTarget henv).bind fun t n₁ le₁ ht => (draws_fresh level).bind
      fun content n₂ le₂ hcontent => ?_
    refine (draws_unifyAt (henv.mono (by omega)) _
      (.app trivial (below_const _) (by simpa using hcontent)) (ht.mono le₂)).bind
      fun _ n₃ le₃ _ => ?_
    refine (ihValue (henv.mono (by omega))).bind fun valueType n₄ le₄ hvalue => ?_
    exact (draws_unifyAt (henv.mono (by omega)) _ (hcontent.mono (by omega)) hvalue).bind
      fun _ _ _ _ => .pure fun _ _ => below_const _
  | binary op left right span ihLeft ihRight =>
    intro env level n henv
    rw [expr]
    refine (ihLeft henv).bind fun leftType n₁ le₁ hleft => ?_
    refine (ihRight (henv.mono le₁)).bind fun rightType n₂ le₂ hright => ?_
    exact draws_binary (henv.mono (by omega)) op (hleft.mono le₂) hright _ _ span
  | unary op operand span ih =>
    intro env level n henv
    rw [expr]
    exact (ih henv).bind fun t n₁ le₁ ht => draws_unary (henv.mono le₁) op ht _ span
  | annotated inner written span ih =>
    intro env level n henv
    rw [expr]
    refine (ih henv).bind fun t n₁ le₁ ht => ?_
    refine (draws_writtenType env level written).bind fun expected n₂ le₂ hexpected => ?_
    exact (draws_unifyAt (henv.mono (by omega)) _ hexpected (ht.mono le₂)).bind
      fun _ n₃ le₃ _ => .pure fun m le => hexpected.mono (Nat.le_trans le₃ le)

end Expressions

end Infer

end Polytype
