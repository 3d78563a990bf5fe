import Mathlib
import Polytype.Proofs.Env.Expansion
import Polytype.Proofs.Inference.History
import Polytype.Proofs.Inference.Steps
import Polytype.Proofs.Subst.Retention

namespace Polytype

open Ty

/-- Definitions and constructors mention their own parameters only. -/
structure Env.Sealed (env : Env) : Prop where
  types : ∀ {params target}, env.Target params target → ∀ v ∈ target.vars, ∃ p ∈ params, p.id = v.id
  constructors : ∀ {name c}, env.constructor? name = some c → ∀ t ∈ c.result :: c.args,
    ∀ v ∈ t.vars, ∃ p ∈ c.params, p.id = v.id

/-- No field of the variable leads back to it, and no undrawn variable leads to it. -/
structure Progress.Acyclic (p : Progress) (id : Nat) : Prop where
  fields : ∀ other, p.subst.Step id other → ¬p.subst.Leads other id
  undrawn : ∀ other, p.next ≤ other → ¬p.subst.Leads other id

/-- Whatever is bound to members of `C`, or recorded for them or for `v`, stays within `C`, and the
undrawn variables belong to `C`. -/
structure Progress.Confined (C : Nat → Prop) (v : Nat) (p : Progress) : Prop where
  resolved : p.subst.Resolved
  keeps : p.subst.Keeps (fun id => C id ∨ id = v) (Within C)
  stale : p.subst.Stale (fun id => C id ∨ id = v) (Within C)
  undrawn : ∀ id, p.next ≤ id → C id
  unbound : p.subst.isBound v = false

theorem Progress.Acyclic.confined {p : Progress} {v : Nat} (h : p.Acyclic v)
    (resolved : p.subst.Resolved) (unbound : p.subst.isBound v = false) :
    p.Confined (p.subst.Avoids (· = v)) v := by
  have closed := p.subst.closed_avoids (· = v)
  have recorded {id : Nat} {fields : List (String × Ty)}
      (hid : p.subst.Avoids (· = v) id ∨ id = v) (hf : p.subst.records.get? id = some fields) :
      Within (p.subst.Avoids (· = v)) (.record fields) := by
    rcases hid with hid | rfl
    · exact closed.records hid hf
    · refine .record trivial fun field hfield => within_iff.2 fun w hw => ?_
      rintro _ rfl
      exact h.fields w.id (.field hf hfield (mentions_iff.2 ⟨w, hw, rfl⟩))
  refine ⟨resolved, ⟨fun {id t} hid ht => ?_, fun hid _ hf => recorded hid hf⟩,
    fun id fields hid _ hf => recorded hid hf, ?_, unbound⟩
  · rcases hid with hid | rfl
    · exact closed.types hid ht
    · simp [Subst.isBound_eq_false.1 unbound] at ht
  · rintro id hid _ rfl
    exact h.undrawn id hid

theorem Env.Sealed.recordFields {env : Env} (h : env.Sealed) {C : Nat → Prop} {t : Ty}
    (ht : Within C t) {fields : List (String × Ty)} (hf : env.recordFields t = some fields) :
    Within C (.record fields) :=
  Env.recordFields_induction (Env.within_expand h.types) ht hf

/-! ## What keeps to the set -/

namespace Progress.Confined

variable {C : Nat → Prop} {v : Nat} {p : Progress} (hp : p.Confined C v)

theorem hereditary : Hereditary (fun id => C id ∨ id = v) anyLevel (Within C) :=
  hereditary_allVars (fun _ h => .inl h) fun _ _ h _ _ => h

include hp

theorem apply {t : Ty} (ht : Within C t) : Within C (p.subst.apply t) :=
  hp.keeps.apply hereditary (Subst.levelsAbove_zero _) ht

theorem knownField {w : TypeVar} (hw : C w.id ∨ w.id = v) {field : String} {t : Ty}
    (h : p.subst.knownField w field = some t) : Within C t := by
  obtain ⟨u, hu, rfl⟩ := Option.map_eq_some_iff.1 h
  obtain ⟨fields, hfields, hu⟩ := Option.bind_eq_some_iff.1 hu
  have recorded : Within C (.record fields) := by
    cases hbound : p.subst.isBound w.id with
    | false => exact hp.keeps.records hw hbound hfields
    | true => exact hp.stale w.id fields hw hbound hfields
  exact hp.apply ((everywhere_record.1 recorded).2 _ (Assoc.mem_of_get? hu))

theorem requireField (w : TypeVar) (field : String) {t : Ty} (ht : Within C t)
    (history : List Milestone) :
    Confined C v { p with subst := p.subst.requireField w field t, history } := by
  have single : Within C (.record [(field, t)]) := .record trivial (by simpa using ht)
  exact ⟨Subst.resolved_requireField hp.resolved w field t,
    hp.keeps.requireField hereditary single (Subst.levelsAbove_zero _),
    hp.stale.requireField (@hereditary C v) single, hp.undrawn, by simpa using hp.unbound⟩

theorem evolve (hv : ¬C v) {definition : Ty → Option Ty} {inputs : List Ty} {s : Subst}
    (evolves : Subst.Evolves definition inputs p.subst s)
    (hdef : ∀ t u, Within C t → definition t = some u → Within C u)
    (hinputs : ∀ t ∈ inputs, Within C t) (history : List Milestone) :
    Confined C v { p with subst := s, history } := by
  have ext := evolves.extension hereditary hdef (Subst.levelsAbove_zero s) hp.resolved hp.keeps
    hinputs
  -- The variable itself is not in the set, so by the same run it stays unbound.
  have within : p.subst.Keeps C (Within C) :=
    ⟨fun hid ht => hp.keeps.types (.inl hid) ht,
      fun hid unbound hf => hp.keeps.records (.inl hid) unbound hf⟩
  have frame := (evolves.extension (hereditary_within C) hdef (Subst.levelsAbove_zero s) hp.resolved
    within hinputs).frame v hv
  exact ⟨ext.resolved, ext.keeps, ext.stale hp.stale, hp.undrawn, frame.trans hp.unbound⟩

end Progress.Confined

theorem Progress.Steps.retains {scopes : Env → Prop} {p q : Progress} (h : Steps scopes p q) :
    p.subst.Retains q.subst := by
  induction h with
  | refl => exact .refl _
  | tail _ step ih =>
    cases step with
    | draw | log | note => exact ih
    | solve => exact ih.trans (Subst.retains_outcome (Subst.Operation.outcome_run _ _))

namespace Infer

open Progress

def Maintains {α : Type} (I : Progress → Prop) (m : Infer α) (P : α → Prop) : Prop :=
  ∀ p a q, I p → m p = .ok a q → I q ∧ P a

section Maintains

variable {α β : Type} {I : Progress → Prop} {P : α → Prop}

theorem Maintains.pure {a : α} (h : P a) : Maintains I (pure a) P := by
  intro p b q hp run
  obtain ⟨rfl, rfl⟩ := EStateM.Result.ok.inj (run : EStateM.Result.ok a p = .ok b q)
  exact ⟨hp, h⟩

theorem Maintains.bind {m : Infer α} {f : α → Infer β} {Q : β → Prop} (h : Maintains I m P)
    (hf : ∀ a, P a → Maintains I (f a) Q) : Maintains I (m >>= f) Q := by
  intro p b q hp run
  obtain ⟨a, mid, hm, run⟩ := exists_of_bind run
  obtain ⟨hmid, ha⟩ := h p a mid hp hm
  exact hf a ha mid b q hmid run

theorem Maintains.getSubst {f : Subst → Infer α}
    (h : ∀ p, I p → ∀ a q, f p.subst p = .ok a q → I q ∧ P a) : Maintains I (getSubst >>= f) P :=
  fun p a q hp run => h p hp a q run

theorem maintains_fail {cause : Cause} {span : Span} {hint : Option Hint} {related : List Span} :
    Maintains I (fail cause span hint related : Infer α) P := by
  intro p a q _ run
  cases run

end Maintains

/-! ## Confined runs -/

section Confined

variable {C : Nat → Prop} {v : Nat} (hv : ¬C v)

theorem maintains_fresh (level : Nat) : Maintains (Confined C v) (fresh level) (Within C) := by
  intro p t q hp run
  obtain ⟨rfl, rfl⟩ := EStateM.Result.ok.inj
    (run : EStateM.Result.ok (.var ⟨p.next, level⟩) { p with next := p.next + 1 } = .ok t q)
  refine ⟨⟨hp.resolved, hp.keeps, hp.stale, fun id hid => ?_, hp.unbound⟩,
    .var (hp.undrawn p.next (Nat.le_refl _))⟩
  exact hp.undrawn id (Nat.le_of_succ_le hid)

theorem maintains_freshList (level count : Nat) :
    Maintains (Confined C v) (freshList level count) fun ts =>
      ts.length = count ∧ ∀ t ∈ ts, Within C t := by
  induction count with
  | zero => exact .pure ⟨rfl, by simp⟩
  | succ count ih =>
    refine (maintains_fresh level).bind fun t ht => ih.bind fun ts hts => ?_
    exact .pure ⟨congrArg (· + 1) hts.1, List.forall_mem_cons.2 ⟨ht, hts.2⟩⟩

theorem maintains_resolved {t : Ty} (ht : Within C t) :
    Maintains (Confined C v) (resolved t) (Within C) := by
  intro p u q hp run
  obtain ⟨rfl, rfl⟩ := EStateM.Result.ok.inj
    (run : EStateM.Result.ok (p.subst.apply t) p = .ok u q)
  exact ⟨hp, hp.apply ht⟩

include hv in
theorem maintains_unifyAt {env : Env} (sealed : env.Sealed) (span : Span) {expected actual : Ty}
    (hexpected : Within C expected) (hactual : Within C actual) :
    Maintains (Confined C v) (unifyAt env span expected actual) fun _ => True := by
  refine .getSubst fun p hp a q run => ?_
  cases h : unify env.expand expected actual p.subst with
  | error clash =>
    simp only [h] at run
    cases run
  | ok s =>
    simp only [h] at run
    obtain ⟨rfl, rfl⟩ := EStateM.Result.ok.inj (run : EStateM.Result.ok _ _ = .ok a q)
    refine ⟨hp.evolve hv (Subst.evolves_unify h) (fun _ _ => Env.within_expand sealed.types) ?_ _,
      trivial⟩
    simp [hexpected, hactual]

theorem maintains_fieldOf {w : TypeVar} (hw : C w.id ∨ w.id = v) (field : String) (level : Nat) :
    Maintains (Confined C v) (fieldOf w field level) (Within C) := by
  refine .getSubst fun p hp t q run => ?_
  cases h : p.subst.knownField w field with
  | some known =>
    simp only [h] at run
    exact Maintains.pure (hp.knownField hw h) p t q hp run
  | none =>
    simp only [h] at run
    refine (maintains_fresh level).bind (fun fresh hfresh => ?_) p t q hp run
    intro p t q hp run
    obtain ⟨rfl, rfl⟩ := EStateM.Result.ok.inj (run : EStateM.Result.ok _ _ = .ok t q)
    exact ⟨hp.requireField w field hfresh _, hfresh⟩

end Confined

/-! ## Patterns in a confined run -/

section Patterns

variable {C : Nat → Prop} {v : Nat} (hv : ¬C v) {env : Env} (sealed : env.Sealed) {level : Nat}

abbrev BoundWithin (C : Nat → Prop) (bound : PatternBindings) : Prop :=
  ∀ entry ∈ bound, Within C entry.2.1

theorem maintains_bindName {name : String} {t : Ty} (ht : Within C t) (span : Span)
    {bound : PatternBindings} (hbound : BoundWithin C bound) :
    Maintains (Confined C v) (bindName name t span bound) (BoundWithin C) := by
  unfold bindName
  split
  · exact maintains_fail
  · refine .pure fun entry hentry => ?_
    rcases Assoc.mem_of_mem_insert hentry with rfl | hentry
    · exact ht
    · exact hbound entry hentry

theorem maintains_bindNames {names bound : PatternBindings} (hnames : BoundWithin C names)
    (hbound : BoundWithin C bound) :
    Maintains (Confined C v) (bindNames names bound) (BoundWithin C) := by
  induction names generalizing bound with
  | nil => exact .pure hbound
  | cons entry rest ih =>
    obtain ⟨ht, hrest⟩ := List.forall_mem_cons.1 hnames
    rw [bindNames]
    exact (maintains_bindName ht _ hbound).bind fun bound hbound => ih hrest hbound

theorem maintains_tupleArity {t : Ty} (ht : Within C t) (arity : Nat) (span : Span) :
    Maintains (Confined C v) (tupleArity t arity span) fun _ => True := by
  refine (maintains_resolved ht).bind fun applied _ => ?_
  split
  · split
    · exact .pure trivial
    · exact maintains_fail
  · exact .pure trivial

include hv sealed

theorem maintains_unifyBindings {first names : PatternBindings} (hfirst : BoundWithin C first)
    (hnames : BoundWithin C names) :
    Maintains (Confined C v) (unifyBindings env first names) fun _ => True := by
  induction names with
  | nil => exact .pure trivial
  | cons entry rest ih =>
    obtain ⟨name, t, span⟩ := entry
    obtain ⟨ht, hrest⟩ := List.forall_mem_cons.1 hnames
    simp only [unifyBindings]
    split
    · rename_i hget
      refine (maintains_unifyAt hv sealed span ?_ ht).bind fun _ _ => ih hrest
      exact hfirst _ (Assoc.mem_of_get? hget)
    · exact ih hrest

abbrev PatternConfined (C : Nat → Prop) (v : Nat) (env : Env) (level : Nat) (p : Pattern) : Prop :=
  ∀ {t bound}, Within C t → BoundWithin C bound →
    Maintains (Confined C v) (pattern env level p t bound) (BoundWithin C)

omit hv sealed in
theorem maintains_patterns {ps : List Pattern} (ih : ∀ p ∈ ps, PatternConfined C v env level p)
    {ts : List Ty} (hts : ∀ t ∈ ts, Within C t) {bound : PatternBindings}
    (hbound : BoundWithin C bound) :
    Maintains (Confined C v) (patterns env level ps ts bound) (BoundWithin C) := by
  induction ps generalizing ts bound with
  | nil =>
    unfold patterns
    exact .pure hbound
  | cons p ps ihRest =>
    unfold patterns
    cases ts with
    | nil => exact .pure hbound
    | cons t ts =>
      obtain ⟨ht, hts⟩ := List.forall_mem_cons.1 hts
      refine (ih p List.mem_cons_self ht hbound).bind fun bound hbound => ?_
      exact ihRest (fun p hp => ih p (List.mem_cons_of_mem _ hp)) hts hbound

omit hv sealed in
theorem maintains_openFields {w : TypeVar} (hw : C w.id ∨ w.id = v) {fields : List FieldPattern}
    (ih : ∀ field ∈ fields, PatternConfined C v env level field.pattern) {bound : PatternBindings}
    (hbound : BoundWithin C bound) :
    Maintains (Confined C v) (openFields env level w fields bound) (BoundWithin C) := by
  induction fields generalizing bound with
  | nil =>
    rw [openFields]
    exact .pure hbound
  | cons field rest ihRest =>
    obtain ⟨name, p, span⟩ := field
    rw [openFields]
    refine (maintains_fieldOf hw name level).bind fun t ht => ?_
    refine (ih _ List.mem_cons_self ht hbound).bind fun bound hbound => ?_
    exact ihRest (fun field hfield => ih field (List.mem_cons_of_mem _ hfield)) hbound

omit hv sealed in
theorem maintains_declaredFields (record : Ty) {declared : List (String × Ty)}
    (hdeclared : Within C (.record declared)) {fields : List FieldPattern}
    (ih : ∀ field ∈ fields, PatternConfined C v env level field.pattern) {bound : PatternBindings}
    (hbound : BoundWithin C bound) :
    Maintains (Confined C v) (declaredFields env level record declared fields bound)
      (BoundWithin C) := by
  induction fields generalizing bound with
  | nil =>
    rw [declaredFields]
    exact .pure hbound
  | cons field rest ihRest =>
    obtain ⟨name, p, span⟩ := field
    rw [declaredFields]
    split
    · rename_i t hget
      have ht : Within C t := (everywhere_record.1 hdeclared).2 _ (Assoc.mem_of_get? hget)
      refine (ih _ List.mem_cons_self ht hbound).bind fun bound hbound => ?_
      exact ihRest (fun field hfield => ih field (List.mem_cons_of_mem _ hfield)) hbound
    · exact (maintains_fresh level).bind fun _ _ => maintains_fail

theorem maintains_alternatives (firstSpan : Span) {first : PatternBindings}
    (hfirst : BoundWithin C first) {ps : List Pattern}
    (ih : ∀ p ∈ ps, PatternConfined C v env level p) {t : Ty} (ht : Within C t) :
    Maintains (Confined C v) (alternatives env level firstSpan first ps t) fun _ => True := by
  induction ps with
  | nil =>
    rw [alternatives]
    exact .pure trivial
  | cons p ps ihRest =>
    rw [alternatives]
    refine (ih p List.mem_cons_self ht (by simp)).bind fun names hnames => ?_
    split
    · refine (maintains_unifyBindings hv sealed hfirst hnames).bind fun _ _ => ?_
      exact ihRest fun p hp => ih p (List.mem_cons_of_mem _ hp)
    · exact maintains_fail

theorem maintains_pattern (p : Pattern) : PatternConfined C v env level p := by
  have listed {element : Ty} (helement : Within C element) : Within C (.list element) :=
    .app trivial (.const trivial) (by simpa using helement)
  induction p using Pattern.induct with
  | wild span =>
    intro t bound ht hbound
    rw [pattern]
    exact .pure hbound
  | var name =>
    intro t bound ht hbound
    rw [pattern]
    exact maintains_bindName ht _ hbound
  | literal value span =>
    intro t bound ht hbound
    rw [pattern]
    have literal : Within C value.ty := by cases value <;> exact .const trivial
    exact (maintains_unifyAt hv sealed span ht literal).bind fun _ _ => .pure hbound
  | constructor name args span ih =>
    intro t bound ht hbound
    rw [pattern]
    split
    · exact maintains_fail
    · rename_i c hc
      split
      · refine (maintains_freshList level _).bind fun types htypes => ?_
        -- All variables of a constructor are parameters, and these are replaced by drawn ones.
        have instantiated : ∀ u ∈ c.result :: c.args,
            Within C ((Subst.ofPairs (c.params.zip types)).apply u) := by
          intro u hu
          refine within_iff.2 fun w hw => ?_
          obtain ⟨type, htype, occurs⟩ := Subst.mentions_of_instance htypes.1.symm
            (sealed.constructors hc u hu) (mentions_iff.2 ⟨w, hw, rfl⟩)
          obtain ⟨x, hx, hid⟩ := mentions_iff.1 occurs
          exact hid ▸ within_iff.1 (htypes.2 type htype) x hx
        obtain ⟨result, args⟩ := List.forall_mem_cons.1 instantiated
        refine (maintains_unifyAt hv sealed span ht result).bind fun _ _ => ?_
        exact maintains_patterns ih (List.forall_mem_map.2 args) hbound
      · exact maintains_fail
  | record fields span ih =>
    intro t bound ht hbound
    rw [pattern]
    refine (maintains_resolved ht).bind fun applied happlied => ?_
    split
    · exact maintains_openFields (.inl (everywhere_var.1 happlied)) ih hbound
    · split
      · rename_i hfields
        exact maintains_declaredFields _ (sealed.recordFields happlied hfields) ih hbound
      · intro p a q _ run
        obtain ⟨_, _, -, run⟩ := exists_of_bind run
        cases run
  | tuple elements span ih =>
    intro t bound ht hbound
    rw [pattern]
    refine (maintains_tupleArity ht _ span).bind fun _ _ => ?_
    refine (maintains_freshList level _).bind fun types htypes => ?_
    refine (maintains_unifyAt hv sealed span ht (.tuple trivial htypes.2)).bind fun _ _ => ?_
    exact maintains_patterns ih htypes.2 hbound
  | list elements rest span ih ihRest =>
    intro t bound ht hbound
    have elementwise {element : Ty} (helement : Within C element) :
        ∀ u ∈ List.replicate elements.length element, Within C u :=
      fun u hu => List.eq_of_mem_replicate hu ▸ helement
    cases rest with
    | none =>
      rw [pattern]
      refine (maintains_fresh level).bind fun element helement => ?_
      refine (maintains_unifyAt hv sealed span ht (listed helement)).bind fun _ _ => ?_
      exact maintains_patterns ih (elementwise helement) hbound
    | some rest =>
      rw [pattern]
      refine (maintains_fresh level).bind fun element helement => ?_
      refine (maintains_unifyAt hv sealed span ht (listed helement)).bind fun _ _ => ?_
      refine (maintains_patterns ih (elementwise helement) hbound).bind fun bound hbound => ?_
      exact ihRest rest rfl (listed helement) hbound
  | either ps span ih =>
    intro t bound ht hbound
    cases ps with
    | nil =>
      rw [pattern]
      exact maintains_fail
    | cons first rest =>
      rw [pattern]
      refine (ih first List.mem_cons_self ht (by simp)).bind fun names hnames => ?_
      refine (maintains_alternatives hv sealed _ hnames
        (fun p hp => ih p (List.mem_cons_of_mem _ hp)) ht).bind fun _ _ => ?_
      exact maintains_bindNames hnames hbound

end Patterns

/-! ## Fields asked for -/

theorem records_fieldOf {v : TypeVar} {field : String} {level : Nat} {p q : Progress} {t : Ty}
    (run : fieldOf v field level p = .ok t q) : q.subst.Records v.id field := by
  rw [fieldOf, getSubst_bind] at run
  cases h : p.subst.knownField v field with
  | some known =>
    simp only [h] at run
    obtain ⟨-, rfl⟩ := EStateM.Result.ok.inj (run : EStateM.Result.ok known p = .ok t q)
    obtain ⟨u, hu, -⟩ := Option.map_eq_some_iff.1 h
    obtain ⟨fields, hfields, hu⟩ := Option.bind_eq_some_iff.1 hu
    exact ⟨fields, hfields, List.mem_map.2 ⟨_, Assoc.mem_of_get? hu, rfl⟩⟩
  | none =>
    simp only [h] at run
    obtain ⟨fresh, mid, -, run⟩ := exists_of_bind run
    obtain ⟨-, rfl⟩ := EStateM.Result.ok.inj (run : EStateM.Result.ok fresh _ = .ok t q)
    exact Subst.records_requireField mid.subst v field fresh

theorem records_openFields {env : Env} {level : Nat} {v : TypeVar} {fields : List FieldPattern}
    {bound bound' : PatternBindings} {p q : Progress}
    (run : openFields env level v fields bound p = .ok bound' q)
    (unbound : q.subst.isBound v.id = false) :
    ∀ field ∈ fields, q.subst.Records v.id field.name := by
  induction fields generalizing bound p with
  | nil => simp
  | cons field rest ih =>
    obtain ⟨name, pat, span⟩ := field
    rw [openFields] at run
    obtain ⟨t, asked, hasked, run⟩ := exists_of_bind run
    have steps : Steps (fun _ => True) asked q :=
      Stepwise.ok ((stepwise_pattern trivial pat t bound).bind fun bound =>
        stepwise_openFields v (fun field _ => stepwise_pattern trivial field.pattern) bound) run
    obtain ⟨_, _, -, run⟩ := exists_of_bind run
    refine List.forall_mem_cons.2 ⟨?_, ih run⟩
    exact (steps.retains v.id unbound).2 name (records_fieldOf hasked)

end Infer

theorem Subst.Records.applyShapes {s : Subst} {v : TypeVar} {t : Ty} (ht : s.apply t = .var v)
    {field : String} (h : s.Records v.id field) :
    ∃ shape, s.applyShapes t = .record shape ∧ field ∈ Assoc.keys shape := by
  obtain ⟨fields, hfields, hfield⟩ := h
  rw [Subst.applyShapes, ht, Subst.expandShapes, mapVars]
  split
  · rename_i hnone
    simp [hfields] at hnone
  · rename_i found hfound
    obtain rfl : fields = found := Option.some.inj (hfields.symm.trans hfound)
    exact ⟨_, rfl, by simpa [Assoc.keys] using hfield⟩

theorem Subst.Extends.apply_var {C : Nat → Prop} {P : Ty → Prop} {s s' : Subst}
    (h : s.Extends C P s') (hs : s.Resolved) {t : Ty} {v : TypeVar} (ht : s.apply t = .var v)
    (unbound : s'.isBound v.id = false) : ∃ w, s'.apply t = .var w ∧ w.id = v.id := by
  have shown : (s'.apply t).erase = ofId v.id := by
    rw [h.resolved.erase_apply, ← h.solves.subst_apply hs t, ht, subst_var, image_unbound unbound]
  cases hw : s'.apply t with
  | var w =>
    rw [hw] at shown
    exact ⟨w, rfl, by simpa using shown⟩
  | _ => simp [hw] at shown

abbrev looped : Env := .single ⟨"R", [], .record [("a", const "R"), ("b", const "R")]⟩

def branching : List FieldPattern :=
  -- { a: { a: x } | { b: x }, c: y }
  let name (x : String) : Pattern := .var ⟨x, {}⟩
  [⟨"a", .either [.record [⟨"a", name "x", {}⟩] {}, .record [⟨"b", name "x", {}⟩] {}] {}, {}⟩,
    ⟨"c", name "y", {}⟩]

theorem sealed_looped : looped.Sealed where
  types h v hv := by
    obtain ⟨-, hbody⟩ := Env.target_single.1 h
    obtain rfl := Option.some.inj hbody
    simp [vars, varsFields] at hv
  constructors h := by simp [Env.constructor?, Env.lookup] at h

open Infer in
/-- A record pattern leaves all its fields on the variable it is matched with, as long as the
variable is unbound. It stays unbound if it cannot be reached from its own fields. -/
theorem recordPattern_keeps_fields {env : Env} {level : Nat} {fields : List FieldPattern}
    {span : Span} {t : Ty} {v : TypeVar} {p q : Progress} {bound : List (String × Ty)}
    (hp : p.subst.Resolved) (ht : p.subst.apply t = .var v)
    (run : checkPattern env level (.record fields span) t p = .ok bound q) :
    (q.subst.isBound v.id = false → ∀ field ∈ fields, ∃ shape,
      env.recordFields (q.subst.applyShapes t) = some shape ∧ field.name ∈ Assoc.keys shape) ∧
    (env.Sealed → p.Acyclic v.id → q.subst.isBound v.id = false) := by
  have steps : Stepwise (fun _ => True) (checkPattern env level (.record fields span) t) :=
    stepwise_checkPattern trivial _ t
  have ext := (steps.ok run).extends hp
  obtain ⟨names, mid, hpattern, hreturn⟩ := exists_of_bind run
  obtain ⟨-, rfl⟩ := EStateM.Result.ok.inj (hreturn : EStateM.Result.ok _ mid = .ok bound q)
  rw [pattern] at hpattern
  obtain ⟨applied, start, happlied, hopen⟩ := exists_of_bind hpattern
  obtain ⟨rfl, rfl⟩ := EStateM.Result.ok.inj
    (happlied : EStateM.Result.ok (p.subst.apply t) p = .ok applied start)
  simp only [ht] at hopen
  refine ⟨fun unbound field hfield => ?_, fun sealed acyclic => ?_⟩
  · obtain ⟨w, hw, hid⟩ := ext.apply_var hp ht unbound
    obtain ⟨shape, hshape, hname⟩ :=
      (hid ▸ records_openFields hopen unbound field hfield).applyShapes hw
    exact ⟨shape, by rw [hshape]; rfl, hname⟩
  · have unbound : p.subst.isBound v.id = false :=
      everywhere_var.1 (ht ▸ hp.settled_apply t)
    have apart : ¬p.subst.Avoids (· = v.id) v.id := fun avoids => avoids v.id rfl .refl
    have confined := acyclic.confined hp unbound
    exact (maintains_openFields (.inr rfl) (fun _ _ => maintains_pattern apart sealed _) (by simp)
      p names mid confined hopen).1.unbound

open Infer in
theorem recordPattern_keeps_fields_branching :
    let s := Subst.built [.requireField ⟨0, 0⟩ "b" (const "R")]
    ∃ bound q, checkPattern looped 0 (.record branching {}) (ofId 0) { subst := s, next := 10 } =
        .ok bound q ∧
      q.subst.isBound 0 = false ∧ ∀ field ∈ branching, ∃ shape,
        looped.recordFields (q.subst.applyShapes (ofId 0)) = some shape ∧
          field.name ∈ Assoc.keys shape := by
  intro s
  have hs : s = { records := [(0, [("b", const "R")])] } := by
    simp only [s]
    cbv
  have shown : s.apply (ofId 0) = ofId 0 := by
    rw [hs]
    cbv
  have checked : ((checkPattern looped 0 (.record branching {}) (ofId 0)).run'
      { subst := s, next := 10 }).any (fun _ => true) = true := by
    rw [hs]
    cbv
  -- The only field recorded has a type without variables.
  have stuck (id other : Nat) : ¬s.Step id other := by
    rw [hs]
    rintro (⟨ht, -⟩ | ⟨hf, hfield, occurs⟩)
    · simp at ht
    · obtain ⟨-, rfl⟩ := List.mem_singleton.1 (Assoc.mem_of_get? hf)
      obtain rfl := List.mem_singleton.1 hfield
      simp [mentions, vars] at occurs
  have acyclic : Progress.Acyclic { subst := s, next := 10 } 0 := by
    refine ⟨fun other step => absurd step (stuck 0 other), fun other hother leads => ?_⟩
    cases leads with
    | refl => simp at hother
    | step step => exact stuck _ _ step
  obtain ⟨bound, q, run, -⟩ := exists_run_of_any checked
  obtain ⟨fields, unbound⟩ :=
    recordPattern_keeps_fields (v := ⟨0, 0⟩) (Subst.resolved_built _) shown run
  have unbound := unbound sealed_looped acyclic
  exact ⟨bound, q, run, unbound, fields unbound⟩

open Infer in
/-- The field `c` is lost if `a` is recorded with the type of the variable itself: both
alternatives for `a` are then checked against the variable, and comparing the types of `x` makes it
an `R`. -/
theorem recordPattern_loses_field :
    let s := Subst.built [.requireField ⟨0, 0⟩ "a" (ofId 0), .requireField ⟨0, 0⟩ "b" (const "R")]
    s.apply (ofId 0) = ofId 0 ∧ ∃ bound q,
      checkPattern looped 0 (.record branching {}) (ofId 0) { subst := s, next := 10 } =
        .ok bound q ∧
      q.subst.applyShapes (ofId 0) = const "R" ∧
      looped.recordFields (const "R") = some [("a", const "R"), ("b", const "R")] := by
  intro s
  have hs : s = { records := [(0, [("a", ofId 0), ("b", const "R")])] } := by
    simp only [s]
    cbv
  have shown : s.apply (ofId 0) = ofId 0 := by
    rw [hs]
    cbv
  have lost : ((checkPattern looped 0 (.record branching {}) (ofId 0) >>= fun _ => getSubst).run'
      { subst := s, next := 10 }).any
        (fun s => (s.apply (ofId 0)).same (const "R")) = true := by
    rw [hs]
    cbv
  obtain ⟨s', q, both, becomes⟩ := exists_run_of_any lost
  obtain ⟨bound, mid, run, last⟩ := exists_of_bind both
  obtain ⟨rfl, rfl⟩ := EStateM.Result.ok.inj (last : EStateM.Result.ok mid.subst mid = .ok s' q)
  refine ⟨shown, bound, mid, run, ?_, by cbv⟩
  rw [Subst.applyShapes]
  cases h : mid.subst.apply (ofId 0) with
  | const name =>
    obtain rfl : name = "R" := by simpa [h, same_iff] using becomes
    rw [Subst.expandShapes]
    rfl
  | _ => simp [h, same_iff] at becomes

end Polytype
