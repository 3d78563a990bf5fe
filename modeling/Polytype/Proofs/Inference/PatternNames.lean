import Polytype.Proofs.Inference.Needs
import Polytype.Proofs.Program.PatternParts

namespace Polytype

namespace Pattern

def conjuncts : Pattern → List Pattern
  | either _ _ => []
  | p => p.parts

def Shared (name : String) (ps : List Pattern) : Prop :=
  ¬ps.Pairwise fun p q => ¬(name ∈ p.binders ∧ name ∈ q.binders)

/-- Somewhere in the pattern, two parts that have to match together bind the name. -/
def Repeats (p : Pattern) (name : String) : Prop := ∃ node ∈ p.nodes, Shared name node.conjuncts

/-- No name is bound twice by parts that have to match together. -/
def Linear (p : Pattern) : Prop := ∀ name, ¬p.Repeats name

/-- The alternatives of every choice bind the same names. -/
def Consistent (p : Pattern) : Prop :=
  ∀ alternatives span, either alternatives span ∈ p.nodes →
    ∀ a ∈ alternatives, ∀ b ∈ alternatives, ∀ name, name ∈ a.binders ↔ name ∈ b.binders

/-! ## Patterns and their parts -/

variable {p : Pattern}

theorem conjuncts_eq (noChoice : ∀ alternatives span, p ≠ either alternatives span) :
    p.conjuncts = p.parts := by
  cases p with
  | either alternatives span => exact absurd rfl (noChoice alternatives span)
  | _ => rfl

theorem repeats_iff {name : String} :
    p.Repeats name ↔ Shared name p.conjuncts ∨ ∃ q ∈ p.parts, q.Repeats name := by
  simp only [Repeats, @mem_nodes p]
  constructor
  · rintro ⟨node, rfl | ⟨q, hq, hnode⟩, shared⟩
    · exact .inl shared
    · exact .inr ⟨q, hq, node, hnode, shared⟩
  · rintro (shared | ⟨q, hq, node, hnode, shared⟩)
    · exact ⟨p, .inl rfl, shared⟩
    · exact ⟨node, .inr ⟨q, hq, hnode⟩, shared⟩

theorem Consistent.part (consistent : p.Consistent) {q : Pattern} (hq : q ∈ p.parts) :
    q.Consistent :=
  fun alternatives span hnode => consistent alternatives span (mem_nodes.2 (.inr ⟨q, hq, hnode⟩))

theorem consistent_of (agree : ∀ alternatives span, p = either alternatives span →
      ∀ a ∈ alternatives, ∀ b ∈ alternatives, ∀ name, name ∈ a.binders ↔ name ∈ b.binders)
    (consistent : ∀ q ∈ p.parts, q.Consistent) : p.Consistent := by
  intro alternatives span hnode
  rcases mem_nodes.1 hnode with heq | ⟨q, hq, hnode⟩
  · exact agree alternatives span heq.symm
  · exact consistent q hq alternatives span hnode

theorem not_shared_nil (name : String) : ¬Shared name [] := fun h => h .nil

theorem not_shared_singleton (name : String) (p : Pattern) : ¬Shared name [p] :=
  fun h => h (List.pairwise_singleton _ p)

theorem shared_append {name : String} {ps qs : List Pattern} :
    Shared name (ps ++ qs) ↔ Shared name ps ∨ Shared name qs ∨
      (∃ p ∈ ps, name ∈ p.binders) ∧ ∃ q ∈ qs, name ∈ q.binders := by
  unfold Shared
  rw [List.pairwise_append, not_and_or, not_and_or]
  refine or_congr Iff.rfl (or_congr Iff.rfl ?_)
  simp only [not_forall, not_not, exists_prop]
  constructor
  · rintro ⟨p, hp, q, hq, hname, hname'⟩
    exact ⟨⟨p, hp, hname⟩, q, hq, hname'⟩
  · rintro ⟨⟨p, hp, hname⟩, q, hq, hname'⟩
    exact ⟨p, hp, q, hq, hname, hname'⟩

/-! ## Names added one pattern after the other -/

structure Binds (ps : List Pattern) (bound bound' : PatternBindings) : Prop where
  keys : ∀ name, name ∈ bound'.keys ↔ name ∈ bound.keys ∨ ∃ p ∈ ps, name ∈ p.binders
  ascending : Assoc.Ascending bound → Assoc.Ascending bound'
  apart : ∀ p ∈ ps, ∀ name ∈ p.binders, name ∉ bound.keys
  unshared : ∀ name, ¬Shared name ps
  linear : ∀ p ∈ ps, p.Linear
  consistent : ∀ p ∈ ps, p.Consistent

def Faulty (ps : List Pattern) (bound : PatternBindings) : Cause → Prop
  | .duplicateBinding name =>
    Shared name ps ∨ (∃ p ∈ ps, p.Repeats name) ∨
      name ∈ bound.keys ∧ ∃ p ∈ ps, name ∈ p.binders
  | .inconsistentChoice _ _ => ∃ p ∈ ps, ¬p.Consistent
  | _ => True

section Sequence

variable {ps qs : List Pattern} {bound bound' bound'' : PatternBindings}
  {cause : Cause}

theorem Binds.nil : Binds [] bound bound where
  keys := by simp
  ascending h := h
  apart := by simp
  unshared := not_shared_nil
  linear := by simp
  consistent := by simp

theorem Binds.append (first : Binds ps bound bound') (rest : Binds qs bound' bound'') :
    Binds (ps ++ qs) bound bound'' where
  keys name := by
    rw [rest.keys, first.keys]
    simp [or_and_right, exists_or, or_assoc]
  ascending h := rest.ascending (first.ascending h)
  apart := by
    refine List.forall_mem_append.2 ⟨first.apart, fun q hq name hname mem => ?_⟩
    exact rest.apart q hq name hname ((first.keys name).2 (.inl mem))
  unshared name shared := by
    rcases shared_append.1 shared with shared | shared | ⟨hps, q, hq, hname⟩
    · exact first.unshared name shared
    · exact rest.unshared name shared
    · exact rest.apart q hq name hname ((first.keys name).2 (.inr hps))
  linear := List.forall_mem_append.2 ⟨first.linear, rest.linear⟩
  consistent := List.forall_mem_append.2 ⟨first.consistent, rest.consistent⟩

theorem Faulty.left (h : Faulty ps bound cause) : Faulty (ps ++ qs) bound cause := by
  cases cause with
  | duplicateBinding name =>
    rcases h with shared | ⟨p, hp, repeats⟩ | ⟨hbound, p, hp, hname⟩
    · exact .inl (shared_append.2 (.inl shared))
    · exact .inr (.inl ⟨p, List.mem_append_left _ hp, repeats⟩)
    · exact .inr (.inr ⟨hbound, p, List.mem_append_left _ hp, hname⟩)
  | inconsistentChoice left right =>
    obtain ⟨p, hp, inconsistent⟩ := h
    exact ⟨p, List.mem_append_left _ hp, inconsistent⟩
  | _ => trivial

theorem Faulty.right (first : Binds ps bound bound') (h : Faulty qs bound' cause) :
    Faulty (ps ++ qs) bound cause := by
  cases cause with
  | duplicateBinding name =>
    rcases h with shared | ⟨q, hq, repeats⟩ | ⟨hbound, q, hq, hname⟩
    · exact .inl (shared_append.2 (.inr (.inl shared)))
    · exact .inr (.inl ⟨q, List.mem_append_right _ hq, repeats⟩)
    · -- The name was bound before, or by one of the first patterns.
      rcases (first.keys name).1 hbound with before | earlier
      · exact .inr (.inr ⟨before, q, List.mem_append_right _ hq, hname⟩)
      · exact .inl (shared_append.2 (.inr (.inr ⟨earlier, q, hq, hname⟩)))
  | inconsistentChoice left right =>
    obtain ⟨q, hq, inconsistent⟩ := h
    exact ⟨q, List.mem_append_right _ hq, inconsistent⟩
  | _ => trivial

theorem Binds.node (unnamed : p.bound? = none)
    (noChoice : ∀ alternatives span, p ≠ either alternatives span)
    (parts : Binds p.parts bound bound') : Binds [p] bound bound' where
  keys name := by simp [parts.keys, mem_binders unnamed]
  ascending := parts.ascending
  apart := by
    refine List.forall_mem_singleton.2 fun name hname => ?_
    obtain ⟨q, hq, hname⟩ := (mem_binders unnamed).1 hname
    exact parts.apart q hq name hname
  unshared name := not_shared_singleton name p
  linear := by
    refine List.forall_mem_singleton.2 fun name repeats => ?_
    rcases repeats_iff.1 repeats with shared | ⟨q, hq, repeats⟩
    · rw [conjuncts_eq noChoice] at shared
      exact parts.unshared name shared
    · exact parts.linear q hq name repeats
  consistent := by
    refine List.forall_mem_singleton.2 (consistent_of (fun alternatives span heq => ?_)
      parts.consistent)
    exact absurd heq (noChoice alternatives span)

theorem Faulty.node (unnamed : p.bound? = none)
    (noChoice : ∀ alternatives span, p ≠ either alternatives span)
    (parts : Faulty p.parts bound cause) : Faulty [p] bound cause := by
  cases cause with
  | duplicateBinding name =>
    rcases parts with shared | repeats | ⟨hbound, hname⟩
    · rw [← conjuncts_eq noChoice] at shared
      exact .inr (.inl ⟨p, List.mem_cons_self, repeats_iff.2 (.inl shared)⟩)
    · exact .inr (.inl ⟨p, List.mem_cons_self, repeats_iff.2 (.inr repeats)⟩)
    · exact .inr (.inr ⟨hbound, p, List.mem_cons_self, (mem_binders unnamed).2 hname⟩)
  | inconsistentChoice left right =>
    obtain ⟨q, hq, inconsistent⟩ := parts
    exact ⟨p, List.mem_cons_self, fun consistent => inconsistent (consistent.part hq)⟩
  | _ => trivial

theorem repeats_either {alternatives : List Pattern} {span : Span} {name : String} :
    (either alternatives span).Repeats name ↔ ∃ q ∈ alternatives, q.Repeats name := by
  rw [repeats_iff]
  exact or_iff_right (not_shared_nil name)

theorem Faulty.alternative {alternatives : List Pattern} (mem : p ∈ alternatives) {span : Span}
    (h : Faulty [p] [] cause) : Faulty [either alternatives span] bound cause := by
  cases cause with
  | duplicateBinding name =>
    rcases h with shared | ⟨q, hq, repeats⟩ | ⟨taken, -⟩
    · exact absurd shared (not_shared_singleton name p)
    · obtain rfl := List.mem_singleton.1 hq
      exact .inr (.inl ⟨_, List.mem_cons_self, repeats_either.2 ⟨q, mem, repeats⟩⟩)
    · simp [Assoc.keys] at taken
  | inconsistentChoice left right =>
    obtain ⟨q, hq, inconsistent⟩ := h
    obtain rfl := List.mem_singleton.1 hq
    exact ⟨_, List.mem_cons_self, fun consistent => inconsistent (consistent.part mem)⟩
  | _ => trivial

end Sequence

end Pattern

def Cause.AboutNames : Cause → Prop
  | duplicateBinding _ => True
  | inconsistentChoice _ _ => True
  | _ => False

theorem Pattern.faulty_of_not_aboutNames {ps : List Pattern} {bound : PatternBindings}
    {cause : Cause} (h : ¬cause.AboutNames) : Faulty ps bound cause := by
  cases cause with
  | duplicateBinding name => exact absurd trivial h
  | inconsistentChoice left right => exact absurd trivial h
  | _ => trivial

namespace Infer

open Pattern

/-! ## Both outcomes of a run -/

/-- Every result has the one property, and the cause of every error has the other. -/
structure Ends {α : Type} (m : Infer α) (P : α → Prop) (E : Cause → Prop) : Prop where
  returns : Returns m P
  raises : ∀ p e q, m p = .error e q → E e.cause

section Ends

variable {α β : Type} {P : α → Prop} {Q : β → Prop} {E : Cause → Prop}

theorem Ends.pure {a : α} (h : P a) : Ends (pure a) P E :=
  ⟨.pure h, fun _ _ _ run => by cases run⟩

theorem Ends.fail {cause : Cause} {span : Span} {hint : Option Hint} {related : List Span}
    (h : E cause) : Ends (fail cause span hint related) P E := by
  refine ⟨returns_fail, fun p e q run => ?_⟩
  cases run
  exact h

theorem Ends.bind {m : Infer α} {f : α → Infer β} (h : Ends m P E)
    (hf : ∀ a, P a → Ends (f a) Q E) : Ends (m >>= f) Q E := by
  refine ⟨h.returns.bind fun a ha => (hf a ha).returns, fun p e q run => ?_⟩
  cases hm : m p with
  | ok a p' =>
    rw [run_bind_ok hm] at run
    exact (hf a (h.returns p a p' hm)).raises p' e q run
  | error e' p' =>
    rw [run_bind_error hm] at run
    cases run
    exact h.raises p _ _ hm

theorem Ends.mono {P' : α → Prop} {E' : Cause → Prop} {m : Infer α} (h : Ends m P E)
    (hP : ∀ a, P a → P' a) (hE : ∀ cause, E cause → E' cause) : Ends m P' E' :=
  ⟨h.returns.mono hP, fun p e q run => hE _ (h.raises p e q run)⟩

end Ends

abbrev Nameless {α : Type} (m : Infer α) (P : α → Prop := fun _ => True) : Prop :=
  Ends m P fun cause => ¬cause.AboutNames

theorem nameless_getSubst : Nameless getSubst :=
  ⟨fun _ _ _ _ => trivial, fun _ _ _ run => by cases run⟩

theorem nameless_setSubst (s : Subst) : Nameless (setSubst s) :=
  ⟨fun _ _ _ _ => trivial, fun _ _ _ run => by cases run⟩

theorem nameless_resolved (t : Ty) : Nameless (resolved t) :=
  nameless_getSubst.bind fun _ _ => .pure trivial

theorem nameless_fresh (level : Nat) : Nameless (fresh level) :=
  ⟨fun _ _ _ _ => trivial, fun _ _ _ run => by cases run⟩

theorem nameless_freshList (level count : Nat) :
    Nameless (freshList level count) fun ts => ts.length = count := by
  induction count with
  | zero => exact .pure rfl
  | succ count ih =>
    exact (nameless_fresh level).bind fun t _ => ih.bind fun ts hts => .pure (by simp [hts])

theorem nameless_freshFields (level : Nat) (fields : List FieldPattern) :
    Nameless (freshFields level fields) := by
  induction fields with
  | nil => exact .pure trivial
  | cons field rest ih =>
    exact (nameless_fresh level).bind fun _ _ => ih.bind fun _ _ => .pure trivial

theorem nameless_unifyAt (env : Env) (span : Span) (expected actual : Ty) :
    Nameless (unifyAt env span expected actual) := by
  refine nameless_getSubst.bind fun s _ => ?_
  split
  · exact nameless_setSubst _
  · rename_i clash _
    cases clash <;> exact .fail id

theorem nameless_fieldOf (v : TypeVar) (field : String) (level : Nat) :
    Nameless (fieldOf v field level) := by
  refine nameless_getSubst.bind fun s _ => ?_
  split
  · exact .pure trivial
  · refine (nameless_fresh level).bind fun t _ => nameless_getSubst.bind fun s _ => ?_
    exact (nameless_setSubst _).bind fun _ _ => .pure trivial

theorem nameless_tupleArity (t : Ty) (arity : Nat) (span : Span) :
    Nameless (tupleArity t arity span) := by
  refine (nameless_resolved t).bind fun applied _ => ?_
  split
  · split
    · exact .pure trivial
    · exact .fail id
  · exact .pure trivial

theorem nameless_unifyBindings (env : Env) (first names : PatternBindings) :
    Nameless (unifyBindings env first names) := by
  induction names with
  | nil => exact .pure trivial
  | cons entry rest ih =>
    obtain ⟨name, t, span⟩ := entry
    simp only [unifyBindings]
    split
    · exact (nameless_unifyAt env span _ t).bind fun _ _ => ih
    · exact ih

/-! ## The check of patterns -/

abbrev Checks (ps : List Pattern) (bound : PatternBindings) (m : Infer PatternBindings) : Prop :=
  Ends m (Binds ps bound) (Faulty ps bound)

theorem Checks.after {α : Type} {m : Infer α} {P : α → Prop} {f : α → Infer PatternBindings}
    {ps : List Pattern} {bound : PatternBindings} (h : Nameless m P)
    (hf : ∀ a, P a → Checks ps bound (f a)) : Checks ps bound (m >>= f) :=
  (h.mono (fun _ => id) fun _ => faulty_of_not_aboutNames).bind hf

theorem Checks.append {ps qs : List Pattern} {bound : PatternBindings}
    {m : Infer PatternBindings} {f : PatternBindings → Infer PatternBindings}
    (first : Checks ps bound m) (rest : ∀ bound', Checks qs bound' (f bound')) :
    Checks (ps ++ qs) bound (m >>= f) :=
  (first.mono (fun _ => id) fun _ => .left).bind fun bound' binds =>
    (rest bound').mono (fun _ => binds.append) fun _ => .right binds

theorem Checks.node {p : Pattern} {bound : PatternBindings} {m : Infer PatternBindings}
    (unnamed : p.bound? = none) (noChoice : ∀ alternatives span, p ≠ either alternatives span)
    (parts : Checks p.parts bound m) : Checks [p] bound m :=
  parts.mono (fun _ => .node unnamed noChoice) fun _ => .node unnamed noChoice

def PatternChecks (p : Pattern) : Prop := ∀ env level t bound,
  Checks [p] bound (pattern env level p t bound)

variable {env : Env} {level : Nat}

theorem checks_patterns {ps : List Pattern} (ih : ∀ p ∈ ps, PatternChecks p) {ts : List Ty}
    (lengths : ts.length = ps.length) (bound : PatternBindings) :
    Checks ps bound (patterns env level ps ts bound) := by
  induction ps generalizing ts bound with
  | nil =>
    unfold patterns
    exact .pure .nil
  | cons p ps ihRest =>
    obtain ⟨t, ts, rfl⟩ := List.exists_cons_of_length_eq_add_one lengths
    obtain ⟨first, rest⟩ := List.forall_mem_cons.1 ih
    rw [patterns]
    exact (first env level t bound).append (ihRest rest (by simpa using lengths))

theorem checks_openFields (v : TypeVar) {fields : List FieldPattern}
    (ih : ∀ field ∈ fields, PatternChecks field.pattern) (bound : PatternBindings) :
    Checks (fields.map (·.pattern)) bound (openFields env level v fields bound) := by
  induction fields generalizing bound with
  | nil =>
    rw [openFields]
    exact .pure .nil
  | cons field rest ihRest =>
    obtain ⟨name, p, span⟩ := field
    obtain ⟨first, others⟩ := List.forall_mem_cons.1 ih
    rw [openFields]
    refine .after (nameless_fieldOf v name level) fun t _ => ?_
    exact (first env level t bound).append (ihRest others)

theorem checks_declaredFields (record : Ty) (declared : List (String × Ty))
    {fields : List FieldPattern} (ih : ∀ field ∈ fields, PatternChecks field.pattern)
    (bound : PatternBindings) :
    Checks (fields.map (·.pattern)) bound
      (declaredFields env level record declared fields bound) := by
  induction fields generalizing bound with
  | nil =>
    rw [declaredFields]
    exact .pure .nil
  | cons field rest ihRest =>
    obtain ⟨name, p, span⟩ := field
    obtain ⟨first, others⟩ := List.forall_mem_cons.1 ih
    rw [declaredFields]
    split
    · exact (first env level _ bound).append (ihRest others)
    · exact .after (nameless_fresh level) fun _ _ => .fail trivial

/-! ## Choices -/

theorem ends_bindName (name : String) (t : Ty) (span : Span) (bound : PatternBindings) :
    Ends (bindName name t span bound)
      (fun bound' => name ∉ bound.keys ∧ (∀ other, other ∈ bound'.keys ↔
        name = other ∨ other ∈ bound.keys) ∧ (Assoc.Ascending bound → Assoc.Ascending bound'))
      fun cause => cause = .duplicateBinding name ∧ name ∈ bound.keys := by
  unfold bindName
  split
  · rename_i found
    refine .fail ⟨rfl, Decidable.byContradiction fun h => ?_⟩
    simp [Assoc.get?_eq_none.2 h] at found
  · rename_i missing
    exact .pure ⟨Assoc.get?_eq_none.1 missing, fun _ => Assoc.mem_keys_insert, .insert⟩

theorem ends_bindNames {names : PatternBindings} (distinct : names.keys.Nodup)
    (bound : PatternBindings) :
    Ends (bindNames names bound)
      (fun bound' => (∀ name ∈ names.keys, name ∉ bound.keys) ∧
        (∀ name, name ∈ bound'.keys ↔ name ∈ bound.keys ∨ name ∈ names.keys) ∧
        (Assoc.Ascending bound → Assoc.Ascending bound'))
      fun cause => ∃ name, cause = .duplicateBinding name ∧ name ∈ bound.keys ∧
        name ∈ names.keys := by
  induction names generalizing bound with
  | nil => exact .pure ⟨by simp [Assoc.keys], by simp [Assoc.keys], id⟩
  | cons entry rest ih =>
    obtain ⟨name, t, span⟩ := entry
    obtain ⟨fresh, distinct⟩ := List.nodup_cons.1 distinct
    have first := ends_bindName name t span bound
    refine (first.mono (fun _ => id) ?_).bind fun bound' result => ?_
    · rintro cause ⟨rfl, mem⟩
      exact ⟨name, rfl, mem, List.mem_cons_self⟩
    obtain ⟨free, keys, ascending⟩ := result
    refine (ih distinct bound').mono ?_ ?_
    · rintro bound'' ⟨apart, keys', ascending'⟩
      refine ⟨List.forall_mem_cons.2 ⟨free, fun other mem taken => ?_⟩, fun other => ?_,
        fun h => ascending' (ascending h)⟩
      · exact apart other mem ((keys other).2 (.inr taken))
      · rw [keys', keys]
        simp only [Assoc.keys, List.map_cons, List.mem_cons]
        tauto
    · rintro cause ⟨other, rfl, taken, mem⟩
      refine ⟨other, rfl, ?_, List.mem_cons_of_mem _ mem⟩
      rcases (keys other).1 taken with rfl | taken
      · exact absurd mem fresh
      · exact taken

theorem keys_eq_of_mem_iff {names others : PatternBindings} (h : Assoc.Ascending names)
    (h' : Assoc.Ascending others) (same : ∀ name, name ∈ names.keys ↔ name ∈ others.keys) :
    names.keys = others.keys := by
  have perm : names.keys.Perm others.keys :=
    (List.perm_ext_iff_of_nodup h.nodup h'.nodup).2 same
  exact perm.eq_of_pairwise (fun a b _ _ hab hba => absurd (String.lt_trans hab hba)
    (String.lt_irrefl a)) h h'

theorem mem_keys_of_binds {p : Pattern} {names : PatternBindings} (h : Binds [p] [] names)
    (name : String) : name ∈ names.keys ↔ name ∈ p.binders := by
  rw [h.keys]
  simp [Assoc.keys]

theorem ends_alternatives {choices : List Pattern} (span firstSpan : Span) {first : Pattern}
    (hfirst : first ∈ choices) {names : PatternBindings} (binds : Binds [first] [] names)
    (bound : PatternBindings) {ps : List Pattern} (hps : ∀ p ∈ ps, p ∈ choices)
    (ih : ∀ p ∈ ps, PatternChecks p) (t : Ty) :
    Ends (alternatives env level firstSpan names ps t)
      (fun _ => ∀ p ∈ ps, p.Linear ∧ p.Consistent ∧
        ∀ name, name ∈ p.binders ↔ name ∈ first.binders)
      (Faulty [either choices span] bound) := by
  induction ps with
  | nil =>
    rw [alternatives]
    exact .pure (by simp)
  | cons p ps ihRest =>
    obtain ⟨ihp, ihps⟩ := List.forall_mem_cons.1 ih
    obtain ⟨hp, hps⟩ := List.forall_mem_cons.1 hps
    rw [alternatives]
    refine ((ihp env level t []).mono (fun _ => id) fun _ => .alternative hp).bind
      fun others binds' => ?_
    split
    · rename_i same
      have quiet := nameless_unifyBindings env names others
      refine (quiet.mono (fun _ => id) fun _ => faulty_of_not_aboutNames).bind fun _ _ => ?_
      refine (ihRest hps ihps).mono (fun _ agree => ?_) fun _ => id
      refine List.forall_mem_cons.2 ⟨⟨binds'.linear p List.mem_cons_self,
        binds'.consistent p List.mem_cons_self, fun name => ?_⟩, agree⟩
      rw [← mem_keys_of_binds binds', ← mem_keys_of_binds binds, same]
    · rename_i different
      refine .fail ⟨_, List.mem_cons_self, fun consistent => different ?_⟩
      have agree := consistent choices span (by simp [nodes]) p hp first hfirst
      refine keys_eq_of_mem_iff (binds'.ascending .nil) (binds.ascending .nil) fun name => ?_
      rw [mem_keys_of_binds binds', mem_keys_of_binds binds, agree]

/-! ## All patterns -/

theorem checks_pattern (p : Pattern) : PatternChecks p := by
  induction p using Pattern.induct with
  | wild span =>
    intro env level t bound
    rw [pattern]
    exact .node rfl (by simp) (.pure .nil)
  | var name =>
    intro env level t bound
    have binders : (var name).binders = [name.name] := by simp [binders, nodes, bound?]
    rw [pattern]
    refine (ends_bindName name.name t name.span bound).mono ?_ ?_
    · rintro bound' ⟨free, keys, ascending⟩
      refine ⟨fun other => ?_, ascending, ?_, fun other shared => ?_, ?_, ?_⟩
      · rw [keys]
        simp only [List.mem_singleton, exists_eq_left, binders, eq_comm, or_comm]
      · simpa [binders] using free
      · exact not_shared_singleton other _ shared
      · refine List.forall_mem_singleton.2 ?_
        rintro other ⟨node, hnode, shared⟩
        obtain rfl : node = var name := by simpa [nodes] using hnode
        exact not_shared_nil other shared
      · refine List.forall_mem_singleton.2 fun alternatives span hnode => ?_
        simp [nodes] at hnode
    · rintro cause ⟨rfl, taken⟩
      exact .inr (.inr ⟨taken, _, List.mem_cons_self, by simp [binders]⟩)
  | literal value span =>
    intro env level t bound
    rw [pattern]
    refine .node rfl (by simp) ?_
    exact .after (nameless_unifyAt env span t value.ty) fun _ _ => .pure .nil
  | constructor name args span ih =>
    intro env level t bound
    rw [pattern]
    refine .node rfl (by simp) ?_
    split
    · exact .fail trivial
    · rename_i c found
      split
      · rename_i arity
        refine .after (nameless_freshList level _) fun fresh _ => ?_
        refine .after (nameless_unifyAt env span _ _) fun _ _ => ?_
        exact checks_patterns ih ((List.length_map _).trans arity) bound
      · exact .fail trivial
  | record fields span ih =>
    intro env level t bound
    rw [pattern]
    refine .node rfl (by simp) ?_
    refine .after (nameless_resolved t) fun applied _ => ?_
    split
    · exact checks_openFields _ ih bound
    · split
      · exact checks_declaredFields _ _ ih bound
      · exact .after (nameless_freshFields level fields) fun _ _ => .fail trivial
  | tuple elements span ih =>
    intro env level t bound
    rw [pattern]
    refine .node rfl (by simp) ?_
    refine .after (nameless_tupleArity t _ span) fun _ _ => ?_
    refine .after (nameless_freshList level _) fun types lengths => ?_
    refine .after (nameless_unifyAt env span _ _) fun _ _ => ?_
    exact checks_patterns ih lengths bound
  | list elements rest span ihElements ihRest =>
    intro env level t bound
    cases rest with
    | none =>
      rw [pattern]
      refine .node rfl (by simp) ?_
      refine .after (nameless_fresh level) fun element _ => ?_
      refine .after (nameless_unifyAt env span _ _) fun _ _ => ?_
      rw [parts, Option.toList_none, List.append_nil]
      exact checks_patterns ihElements List.length_replicate bound
    | some rest =>
      rw [pattern]
      refine .node rfl (by simp) ?_
      refine .after (nameless_fresh level) fun element _ => ?_
      refine .after (nameless_unifyAt env span _ _) fun _ _ => ?_
      exact (checks_patterns ihElements List.length_replicate bound).append
        (ihRest rest rfl env level _)
  | either choices span ih =>
    intro env level t bound
    cases choices with
    | nil =>
      rw [pattern]
      exact .fail trivial
    | cons first rest =>
      obtain ⟨ihFirst, ihRest⟩ := List.forall_mem_cons.1 ih
      rw [pattern]
      refine ((ihFirst env level t []).mono (fun _ => id) fun _ => .alternative
        List.mem_cons_self).bind fun names binds => ?_
      refine (ends_alternatives span first.span List.mem_cons_self binds bound
        (fun p => List.mem_cons_of_mem first) ihRest t).bind fun _ agree => ?_
      have distinct := (binds.ascending .nil).nodup
      -- All alternatives bind the names of the first one.
      have binders (name : String) : name ∈ (either (first :: rest) span).binders ↔
          name ∈ first.binders := by
        rw [mem_binders rfl, parts, List.exists_mem_cons_iff]
        refine or_iff_left_of_imp ?_
        rintro ⟨p, hp, hname⟩
        exact ((agree p hp).2.2 name).1 hname
      refine (ends_bindNames distinct bound).mono ?_ ?_
      · rintro bound' ⟨apart, keys, ascending⟩
        refine ⟨fun name => ?_, ascending, ?_, fun name => not_shared_singleton name _, ?_, ?_⟩
        · rw [keys, mem_keys_of_binds binds]
          simp [binders]
        · refine List.forall_mem_singleton.2 fun name hname => apart name ?_
          rwa [mem_keys_of_binds binds, ← binders]
        · refine List.forall_mem_singleton.2 fun name repeats => ?_
          obtain ⟨p, hp, inside⟩ := repeats_either.1 repeats
          rcases List.mem_cons.1 hp with rfl | hp
          · exact binds.linear p List.mem_cons_self name inside
          · exact (agree p hp).1 name inside
        · refine List.forall_mem_singleton.2 (consistent_of ?_ ?_)
          · rintro alternatives span' heq
            obtain ⟨rfl, -⟩ := Pattern.either.inj heq
            have same : ∀ p ∈ first :: rest, ∀ name, name ∈ p.binders ↔ name ∈ first.binders :=
              List.forall_mem_cons.2 ⟨fun _ => Iff.rfl, fun p hp => (agree p hp).2.2⟩
            exact fun a ha b hb name => (same a ha name).trans (same b hb name).symm
          · exact List.forall_mem_cons.2 ⟨binds.consistent first List.mem_cons_self,
              fun p hp => (agree p hp).2.1⟩
      · rintro cause ⟨name, rfl, taken, mem⟩
        rw [mem_keys_of_binds binds, ← binders] at mem
        exact .inr (.inr ⟨taken, _, List.mem_cons_self, mem⟩)

/-- A pattern that passes the check binds no name twice in parts that match together, its choices
bind the same names in all alternatives, and the names that the check returns are those of the
pattern. A pattern that is refused because a name is bound twice, or because alternatives bind
different names, does break the one rule or the other. -/
theorem checkPattern_binders (env : Env) (level : Nat) (p : Pattern) (t : Ty) (start : Progress) :
    (∀ bound q, checkPattern env level p t start = .ok bound q →
      p.Linear ∧ p.Consistent ∧ ∀ name, name ∈ Assoc.keys bound ↔ name ∈ p.binders) ∧
    ∀ e q, checkPattern env level p t start = .error e q →
      (∀ name, e.cause = .duplicateBinding name → p.Repeats name) ∧
      ∀ left right, e.cause = .inconsistentChoice left right → ¬p.Consistent := by
  have checks := checks_pattern p env level t []
  refine ⟨fun bound q run => ?_, fun e q run => ?_⟩
  · obtain ⟨names, q', run, result⟩ := exists_of_bind run
    cases result
    have binds := checks.returns start names q run
    refine ⟨binds.linear p List.mem_cons_self, binds.consistent p List.mem_cons_self,
      fun name => ?_⟩
    rw [← mem_keys_of_binds binds]
    simp [Assoc.keys, Assoc.mapValues]
  · have faulty : Faulty [p] [] e.cause := by
      have both : Ends (checkPattern env level p t) (fun _ => True) (Faulty [p] []) :=
        checks.bind fun _ _ => .pure trivial
      exact both.raises start e q run
    refine ⟨fun name heq => ?_, fun left right heq => ?_⟩
    · rw [heq] at faulty
      rcases faulty with shared | ⟨r, hr, repeats⟩ | ⟨taken, -⟩
      · exact absurd shared (not_shared_singleton name p)
      · obtain rfl := List.mem_singleton.1 hr
        exact repeats
      · simp [Assoc.keys] at taken
    · rw [heq] at faulty
      obtain ⟨r, hr, inconsistent⟩ := faulty
      obtain rfl := List.mem_singleton.1 hr
      exact inconsistent

end Infer

end Polytype
