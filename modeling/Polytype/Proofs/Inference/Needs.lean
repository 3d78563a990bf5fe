import Polytype.Proofs.Assoc
import Polytype.Proofs.Inference.Let
import Polytype.Proofs.Module.Scope
import Polytype.Proofs.Program.Induction
import Polytype.Proofs.Program.Needs

namespace Polytype

open Infer

/-! ## Scopes that meet needs -/

structure Env.Meets (env : Env) (needs : Needs) : Prop where
  values : ∀ name ∈ needs.values, env.lookup name ≠ none
  constructors : ∀ name ∈ needs.constructors, env.constructor? name ≠ none

namespace Env

variable {env : Env}

theorem meets_nothing : env.Meets {} := ⟨by simp, by simp⟩

theorem Meets.append {a b : Needs} (h : env.Meets a) (h' : env.Meets b) : env.Meets (a ++ b) :=
  ⟨List.forall_mem_append.2 ⟨h.values, h'.values⟩,
    List.forall_mem_append.2 ⟨h.constructors, h'.constructors⟩⟩

theorem Meets.outside_nil {needs : Needs} (h : env.Meets needs) : env.Meets (needs.outside []) :=
  ⟨fun name mem => h.values name (List.mem_filter.1 mem).1, h.constructors⟩

theorem Meets.outside_append {a b : Needs} {names : List String} (h : env.Meets (a.outside names))
    (h' : env.Meets (b.outside names)) : env.Meets ((a ++ b).outside names) where
  values name mem := by
    obtain ⟨needed, away⟩ := List.mem_filter.1 mem
    rcases List.mem_append.1 needed with needed | needed
    · exact h.values name (List.mem_filter.2 ⟨needed, away⟩)
    · exact h'.values name (List.mem_filter.2 ⟨needed, away⟩)
  constructors := List.forall_mem_append.2 ⟨h.constructors, h'.constructors⟩

theorem Meets.of_extendAll {bindings : List (String × Binding)} {names : List String}
    (named : ∀ entry ∈ bindings, entry.1 ∈ names)
    (values : ∀ entry ∈ bindings, ∀ c, entry.2 ≠ .constructor c) {needs : Needs}
    (h : (env.extendAll bindings).Meets needs) : env.Meets (needs.outside names) where
  values name mem := by
    obtain ⟨needed, away⟩ := List.mem_filter.1 mem
    have others : ∀ entry ∈ bindings, entry.1 ≠ name := by
      rintro entry hentry rfl
      exact (of_decide_eq_true away) (named entry hentry)
    rw [← show (env.extendAll bindings).lookup name = env.lookup name from
      Assoc.get?_insertAll_of_ne others]
    exact h.values name needed
  constructors name mem := by
    have inner := h.constructors name mem
    unfold constructor? at inner ⊢
    cases found : (env.extendAll bindings).lookup name with
    | none => simp [found] at inner
    | some b =>
      cases b with
      | value σ => simp [found] at inner
      | foreign σ given => simp [found] at inner
      | constructor c =>
        rcases Assoc.get?_insertAll_some found with inner | outer
        · exact absurd rfl (values _ inner c)
        · rw [show env.lookup name = some (.constructor c) from outer]
          simp

theorem Meets.of_extendValue {name : String} {σ : Scheme} {needs : Needs}
    (h : (env.extendValue name σ).Meets needs) : env.Meets (needs.outside [name]) := by
  have single : (env.extendAll [(name, .value σ)]).Meets needs := h
  refine Meets.of_extendAll ?_ ?_ single
  · simp
  · simp

theorem Meets.of_extendMono {types : List (String × Ty)} {names : List String}
    (named : ∀ entry ∈ types, entry.1 ∈ names) {needs : Needs}
    (h : (env.extendMono types).Meets needs) : env.Meets (needs.outside names) := by
  refine Meets.of_extendAll ?_ ?_ h
  · exact List.forall_mem_map.2 named
  · exact List.forall_mem_map.2 fun _ _ _ heq => by simp at heq

theorem Meets.of_extendSchemes {schemes : List (String × Scheme)} {names : List String}
    (named : ∀ entry ∈ schemes, entry.1 ∈ names) {needs : Needs}
    (h : (env.extendAll (Assoc.mapValues .value schemes)).Meets needs) :
    env.Meets (needs.outside names) := by
  refine Meets.of_extendAll ?_ ?_ h
  · exact List.forall_mem_map.2 named
  · exact List.forall_mem_map.2 fun _ _ _ heq => by simp at heq

end Env

/-! ## Patterns -/

/-- The constructors of some patterns are in scope, and the patterns have bound no names but their
own. -/
structure Pattern.Checked (env : Env) (nodes : List Pattern) (bound bound' : PatternBindings) :
    Prop where
  constructors : ∀ node ∈ nodes, ∀ name, node.constructorName? = some name →
    env.constructor? name ≠ none
  names : ∀ name ∈ bound'.keys, name ∈ bound.keys ∨ ∃ node ∈ nodes, node.bound? = some name

namespace Pattern.Checked

variable {env : Env} {nodes others : List Pattern} {bound bound' bound'' : PatternBindings}

theorem nil : Checked env [] bound bound := ⟨by simp, fun _ mem => .inl mem⟩

theorem append (h : Checked env nodes bound bound') (h' : Checked env others bound' bound'') :
    Checked env (nodes ++ others) bound bound'' where
  constructors := List.forall_mem_append.2 ⟨h.constructors, h'.constructors⟩
  names name mem := by
    rcases h'.names name mem with mem | ⟨node, hnode, heq⟩
    · rcases h.names name mem with mem | ⟨node, hnode, heq⟩
      · exact .inl mem
      · exact .inr ⟨node, List.mem_append_left _ hnode, heq⟩
    · exact .inr ⟨node, List.mem_append_right _ hnode, heq⟩

theorem cons {node : Pattern} (h : Checked env nodes bound bound')
    (constructor : ∀ name, node.constructorName? = some name → env.constructor? name ≠ none) :
    Checked env (node :: nodes) bound bound' where
  constructors := List.forall_mem_cons.2 ⟨constructor, h.constructors⟩
  names name mem := by
    rcases h.names name mem with mem | ⟨node, hnode, heq⟩
    · exact .inl mem
    · exact .inr ⟨node, List.mem_cons_of_mem _ hnode, heq⟩

end Pattern.Checked

namespace Infer

open Pattern

variable {env : Env} (level : Nat)

theorem returns_freshList (level count : Nat) :
    Returns (freshList level count) fun ts => ts.length = count := by
  induction count with
  | zero => exact .pure rfl
  | succ count ih => exact .after fun t => .bind ih fun ts hts => .pure (by simp [hts])

theorem returns_bindName (name : String) (t : Ty) (span : Span) (bound : PatternBindings) :
    Returns (bindName name t span bound) fun bound' =>
      ∀ other ∈ bound'.keys, name = other ∨ other ∈ bound.keys := by
  unfold bindName
  split
  · exact returns_fail
  · exact .pure fun other mem => Assoc.mem_keys_insert.1 mem

theorem returns_bindNames (names bound : PatternBindings) :
    Returns (bindNames names bound) fun bound' =>
      ∀ name ∈ bound'.keys, name ∈ names.keys ∨ name ∈ bound.keys := by
  induction names generalizing bound with
  | nil => exact .pure fun name mem => .inr mem
  | cons entry rest ih =>
    obtain ⟨name, t, span⟩ := entry
    refine .bind (returns_bindName name t span bound) fun bound' first => ?_
    refine (ih bound').mono fun bound'' others other mem => ?_
    rcases others other mem with mem | mem
    · exact .inl (List.mem_cons_of_mem _ mem)
    · rcases first other mem with rfl | mem
      · exact .inl List.mem_cons_self
      · exact .inr mem

def PatternMeets (p : Pattern) : Prop := ∀ env level t bound,
  Returns (pattern env level p t bound) fun bound' => Checked env p.nodes bound bound'

theorem meets_patterns {ps : List Pattern} (ih : ∀ p ∈ ps, PatternMeets p) {ts : List Ty}
    (lengths : ts.length = ps.length) (bound : PatternBindings) :
    Returns (patterns env level ps ts bound) fun bound' =>
      Checked env (nodesList ps) bound bound' := by
  induction ps generalizing ts bound with
  | nil =>
    unfold patterns
    exact .pure .nil
  | cons p ps ihRest =>
    obtain ⟨t, ts, rfl⟩ := List.exists_cons_of_length_eq_add_one lengths
    rw [patterns, nodesList]
    obtain ⟨first, rest⟩ := List.forall_mem_cons.1 ih
    refine .bind (first env level t bound) fun bound' checked => ?_
    exact (ihRest rest (by simpa using lengths) bound').mono fun _ others => checked.append others

theorem meets_openFields (v : TypeVar) {fields : List FieldPattern}
    (ih : ∀ field ∈ fields, PatternMeets field.pattern) (bound : PatternBindings) :
    Returns (openFields env level v fields bound) fun bound' =>
      Checked env (nodesFields fields) bound bound' := by
  induction fields generalizing bound with
  | nil =>
    rw [openFields]
    exact .pure .nil
  | cons field rest ihRest =>
    obtain ⟨name, p, span⟩ := field
    obtain ⟨first, others⟩ := List.forall_mem_cons.1 ih
    rw [openFields, nodesFields]
    refine .after fun t => .bind (first env level t bound) fun bound' checked => ?_
    exact (ihRest others bound').mono fun _ later => checked.append later

theorem meets_declaredFields (record : Ty) (declared : List (String × Ty))
    {fields : List FieldPattern} (ih : ∀ field ∈ fields, PatternMeets field.pattern)
    (bound : PatternBindings) :
    Returns (declaredFields env level record declared fields bound) fun bound' =>
      Checked env (nodesFields fields) bound bound' := by
  induction fields generalizing bound with
  | nil =>
    rw [declaredFields]
    exact .pure .nil
  | cons field rest ihRest =>
    obtain ⟨name, p, span⟩ := field
    obtain ⟨first, others⟩ := List.forall_mem_cons.1 ih
    rw [declaredFields, nodesFields]
    split
    · refine .bind (first env level _ bound) fun bound' checked => ?_
      exact (ihRest others bound').mono fun _ later => checked.append later
    · exact .after fun t => returns_fail

theorem meets_alternatives (firstSpan : Span) (first : PatternBindings) {ps : List Pattern}
    (ih : ∀ p ∈ ps, PatternMeets p) (t : Ty) :
    Returns (alternatives env level firstSpan first ps t) fun _ => ∀ node ∈ nodesList ps,
      ∀ name, node.constructorName? = some name → env.constructor? name ≠ none := by
  induction ps with
  | nil =>
    rw [alternatives]
    exact .pure (by simp [nodesList])
  | cons p ps ihRest =>
    obtain ⟨hp, rest⟩ := List.forall_mem_cons.1 ih
    rw [alternatives, nodesList]
    refine .bind (hp env level t []) fun names checked => ?_
    split
    · refine .after fun _ => (ihRest rest).mono fun _ others => ?_
      exact List.forall_mem_append.2 ⟨checked.constructors, others⟩
    · exact returns_fail

theorem meets_pattern (p : Pattern) : PatternMeets p := by
  -- A pattern that is headed by no constructor needs no more than its parts.
  have inside {env : Env} {node : Pattern} {nodes : List Pattern} {bound bound' : PatternBindings}
      (other : node.constructorName? = none) (h : Checked env nodes bound bound') :
      Checked env (node :: nodes) bound bound' := h.cons fun name heq => by simp [other] at heq
  induction p using Pattern.induct with
  | wild span =>
    intro env level t bound
    rw [pattern, nodes]
    exact .pure (inside rfl .nil)
  | var name =>
    intro env level t bound
    rw [pattern, nodes]
    refine (returns_bindName name.name t name.span bound).mono fun bound' names =>
      ⟨by simp [constructorName?], ?_⟩
    intro other mem
    rcases names other mem with rfl | mem
    · exact .inr ⟨_, List.mem_cons_self, rfl⟩
    · exact .inl mem
  | literal value span =>
    intro env level t bound
    rw [pattern, nodes]
    exact .after fun _ => .pure (inside rfl .nil)
  | constructor name args span ih =>
    intro env level t bound
    rw [pattern, nodes]
    split
    · exact returns_fail
    · rename_i c found
      split
      · rename_i arity
        refine .after fun fresh => .after fun _ => ?_
        have lengths : (c.args.map (Subst.ofPairs (c.params.zip fresh)).apply).length =
            args.length := (List.length_map _).trans arity
        refine (meets_patterns level ih lengths bound).mono fun _ checked => checked.cons ?_
        intro k heq
        obtain rfl := Option.some.inj heq
        simp [found]
      · exact returns_fail
  | record fields span ih =>
    intro env level t bound
    rw [pattern, nodes]
    refine .after fun applied => ?_
    split
    · exact (meets_openFields level _ ih bound).mono fun _ checked => inside rfl checked
    · split
      · exact (meets_declaredFields level _ _ ih bound).mono fun _ checked => inside rfl checked
      · exact .after fun shape => returns_fail
  | tuple elements span ih =>
    intro env level t bound
    rw [pattern, nodes]
    refine .after fun _ => .bind (returns_freshList level elements.length) fun types lengths => ?_
    refine .after fun _ => (meets_patterns level ih lengths bound).mono fun _ checked => ?_
    exact inside rfl checked
  | list elements rest span ihElements ihRest =>
    intro env level t bound
    cases rest with
    | none =>
      rw [pattern, nodes]
      refine .after fun element => .after fun _ => ?_
      refine (meets_patterns level ihElements List.length_replicate bound).mono fun _ checked => ?_
      exact inside rfl checked
    | some rest =>
      rw [pattern, nodes]
      refine .after fun element => .after fun _ => ?_
      refine .bind (meets_patterns level ihElements List.length_replicate bound)
        fun bound' checked => ?_
      exact (ihRest rest rfl env level _ bound').mono fun _ later =>
        inside rfl (checked.append later)
  | either choices span ih =>
    intro env level t bound
    cases choices with
    | nil =>
      rw [pattern]
      exact returns_fail
    | cons first rest =>
      obtain ⟨ihFirst, ihRest⟩ := List.forall_mem_cons.1 ih
      rw [pattern, nodes, nodesList]
      refine .bind (ihFirst env level t []) fun names checked => ?_
      refine .bind (meets_alternatives level first.span names ihRest t) fun _ others => ?_
      refine (returns_bindNames names bound).mono fun bound' merged => inside rfl ⟨?_, ?_⟩
      · exact List.forall_mem_append.2 ⟨checked.constructors, others⟩
      · intro name mem
        rcases merged name mem with mem | mem
        · rcases checked.names name mem with mem | ⟨node, hnode, heq⟩
          · simp [Assoc.keys] at mem
          · exact .inr ⟨node, List.mem_append_left _ hnode, heq⟩
        · exact .inl mem

theorem meets_checkPattern (env : Env) (p : Pattern) (t : Ty) :
    Returns (checkPattern env level p t) fun bound =>
      env.Meets { constructors := p.constructorNames } ∧ ∀ entry ∈ bound, entry.1 ∈ p.binders := by
  refine .bind (meets_pattern p env level t []) fun bound checked => .pure ⟨⟨by simp, ?_⟩, ?_⟩
  · intro name mem
    obtain ⟨node, hnode, heq⟩ := List.mem_filterMap.1 mem
    exact checked.constructors node hnode name heq
  · refine List.forall_mem_map.2 fun entry mem => ?_
    rcases checked.names entry.1 (List.mem_map_of_mem mem) with mem | bound
    · simp [Assoc.keys] at mem
    · exact List.mem_filterMap.2 bound

/-! ## Expressions -/

def ExprMeets (e : Expr) : Prop := ∀ env level, Returns (expr env level e) fun _ => env.Meets e.needs

section Parts

variable (env)

theorem meets_exprs {es : List Expr} (ih : ∀ e ∈ es, ExprMeets e) :
    Returns (exprs env level es) fun _ => env.Meets (needsList es) := by
  induction es with
  | nil =>
    rw [exprs]
    exact .pure Env.meets_nothing
  | cons e es ihRest =>
    obtain ⟨first, rest⟩ := List.forall_mem_cons.1 ih
    rw [exprs, needsList]
    refine .bind (first env level) fun t found => ?_
    exact .bind (ihRest rest) fun ts others => .pure (found.append others)

theorem meets_arguments {es : List Expr} (ih : ∀ e ∈ es, ExprMeets e) {params : List Ty}
    (enough : es.length ≤ params.length) :
    Returns (arguments env level es params) fun _ => env.Meets (needsList es) := by
  induction es generalizing params with
  | nil =>
    unfold arguments
    exact .pure Env.meets_nothing
  | cons e es ihRest =>
    obtain ⟨first, rest⟩ := List.forall_mem_cons.1 ih
    cases params with
    | nil => simp at enough
    | cons param params =>
      rw [arguments, needsList]
      refine .bind (first env level) fun t found => .after fun _ => ?_
      exact (ihRest rest (by simpa using enough)).mono fun _ others => found.append others

theorem meets_elements (element : Ty) {es : List Expr} (ih : ∀ e ∈ es, ExprMeets e) :
    Returns (elements env level element es) fun _ => env.Meets (needsList es) := by
  rw [elements_eq]
  exact meets_arguments env level ih (by simp)

theorem meets_members {bindings : List GroupBinding} (ih : ∀ b ∈ bindings, ExprMeets b.value)
    {ts : List Ty} (lengths : ts.length = bindings.length) :
    Returns (members env level bindings ts) fun _ => env.Meets (needsGroup bindings) := by
  rw [members_eq, needsGroup_eq]
  exact meets_arguments env (level + 1) (List.forall_mem_map.2 ih) (by simp [lengths])

theorem meets_guardOf {guard : Expr} (ih : ExprMeets guard) :
    Returns (guardOf env level (some guard)) fun _ => env.Meets guard.needs := by
  rw [guardOf]
  refine .bind (ih env level) fun t found => .after fun s => ?_
  split
  · exact fun _ _ _ _ => found
  · exact returns_fail

theorem meets_arms (scrutinee result : Ty) {cases : List Arm}
    (ih : ∀ arm ∈ cases, arm.Each ExprMeets) :
    Returns (arms env level scrutinee result cases) fun _ => env.Meets (needsArms cases) := by
  induction cases with
  | nil =>
    rw [arms]
    exact .pure Env.meets_nothing
  | cons arm rest ihRest =>
    obtain ⟨⟨ihGuard, ihBody⟩, others⟩ := List.forall_mem_cons.1 ih
    obtain ⟨p, guard, body, span⟩ := arm
    rw [arms]
    refine .bind (meets_checkPattern level env p scrutinee) ?_
    rintro bound ⟨constructors, named⟩
    cases guard with
    | none =>
      rw [needsArms]
      refine .after fun _ => .bind (ihBody _ level) fun t found => .after fun _ => ?_
      refine (ihRest others).mono fun _ later => constructors.append ?_
      exact (found.of_extendMono named).append later
    | some guard =>
      rw [needsArms]
      refine .bind (meets_guardOf _ level (ihGuard guard rfl)) fun _ guarded => ?_
      refine .bind (ihBody _ level) fun t found => .after fun _ => ?_
      refine (ihRest others).mono fun _ later => constructors.append ?_
      exact ((guarded.append found).of_extendMono named).append later

theorem meets_entries {parts : List Entry} (ih : ∀ entry ∈ parts, entry.Each ExprMeets)
    (fields : List (String × Ty)) :
    Returns (entries env level parts fields) fun _ => env.Meets (needsEntries parts) := by
  induction parts generalizing fields with
  | nil =>
    rw [entries]
    exact .pure Env.meets_nothing
  | cons entry rest ihRest =>
    obtain ⟨first, others⟩ := List.forall_mem_cons.1 ih
    cases entry with
    | field init =>
      obtain ⟨name, value, span⟩ := init
      rw [entries, needsEntries]
      refine .bind (first env level) fun t found => ?_
      exact (ihRest others _).mono fun _ later => found.append later
    | spread base =>
      rw [entries, needsEntries]
      refine .bind (first env level) fun t found => .after fun _ => .after fun _ => ?_
      exact (ihRest others _).mono fun _ later => found.append later

theorem meets_updates (record : Ty) (declared : List (String × Ty)) {inits : List FieldInit}
    (ih : ∀ init ∈ inits, ExprMeets init.value) :
    Returns (updates env level record declared inits) fun _ => env.Meets (needsInits inits) := by
  induction inits with
  | nil =>
    rw [updates]
    exact .pure Env.meets_nothing
  | cons init rest ihRest =>
    obtain ⟨first, others⟩ := List.forall_mem_cons.1 ih
    obtain ⟨name, value, span⟩ := init
    rw [updates, needsInits]
    split
    · exact returns_fail
    · refine .bind (first env level) fun t found => .after fun _ => ?_
      exact (ihRest others).mono fun _ later => found.append later

theorem meets_letScope (name : Ident) (written : Option TypeExpr) (recursive : Bool) :
    Returns (letScope env level name written recursive) fun result => ∀ needs : Needs,
      result.2.Meets needs → env.Meets (needs.outside (if recursive then [name.name] else [])) := by
  refine .after fun declared => ?_
  cases recursive with
  | false => exact .pure fun needs found => found.outside_nil
  | true =>
    cases declared with
    | none => exact .after fun t => .pure fun needs found => Env.Meets.of_extendValue found
    | some t => exact .pure fun needs found => Env.Meets.of_extendValue found

theorem meets_letBinding (name : Ident) (written : Option TypeExpr) {value : Expr}
    (ih : ExprMeets value) (recursive : Bool) :
    Returns (letBinding env level name written value recursive) fun _ =>
      env.Meets (value.needs.outside (if recursive then [name.name] else [])) := by
  refine .after fun drawn => ?_
  refine .bind (meets_letScope env level name written recursive) fun result narrow => ?_
  refine .bind (ih result.2 (level + 1)) fun t found => ?_
  exact .after fun σ => .after fun _ => .pure (narrow _ found)

theorem meets_group {bindings : List GroupBinding} (ih : ∀ b ∈ bindings, ExprMeets b.value) :
    Returns (group env level bindings) fun _ =>
      env.Meets ((needsGroup bindings).outside (bindings.map (·.name.name))) := by
  refine .after fun drawn => .bind (returns_groupTypes env level bindings) fun types lengths => ?_
  refine .bind (meets_members _ level ih lengths) fun _ found => ?_
  refine .after fun schemes => .after fun _ => .pure (found.of_extendMono fun entry mem => ?_)
  exact (List.of_mem_zip mem).1

end Parts

theorem meets_expr (e : Expr) : ExprMeets e := by
  induction e using Expr.induct with
  | literal value span =>
    intro env level
    rw [expr]
    exact .pure Env.meets_nothing
  | var name =>
    intro env level
    rw [expr]
    split
    · rename_i binding found
      refine fun _ _ _ _ => ⟨?_, by simp [Expr.needs]⟩
      simp [Expr.needs, found]
    · refine .after fun p => ?_
      split
      · exact returns_fail
      · exact returns_fail
  | lambda params body span ih =>
    intro env level
    rw [expr, Expr.needs]
    refine .after fun types => .bind (ih _ (level + 1)) fun t found => .pure ?_
    exact found.of_extendMono fun entry mem => (List.of_mem_zip mem).1
  | apply function args span ihFunction ihArgs =>
    intro env level
    rw [expr, Expr.needs]
    refine .bind (ihFunction env level) fun t found => .after fun applied => ?_
    split
    · split
      · exact returns_fail
      · rename_i params result _ arity
        have enough : args.length ≤ params.length := by omega
        exact .bind (meets_arguments env level ihArgs enough) fun _ others =>
          .pure (found.append others)
    · refine .bind (meets_exprs env level ihArgs) fun types others => ?_
      exact .after fun result => .after fun _ => .pure (found.append others)
    · exact .after fun params => .after fun result => returns_fail
  | letIn name written value recursive body span ihValue ihBody =>
    intro env level
    rw [World.expr_letIn, Expr.needs]
    refine .bind (meets_letBinding env level name written ihValue recursive) fun σ found => ?_
    exact (ihBody _ level).mono fun _ inner => found.append inner.of_extendValue
  | letGroup bindings body span ihValues ihBody =>
    intro env level
    rw [World.expr_letGroup, Expr.needs]
    refine .bind ((returns_tight_group env level bindings).and (meets_group env level ihValues)) ?_
    rintro schemes ⟨⟨names, -⟩, found⟩
    refine (ihBody _ level).mono fun _ inner => ?_
    -- What the body needs of the group is there by the group itself.
    have body := inner.of_extendSchemes fun entry mem => names ▸ List.mem_map_of_mem mem
    exact found.outside_append body
  | cond condition thenBranch elseBranch span ihCondition ihThen ihElse =>
    intro env level
    rw [expr, Expr.needs]
    refine .bind (ihCondition env level) fun t found => .after fun _ => ?_
    refine .bind (ihThen env level) fun thenType foundThen => ?_
    refine .bind (ihElse env level) fun elseType foundElse => .after fun _ => .pure ?_
    exact found.append (foundThen.append foundElse)
  | block parts span ih =>
    intro env level
    rw [expr, Expr.needs]
    exact .bind (meets_exprs env level ih) fun _ found => .pure found
  | case scrutinee cases span ihScrutinee ihArms =>
    intro env level
    rw [expr, Expr.needs]
    refine .bind (ihScrutinee env level) fun t found => .after fun result => ?_
    refine .bind (meets_arms env level t result ihArms) fun _ others => .after fun s => ?_
    exact fun _ _ _ _ => found.append others
  | record parts span ih =>
    intro env level
    rw [expr, Expr.needs]
    exact .bind (meets_entries env level ih []) fun _ found => .pure found
  | update base inits span ihBase ihInits =>
    intro env level
    rw [expr, Expr.needs]
    refine .bind (ihBase env level) fun t found => .after fun applied => ?_
    have finish (declared : List (String × Ty)) : Returns (do
        updates env level applied declared inits
        return t) fun _ => env.Meets (base.needs ++ needsInits inits) :=
      .bind (meets_updates env level applied declared ihInits) fun _ others =>
        .pure (found.append others)
    split
    · exact .after finish
    · exact .after finish
  | field object name span ih =>
    intro env level
    rw [expr, Expr.needs]
    exact .bind (ih env level) fun t found => .after fun applied => fun _ _ _ _ => found
  | tuple parts span ih =>
    intro env level
    rw [expr, Expr.needs]
    exact .bind (meets_exprs env level ih) fun _ found => .pure found
  | list parts span ih =>
    intro env level
    rw [expr, Expr.needs]
    refine .after fun element => ?_
    exact .bind (meets_elements env level element ih) fun _ found => .pure found
  | makeRef value span ih =>
    intro env level
    rw [expr, Expr.needs]
    exact .bind (ih env level) fun t found => .pure found
  | deref reference span ih =>
    intro env level
    rw [expr, Expr.needs]
    exact .bind (ih env level) fun t found => .after fun content => .after fun _ => .pure found
  | assign target value span ihTarget ihValue =>
    intro env level
    rw [expr, Expr.needs]
    refine .bind (ihTarget env level) fun t found => .after fun content => .after fun _ => ?_
    refine .bind (ihValue env level) fun u others => .after fun _ => .pure ?_
    exact found.append others
  | binary op left right span ihLeft ihRight =>
    intro env level
    rw [expr, Expr.needs]
    refine .bind (ihLeft env level) fun leftType found => ?_
    exact .bind (ihRight env level) fun rightType others => fun _ _ _ _ => found.append others
  | unary op operand span ih =>
    intro env level
    rw [expr, Expr.needs]
    exact .bind (ih env level) fun t found => fun _ _ _ _ => found
  | annotated inner written span ih =>
    intro env level
    rw [expr, Expr.needs]
    exact .bind (ih env level) fun t found => .after fun expected => .after fun _ => .pure found

theorem meets_declaration (scope : Scope) (d : Declaration) :
    Returns (declaration scope d) fun _ => scope.env.Meets d.needs := by
  cases d with
  | value name written body recursive span =>
    refine .bind (meets_letBinding scope.env 0 name written (meets_expr body) recursive) ?_
    exact fun σ found => .after fun _ => .pure found
  | group bindings span =>
    refine .bind (meets_group scope.env 0 fun b _ => meets_expr b.value) fun schemes found => ?_
    exact fun _ _ _ _ => found
  | types decls span => exact fun _ _ _ _ => Env.meets_nothing
  | foreign name written foreignName span => exact fun _ _ _ _ => Env.meets_nothing
  | imports moduleName items span => exact fun _ _ _ _ => Env.meets_nothing

end Infer

end Polytype
