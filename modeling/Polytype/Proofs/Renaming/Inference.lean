import Polytype.Proofs.Inference.Let
import Polytype.Proofs.Program.References
import Polytype.Proofs.Renaming.Run

namespace Polytype.Infer

variable {κ : Comparison}

/-! ## Patterns -/

section Patterns

variable (env : Env) (level : Nat)

theorem alike_bindName (name : String) (t : Ty) (span : Span) (bound : PatternBindings) :
    Alike κ (bindName name t span bound)
      (bindName name (rename κ.ids t) span (bound.map (rename κ.ids))) := by
  unfold bindName
  rw [Assoc.get?_rename]
  cases bound.get? name with
  | some previous => exact alike_fail rfl rfl
  | none => exact .pure (Assoc.insert_rename κ.ids bound name (t, span))

theorem alike_bindNames (names bound : PatternBindings) :
    Alike κ (bindNames names bound)
      (bindNames (names.map (rename κ.ids)) (bound.map (rename κ.ids))) := by
  induction names generalizing bound with
  | nil => exact .pure rfl
  | cons entry rest ih =>
    obtain ⟨name, t, span⟩ := entry
    exact (alike_bindName name t span bound).bind fun _ => ih _

theorem alike_freshFields (fields : List FieldPattern) :
    Alike κ (freshFields level fields) (freshFields level fields) := by
  induction fields with
  | nil => exact .pure rfl
  | cons field rest ih => exact (alike_fresh level).bind fun _ => ih.bind fun _ => .pure rfl

theorem alike_tupleArity (t : Ty) (arity : Nat) (span : Span) :
    Alike κ (tupleArity t arity span) (tupleArity (rename κ.ids t) arity span) := by
  refine (alike_resolved rfl).bind fun applied => ?_
  cases applied with
  | tuple types =>
    simp only [Ty.rename_tuple, List.length_map]
    exact .ite (.pure rfl) (alike_fail rfl rfl)
  | _ => exact .pure rfl

theorem alike_unifyBindings (first names : PatternBindings) :
    Alike κ (unifyBindings env first names)
      (unifyBindings (rename κ.ids env) (first.map (rename κ.ids)) (names.map (rename κ.ids))) := by
  induction names with
  | nil => exact .pure rfl
  | cons entry rest ih =>
    obtain ⟨name, t, span⟩ := entry
    simp only [List.map_cons, rename_pair, rename_span, unifyBindings, Assoc.get?_rename]
    cases first.get? name with
    | none => exact ih
    | some expected => exact (alike_unifyAt rfl rfl).bind fun _ => ih

def PatternAlike (κ : Comparison) (env : Env) (level : Nat) (p : Pattern) : Prop :=
  ∀ t bound, Alike κ (pattern env level p t bound)
    (pattern (rename κ.ids env) level p (rename κ.ids t) (bound.map (rename κ.ids)))

theorem alike_patterns {ps : List Pattern} (ih : ∀ p ∈ ps, PatternAlike κ env level p)
    (ts : List Ty) (bound : PatternBindings) :
    Alike κ (patterns env level ps ts bound)
      (patterns (rename κ.ids env) level ps (ts.map (rename κ.ids))
        (bound.map (rename κ.ids))) := by
  induction ps generalizing ts bound with
  | nil =>
    unfold patterns
    exact .pure rfl
  | cons p ps ihRest =>
    obtain ⟨first, rest⟩ := List.forall_mem_cons.1 ih
    unfold patterns
    cases ts with
    | nil => exact .pure rfl
    | cons t ts => exact (first t bound).bind fun bound => ihRest rest ts bound

theorem alike_openFields (v : TypeVar) {fields : List FieldPattern}
    (ih : ∀ field ∈ fields, PatternAlike κ env level field.pattern) (bound : PatternBindings) :
    Alike κ (openFields env level v fields bound)
      (openFields (rename κ.ids env) level (rename κ.ids v) fields
        (bound.map (rename κ.ids))) := by
  induction fields generalizing bound with
  | nil =>
    rw [openFields, openFields]
    exact .pure rfl
  | cons field fields ihRest =>
    obtain ⟨name, p, span⟩ := field
    obtain ⟨first, rest⟩ := List.forall_mem_cons.1 ih
    rw [openFields, openFields]
    refine (alike_fieldOf rfl name level).bind fun t => ?_
    exact (first t bound).bind fun bound => ihRest rest bound

theorem alike_declaredFields (record : Ty) (declared : List (String × Ty))
    {fields : List FieldPattern} (ih : ∀ field ∈ fields, PatternAlike κ env level field.pattern)
    (bound : PatternBindings) :
    Alike κ (declaredFields env level record declared fields bound)
      (declaredFields (rename κ.ids env) level (rename κ.ids record)
        (declared.map (rename κ.ids)) fields (bound.map (rename κ.ids))) := by
  induction fields generalizing bound with
  | nil =>
    rw [declaredFields, declaredFields]
    exact .pure rfl
  | cons field fields ihRest =>
    obtain ⟨name, p, span⟩ := field
    obtain ⟨first, rest⟩ := List.forall_mem_cons.1 ih
    rw [declaredFields, declaredFields, Assoc.get?_rename]
    cases Assoc.get? declared name with
    | some t => exact (first t bound).bind fun bound => ihRest rest bound
    | none => exact (alike_fresh level).bind fun t => alike_fail rfl rfl

theorem alike_alternatives (firstSpan : Span) (first : PatternBindings) {ps : List Pattern}
    (ih : ∀ p ∈ ps, PatternAlike κ env level p) (t : Ty) :
    Alike κ (alternatives env level firstSpan first ps t)
      (alternatives (rename κ.ids env) level firstSpan (first.map (rename κ.ids)) ps
        (rename κ.ids t)) := by
  induction ps with
  | nil =>
    rw [alternatives, alternatives]
    exact .pure rfl
  | cons p ps ihRest =>
    obtain ⟨head, rest⟩ := List.forall_mem_cons.1 ih
    rw [alternatives, alternatives]
    refine (head t []).bind fun names => ?_
    simp only [rename_list, Assoc.keys_rename]
    refine .ite ?_ (alike_fail rfl rfl)
    exact (alike_unifyBindings env first names).bind fun _ => ihRest rest

theorem alike_pattern (p : Pattern) : PatternAlike κ env level p := by
  induction p using Pattern.induct with
  | wild span =>
    intro t bound
    rw [pattern, pattern]
    exact .pure rfl
  | var name =>
    intro t bound
    rw [pattern, pattern]
    exact alike_bindName name.name t name.span bound
  | literal value span =>
    intro t bound
    rw [pattern, pattern]
    refine (alike_unifyAt rfl ?_).bind fun _ => .pure rfl
    cases value <;> rfl
  | constructor name args span ih =>
    intro t bound
    rw [pattern, pattern, Env.constructor?_rename]
    cases env.constructor? name.name with
    | none => exact alike_fail rfl rfl
    | some c =>
      simp only [Option.map_some, Constructor.arity_rename, Constructor.rename_params,
        Constructor.rename_result, Constructor.rename_args, Constructor.rename_name, List.length_map]
      refine .ite ((alike_freshList level _).bind fun fresh => ?_) (alike_fail rfl rfl)
      simp only [rename_list, zip_rename, Subst.ofPairs_rename]
      rw [Subst.map_apply_rename]
      refine (alike_unifyAt rfl (Subst.apply_rename ..)).bind fun _ => ?_
      exact alike_patterns env level ih _ bound
  | record fields span ih =>
    intro t bound
    rw [pattern, pattern]
    refine (alike_resolved rfl).bind fun applied => ?_
    split
    · exact alike_openFields env level _ ih bound
    · rename_i closed
      have renamed := Ty.rename_ne_var κ.ids closed
      split
      · rename_i declared found
        split
        · exact (renamed _ ‹_›).elim
        · rw [Env.recordFields_rename, found]
          exact alike_declaredFields env level applied declared ih bound
      · rename_i found
        split
        · exact (renamed _ ‹_›).elim
        · rw [Env.recordFields_rename, found]
          exact (alike_freshFields level fields).bind fun shape => alike_fail (by simp) rfl
  | tuple elements span ih =>
    intro t bound
    rw [pattern, pattern]
    refine (alike_tupleArity t elements.length span).bind fun _ => ?_
    refine (alike_freshList level elements.length).bind fun types => ?_
    refine (alike_unifyAt rfl (by simp)).bind fun _ => ?_
    exact alike_patterns env level ih types bound
  | list elements rest span ih ihRest =>
    intro t bound
    have starting (element : Ty) : Alike κ
        (patterns env level elements (List.replicate elements.length element) bound)
        (patterns (rename κ.ids env) level elements
          (List.replicate elements.length (rename κ.ids element)) (bound.map (rename κ.ids))) := by
      rw [← List.map_replicate]
      exact alike_patterns env level ih _ bound
    cases rest with
    | none =>
      rw [pattern, pattern]
      refine (alike_fresh level).bind fun element => ?_
      exact (alike_unifyAt rfl rfl).bind fun _ => starting element
    | some rest =>
      rw [pattern, pattern]
      refine (alike_fresh level).bind fun element => ?_
      refine (alike_unifyAt rfl rfl).bind fun _ => (starting element).bind fun bound => ?_
      exact ihRest rest rfl (.list element) bound
  | either ps span ih =>
    intro t bound
    cases ps with
    | nil =>
      rw [pattern, pattern]
      exact alike_fail rfl rfl
    | cons first rest =>
      obtain ⟨head, others⟩ := List.forall_mem_cons.1 ih
      rw [pattern, pattern]
      refine (head t []).bind fun names => ?_
      refine (alike_alternatives env level first.span names others t).bind fun _ => ?_
      exact alike_bindNames names bound

theorem alike_checkPattern (p : Pattern) (t : Ty) :
    Alike κ (checkPattern env level p t)
      (checkPattern (rename κ.ids env) level p (rename κ.ids t)) := by
  refine (alike_pattern env level p t []).bind fun names => .pure ?_
  exact Assoc.mapValues_rename names fun _ => rfl

end Patterns

/-! ## Parts of expressions -/

section Parts

variable (env : Env) (level : Nat)

theorem alike_operand (span : Span) (allowed : List String) (t : Ty) :
    Alike κ (operand env span allowed t)
      (operand (rename κ.ids env) span allowed (rename κ.ids t)) := by
  refine (alike_resolved rfl).bind fun applied => ?_
  cases applied with
  | var v => exact (alike_unifyAt rfl rfl).bind fun _ => .pure rfl
  | _ => exact .ite (.pure rfl) (alike_fail rfl rfl)

theorem alike_binary (op : BinaryOp) (left right : Ty) (leftSpan rightSpan span : Span) :
    Alike κ (binary env op left right leftSpan rightSpan span)
      (binary (rename κ.ids env) op (rename κ.ids left) (rename κ.ids right) leftSpan rightSpan
        span) := by
  cases op with
  | add | sub | mul | div | mod =>
    exact (alike_unifyAt rfl rfl).bind fun _ => alike_operand env span _ left
  | lt | ltEq | gt | gtEq =>
    exact (alike_unifyAt rfl rfl).bind fun _ =>
      (alike_operand env span _ left).bind fun _ => .pure rfl
  | eq | notEq =>
    refine (alike_unifyAt rfl rfl).bind fun _ => (alike_resolved rfl).bind fun compared => ?_
    rw [Ty.hasFunction_rename]
    exact .ite (alike_fail rfl rfl) (.pure rfl)
  | and | or | concat =>
    exact (alike_unifyAt rfl rfl).bind fun _ => (alike_unifyAt rfl rfl).bind fun _ => .pure rfl
  | cons => exact (alike_unifyAt rfl rfl).bind fun _ => .pure rfl

theorem alike_unary (op : UnaryOp) (t : Ty) (operandSpan span : Span) :
    Alike κ (unary env op t operandSpan span)
      (unary (rename κ.ids env) op (rename κ.ids t) operandSpan span) := by
  cases op with
  | neg => exact alike_operand env span _ t
  | not => exact (alike_unifyAt rfl rfl).bind fun _ => .pure rfl

theorem alike_fieldsAt (span : Span) (t : Ty) :
    Alike κ (fieldsAt env span t) (fieldsAt (rename κ.ids env) span (rename κ.ids t)) := by
  unfold fieldsAt
  rw [Env.recordFields_rename]
  cases env.recordFields t with
  | some fields => exact .pure rfl
  | none => exact alike_fail rfl rfl

theorem alike_spreadFields (span : Span) (t : Ty) :
    Alike κ (spreadFields env span t) (spreadFields (rename κ.ids env) span (rename κ.ids t)) := by
  unfold spreadFields
  rw [Env.recordFields_rename]
  cases env.recordFields t with
  | some fields => exact .pure rfl
  | none => cases t <;> exact alike_fail rfl rfl

theorem alike_updatedFields (v : TypeVar) (inits : List FieldInit) (fields : List (String × Ty)) :
    Alike κ (updatedFields level v inits fields)
      (updatedFields level (rename κ.ids v) inits (fields.map (rename κ.ids))) := by
  induction inits generalizing fields with
  | nil => exact .pure rfl
  | cons init rest ih =>
    refine (alike_fieldOf rfl init.name level).bind fun t => ?_
    rw [Assoc.insert_rename]
    exact ih _

theorem alike_letScope (name : Ident) (written : Option TypeExpr) (recursive : Bool) :
    Alike κ (letScope env level name written recursive)
      (letScope (rename κ.ids env) level name written recursive) := by
  have declared : Alike κ (written.mapM (writtenType env (level + 1)))
      (written.mapM (writtenType (rename κ.ids env) (level + 1))) := by
    cases written with
    | none => exact .pure rfl
    | some written => exact (alike_writtenType env (level + 1) written).bind fun _ => .pure rfl
  refine declared.bind fun declared => .ite ?_ (.pure rfl)
  cases declared with
  | none => exact (alike_fresh (level + 1)).bind fun t => .pure (by simp [← Scheme.rename_mono])
  | some t => exact .pure (by simp [← Scheme.rename_mono])

theorem alike_settle (name : Ident) (value : Expr) (bound : Ty) :
    Alike κ (settle env level name value bound)
      (settle (rename κ.ids env) level name value (rename κ.ids bound)) := by
  unfold settle
  rw [Expr.isValue_rename]
  refine .ite ((alike_closeRecords level rfl _).bind fun _ => ?_) ?_
  all_goals
    refine (alike_schemeOf env level rfl _).bind fun σ => ?_
    rw [Scheme.isPolymorphic_rename]
    refine .ite ((alike_lower level rfl).bind fun _ => ?_) ?_
    all_goals exact alike_log.bind fun _ => .pure rfl

theorem alike_letScheme (name : Ident) (expected : Option Ty) (value : Expr) (t : Ty) :
    Alike κ (letScheme env level name expected value t)
      (letScheme (rename κ.ids env) level name (expected.map (rename κ.ids)) value
        (rename κ.ids t)) := by
  cases expected with
  | none => exact alike_settle env level name value t
  | some u => exact (alike_unifyAt rfl rfl).bind fun _ => alike_settle env level name value u

theorem alike_groupTypes (bindings : List GroupBinding) :
    Alike κ (groupTypes env level bindings) (groupTypes (rename κ.ids env) level bindings) := by
  induction bindings with
  | nil => exact .pure rfl
  | cons member rest ih =>
    have first : Alike κ (writtenTypeOrFresh env (level + 1) member.written)
        (writtenTypeOrFresh (rename κ.ids env) (level + 1) member.written) := by
      cases member.written with
      | none => exact alike_fresh _
      | some written => exact alike_writtenType env _ written
    exact first.bind fun _ => ih.bind fun _ => .pure rfl

theorem groupScope_rename (ρ : Renaming) (members : List GroupBinding) (types : List Ty) :
    groupScope (rename ρ env) members (types.map (rename ρ)) =
      rename ρ (groupScope env members types) := by
  simp [groupScope]

theorem alike_closeGroup (members : List GroupBinding) (ts : List Ty) :
    Alike κ (closeGroup level members ts) (closeGroup level members (ts.map (rename κ.ids))) := by
  induction members generalizing ts with
  | nil => exact .pure rfl
  | cons member members ih =>
    cases ts with
    | nil => exact .pure rfl
    | cons t ts => exact (alike_closeRecords level rfl _).bind fun _ => ih ts

theorem alike_groupSchemes (generalizable : Bool) (members : List GroupBinding) (ts : List Ty) :
    Alike κ (groupSchemes env level generalizable members ts)
      (groupSchemes (rename κ.ids env) level generalizable members (ts.map (rename κ.ids))) := by
  induction members generalizing ts with
  | nil => exact .pure rfl
  | cons member members ih =>
    cases ts with
    | nil => exact .pure rfl
    | cons t ts =>
      refine (alike_schemeOf env level rfl generalizable).bind fun σ => ?_
      exact alike_log.bind fun _ => (ih ts).bind fun _ => .pure rfl

theorem alike_lowerGroup (ts : List Ty) :
    Alike κ (lowerGroup level ts) (lowerGroup level (ts.map (rename κ.ids))) := by
  induction ts with
  | nil => exact .pure rfl
  | cons t ts ih => exact (alike_lower level rfl).bind fun _ => ih

theorem alike_finishGroup (members : List GroupBinding) (types : List Ty) :
    Alike κ (finishGroup env level members types)
      (finishGroup (rename κ.ids env) level members (types.map (rename κ.ids))) := by
  simp only [finishGroup, Expr.isValue_rename]
  refine .ite ((alike_closeGroup level members types).bind fun _ => ?_) ?_
  all_goals
    refine (alike_groupSchemes env level _ members types).bind fun schemes => ?_
    exact .ite ((alike_lowerGroup level types).bind fun _ => .pure rfl) (.pure rfl)

end Parts

/-! ## Expressions -/

def ExprAlike (κ : Comparison) (e : Expr) : Prop :=
  ∀ env level, Alike κ (expr env level e) (expr (rename κ.ids env) level e)

section Expressions

variable (env : Env) (level : Nat)

theorem alike_exprs {es : List Expr} (ih : ∀ e ∈ es, ExprAlike κ e) :
    Alike κ (exprs env level es) (exprs (rename κ.ids env) level es) := by
  induction es with
  | nil =>
    rw [exprs, exprs]
    exact .pure rfl
  | cons e es ihRest =>
    obtain ⟨first, rest⟩ := List.forall_mem_cons.1 ih
    rw [exprs, exprs]
    exact (first env level).bind fun _ => (ihRest rest).bind fun _ => .pure rfl

theorem alike_arguments {es : List Expr} (ih : ∀ e ∈ es, ExprAlike κ e) (params : List Ty) :
    Alike κ (arguments env level es params)
      (arguments (rename κ.ids env) level es (params.map (rename κ.ids))) := by
  induction es generalizing params with
  | nil =>
    unfold arguments
    exact .pure rfl
  | cons e es ihRest =>
    obtain ⟨first, rest⟩ := List.forall_mem_cons.1 ih
    unfold arguments
    cases params with
    | nil => exact .pure rfl
    | cons param params =>
      refine (first env level).bind fun t => (alike_unifyAt rfl rfl).bind fun _ => ?_
      exact ihRest rest params

theorem alike_elements (element : Ty) {es : List Expr} (ih : ∀ e ∈ es, ExprAlike κ e) :
    Alike κ (elements env level element es)
      (elements (rename κ.ids env) level (rename κ.ids element) es) := by
  rw [elements_eq, elements_eq, ← List.map_replicate]
  exact alike_arguments env level ih _

theorem alike_members {bindings : List GroupBinding} (ih : ∀ b ∈ bindings, ExprAlike κ b.value)
    (ts : List Ty) :
    Alike κ (members env level bindings ts)
      (members (rename κ.ids env) level bindings (ts.map (rename κ.ids))) := by
  rw [members_eq, members_eq]
  exact alike_arguments env (level + 1) (List.forall_mem_map.2 ih) ts

theorem alike_guardOf {guard : Option Expr} (ih : ∀ e, guard = some e → ExprAlike κ e) :
    Alike κ (guardOf env level guard) (guardOf (rename κ.ids env) level guard) := by
  cases guard with
  | none =>
    rw [guardOf, guardOf]
    exact .pure rfl
  | some guard =>
    rw [guardOf, guardOf]
    refine (ih guard rfl env level).bind fun t => alike_getSubst.bind fun s => ?_
    have unified := unify_expand_rename κ.ids env .bool t s
    rw [Ty.rename_const] at unified
    rw [unified]
    cases unify env.expand .bool t s with
    | ok s => exact alike_setSubst rfl
    | error clash => exact alike_fail (by simp) rfl

theorem alike_arms (scrutinee result : Ty) {cases : List Arm}
    (ih : ∀ arm ∈ cases, arm.Each (ExprAlike κ)) :
    Alike κ (arms env level scrutinee result cases)
      (arms (rename κ.ids env) level (rename κ.ids scrutinee) (rename κ.ids result) cases) := by
  induction cases with
  | nil =>
    rw [arms, arms]
    exact .pure rfl
  | cons arm rest ihRest =>
    obtain ⟨p, guard, body, span⟩ := arm
    obtain ⟨⟨ihGuard, ihBody⟩, others⟩ := List.forall_mem_cons.1 ih
    rw [arms, arms]
    refine (alike_checkPattern env level p scrutinee).bind fun bound => ?_
    rw [rename_list, Env.extendMono_rename]
    refine (alike_guardOf _ level ihGuard).bind fun _ => ?_
    refine (ihBody _ level).bind fun t => (alike_unifyAt rfl rfl).bind fun _ => ?_
    exact ihRest others

theorem alike_entries {parts : List Entry} (ih : ∀ entry ∈ parts, entry.Each (ExprAlike κ))
    (fields : List (String × Ty)) :
    Alike κ (entries env level parts fields)
      (entries (rename κ.ids env) level parts (fields.map (rename κ.ids))) := by
  induction parts generalizing fields with
  | nil =>
    rw [entries, entries]
    exact .pure rfl
  | cons entry rest ihRest =>
    obtain ⟨first, others⟩ := List.forall_mem_cons.1 ih
    cases entry with
    | field init =>
      obtain ⟨name, value, span⟩ := init
      rw [entries, entries]
      refine (first env level).bind fun t => ?_
      rw [Assoc.insert_rename]
      exact ihRest others _
    | spread base =>
      rw [entries, entries]
      refine (first env level).bind fun t => (alike_resolved rfl).bind fun applied => ?_
      refine (alike_spreadFields env _ applied).bind fun spread => ?_
      rw [rename_list, Assoc.insertAll_rename]
      exact ihRest others _

theorem alike_updates (record : Ty) (declared : List (String × Ty)) {inits : List FieldInit}
    (ih : ∀ init ∈ inits, ExprAlike κ init.value) :
    Alike κ (updates env level record declared inits)
      (updates (rename κ.ids env) level (rename κ.ids record) (declared.map (rename κ.ids))
        inits) := by
  induction inits with
  | nil =>
    rw [updates, updates]
    exact .pure rfl
  | cons init rest ihRest =>
    obtain ⟨name, value, span⟩ := init
    obtain ⟨first, others⟩ := List.forall_mem_cons.1 ih
    rw [updates, updates, Assoc.get?_rename]
    cases Assoc.get? declared name with
    | none => exact alike_fail rfl rfl
    | some expected =>
      exact (first env level).bind fun t => (alike_unifyAt rfl rfl).bind fun _ => ihRest others

theorem alike_letBinding (name : Ident) (written : Option TypeExpr) {value : Expr}
    (ih : ExprAlike κ value) (recursive : Bool) :
    Alike κ (letBinding env level name written value recursive)
      (letBinding (rename κ.ids env) level name written value recursive) := by
  refine alike_drawnSoFar_bind fun drawn drawn' => ?_
  refine (alike_letScope env level name written recursive).bind fun result => ?_
  refine (ih result.2 (level + 1)).bind fun t => ?_
  refine (alike_letScheme env level name result.1 value t).bind fun σ => ?_
  exact alike_noteSchemes.bind fun _ => .pure rfl

theorem alike_group {bindings : List GroupBinding} (ih : ∀ b ∈ bindings, ExprAlike κ b.value) :
    Alike κ (group env level bindings) (group (rename κ.ids env) level bindings) := by
  refine alike_drawnSoFar_bind fun drawn drawn' => ?_
  refine (alike_groupTypes env level bindings).bind fun types => ?_
  rw [rename_list, groupScope_rename]
  refine (alike_members _ level ih types).bind fun _ => ?_
  refine (alike_finishGroup env level bindings types).bind fun schemes => ?_
  exact alike_noteSchemes.bind fun _ => .pure rfl

theorem alike_unbound {name : Ident} (h : name.name ∉ κ.hidden) :
    Alike κ
      (do
        if (← get).failed.contains name.name then fail (.dependsOnFailed name.name) name.span
        else fail (.unknownVariable name.name) name.span : Infer Ty)
      (do
        if (← get).failed.contains name.name then fail (.dependsOnFailed name.name) name.span
        else fail (.unknownVariable name.name) name.span) := by
  intro p
  simp only [get_bind]
  refine ⟨by split <;> exact Nat.le_refl _, fun p' hp _ => ?_⟩
  rw [hp.failed name.name h]
  split <;> exact .error hp

theorem alike_expr (e : Expr) (avoids : e.Avoids κ.hidden) : ExprAlike κ e := by
  induction e using Expr.induct with
  | literal value span =>
    intro env level
    rw [expr, expr]
    refine .pure ?_
    cases value <;> rfl
  | var name =>
    intro env level
    rw [expr, expr, Env.lookup_rename]
    cases env.lookup name.name with
    | some binding => exact alike_instantiate (binding.scheme_rename κ.ids) level
    | none => exact alike_unbound (avoids name.name List.mem_cons_self)
  | lambda params body span ih =>
    intro env level
    rw [expr, expr]
    refine (alike_resolving rfl (Resolve.alike_params env (level + 1) params)).bind fun types => ?_
    rw [rename_list, zip_names_rename, Env.extendMono_rename]
    exact (ih avoids _ (level + 1)).bind fun result => .pure (by simp)
  | apply function args span ihFunction ihArgs =>
    obtain ⟨hfunction, hargs⟩ := List.forall_mem_append.1 avoids
    have ihArgs : ∀ e ∈ args, ExprAlike κ e := fun e he => ihArgs e he (avoids_list hargs e he)
    intro env level
    rw [expr, expr]
    refine (ihFunction hfunction env level).bind fun t => (alike_resolved rfl).bind fun applied => ?_
    rw [Env.callee_rename]
    cases env.callee applied with
    | func params result =>
      simp only [Ty.rename_func, List.length_map, List.isEmpty_map]
      refine .ite (alike_fail rfl (by simp)) ?_
      refine (alike_arguments env level ihArgs params).bind fun _ => .pure ?_
      simp [apply_ite (rename κ.ids)]
    | var v =>
      refine (alike_exprs env level ihArgs).bind fun types => ?_
      refine (alike_fresh level).bind fun result => ?_
      exact (alike_unifyAt rfl (by simp)).bind fun _ => .pure rfl
    | _ =>
      refine (alike_freshList level args.length).bind fun params => ?_
      exact (alike_fresh level).bind fun result => alike_fail (by simp) rfl
  | letIn name written value recursive body span ihValue ihBody =>
    obtain ⟨hvalue, hbody⟩ := List.forall_mem_append.1 avoids
    intro env level
    rw [World.expr_letIn, World.expr_letIn]
    refine (alike_letBinding env level name written (ihValue hvalue) recursive).bind fun σ => ?_
    rw [Env.extendValue_rename]
    exact ihBody hbody _ level
  | letGroup bindings body span ihValues ihBody =>
    obtain ⟨hbindings, hbody⟩ := List.forall_mem_append.1 avoids
    have ihValues : ∀ b ∈ bindings, ExprAlike κ b.value :=
      fun b hb => ihValues b hb (avoids_group hbindings b hb)
    intro env level
    rw [World.expr_letGroup, World.expr_letGroup]
    refine (alike_group env level ihValues).bind fun schemes => ?_
    rw [rename_list, Env.extendSchemes_rename]
    exact ihBody hbody _ level
  | cond condition thenBranch elseBranch span ihCondition ihThen ihElse =>
    obtain ⟨hcondition, h⟩ := List.forall_mem_append.1 avoids
    obtain ⟨hthen, helse⟩ := List.forall_mem_append.1 h
    intro env level
    rw [expr, expr]
    refine (ihCondition hcondition env level).bind fun t => (alike_unifyAt rfl rfl).bind fun _ => ?_
    refine (ihThen hthen env level).bind fun thenType => ?_
    refine (ihElse helse env level).bind fun elseType => ?_
    exact (alike_unifyAt rfl rfl).bind fun _ => .pure rfl
  | block parts span ih =>
    intro env level
    rw [expr, expr]
    refine (alike_exprs env level fun e he => ih e he (avoids_list avoids e he)).bind fun ts => ?_
    exact .pure (getLastD_rename κ.ids ts .unit)
  | case scrutinee cases span ihScrutinee ihArms =>
    obtain ⟨hscrutinee, harms⟩ := List.forall_mem_append.1 avoids
    have ihArms : ∀ arm ∈ cases, arm.Each (ExprAlike κ) := by
      intro arm harm
      obtain ⟨hguard, hbody⟩ := avoids_arms harms arm harm
      exact ⟨fun guard heq => (ihArms arm harm).1 guard heq (hguard guard heq),
        (ihArms arm harm).2 hbody⟩
    intro env level
    rw [expr, expr]
    refine (ihScrutinee hscrutinee env level).bind fun t => ?_
    refine (alike_fresh level).bind fun result => ?_
    refine (alike_arms env level t result ihArms).bind fun _ => alike_getSubst.bind fun s => ?_
    simp only [Subst.applyShapes_rename, missingCase?_rename]
    generalize missingCase? env (s.applyShapes t) _ = missing
    cases missing with
    | some missing => exact alike_fail rfl rfl
    | none => exact .pure rfl
  | record parts span ih =>
    have ih : ∀ entry ∈ parts, entry.Each (ExprAlike κ) := by
      intro entry hentry
      have hparts := avoids_entries avoids entry hentry
      cases entry with
      | field init => exact ih _ hentry hparts
      | spread base => exact ih _ hentry hparts
    intro env level
    rw [expr, expr]
    exact (alike_entries env level ih []).bind fun fields => .pure (by simp)
  | update base inits span ihBase ihInits =>
    obtain ⟨hbase, hinits⟩ := List.forall_mem_append.1 avoids
    have ihInits : ∀ init ∈ inits, ExprAlike κ init.value :=
      fun init hinit => ihInits init hinit (avoids_inits hinits init hinit)
    intro env level
    rw [expr, expr]
    refine (ihBase hbase env level).bind fun t => (alike_resolved rfl).bind fun applied => ?_
    cases applied with
    | var v =>
      refine (alike_updatedFields level v inits []).bind fun declared => ?_
      exact (alike_updates env level _ declared ihInits).bind fun _ => .pure rfl
    | _ =>
      refine (alike_fieldsAt env _ _).bind fun declared => ?_
      exact (alike_updates env level _ declared ihInits).bind fun _ => .pure rfl
  | field object name span ih =>
    intro env level
    rw [expr, expr]
    refine (ih avoids env level).bind fun t => (alike_resolved rfl).bind fun applied => ?_
    cases applied with
    | var v => exact alike_fieldOf rfl name level
    | _ =>
      refine (alike_fieldsAt env _ _).bind fun fields => ?_
      rw [rename_list, Assoc.get?_rename]
      cases Assoc.get? fields name with
      | some t => exact .pure rfl
      | none => exact alike_fail rfl rfl
  | tuple parts span ih =>
    intro env level
    rw [expr, expr]
    refine (alike_exprs env level fun e he => ih e he (avoids_list avoids e he)).bind fun ts => ?_
    exact .pure (by simp)
  | list parts span ih =>
    intro env level
    rw [expr, expr]
    refine (alike_fresh level).bind fun element => ?_
    refine (alike_elements env level element fun e he =>
      ih e he (avoids_list avoids e he)).bind fun _ => ?_
    exact .pure rfl
  | makeRef value span ih =>
    intro env level
    rw [expr, expr]
    exact (ih avoids env level).bind fun _ => .pure rfl
  | deref reference span ih =>
    intro env level
    rw [expr, expr]
    refine (ih avoids env level).bind fun t => (alike_fresh level).bind fun content => ?_
    exact (alike_unifyAt rfl rfl).bind fun _ => .pure rfl
  | assign target value span ihTarget ihValue =>
    obtain ⟨htarget, hvalue⟩ := List.forall_mem_append.1 avoids
    intro env level
    rw [expr, expr]
    refine (ihTarget htarget env level).bind fun t => (alike_fresh level).bind fun content => ?_
    refine (alike_unifyAt rfl rfl).bind fun _ => (ihValue hvalue env level).bind fun valueType => ?_
    exact (alike_unifyAt rfl rfl).bind fun _ => .pure rfl
  | binary op left right span ihLeft ihRight =>
    obtain ⟨hleft, hright⟩ := List.forall_mem_append.1 avoids
    intro env level
    rw [expr, expr]
    refine (ihLeft hleft env level).bind fun leftType => ?_
    refine (ihRight hright env level).bind fun rightType => ?_
    exact alike_binary env op leftType rightType _ _ span
  | unary op operand span ih =>
    intro env level
    rw [expr, expr]
    exact (ih avoids env level).bind fun t => alike_unary env op t _ span
  | annotated inner written span ih =>
    intro env level
    rw [expr, expr]
    refine (ih avoids env level).bind fun t => ?_
    refine (alike_writtenType env level written).bind fun expected => ?_
    exact (alike_unifyAt rfl rfl).bind fun _ => .pure rfl

end Expressions

end Polytype.Infer
