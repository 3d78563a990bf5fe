import Mathlib.Logic.Relation
import Polytype.Proofs.Inference.Declaration
import Polytype.Proofs.Inference.Run
import Polytype.Proofs.Subst.Operation

namespace Polytype

def Subst.Operation.In (scopes : Env → Prop) : Operation → Prop
  | unify env _ _ => scopes env
  | _ => True

namespace Progress

inductive Step (scopes : Env → Prop) (p : Progress) : Progress → Prop
  | draw {next} : p.next ≤ next → Step scopes p { p with next }
  | log {event} : Step scopes p { p with events := p.events.push event }
  | note {env drawn schemes} : scopes env →
      Step scopes p { p with history := .generalized env drawn schemes p.subst :: p.history }
  | solve {operation} : Subst.Operation.In scopes operation → Step scopes p
      { p with
        subst := operation.run p.subst
        history := .solved (operation.run p.subst) :: p.history }

abbrev Steps (scopes : Env → Prop) : Progress → Progress → Prop :=
  Relation.ReflTransGen (Step scopes)

theorem Steps.extends {scopes : Env → Prop} {p q : Progress} (h : Steps scopes p q)
    (hp : p.subst.Resolved) : p.subst.Extends Ty.anyId (fun _ => True) q.subst := by
  induction h with
  | refl => exact .refl hp ⟨fun _ _ => trivial, fun _ _ _ => trivial⟩
  | tail _ step ih =>
    cases step with
    | draw | log | note => exact ih
    | solve => exact ih.trans (ih.resolved.extends_outcome (Subst.Operation.outcome_run _ _))

end Progress

def Env.Nesting (scopes : Env → Prop) : Prop :=
  ∀ env values, scopes env → scopes (env.extendAll (Assoc.mapValues .value values))

namespace Env.Nesting

variable {scopes : Env → Prop} (nesting : Nesting scopes) {env : Env} (henv : scopes env)

include nesting henv

theorem extendValue (name : String) (σ : Scheme) : scopes (env.extendValue name σ) :=
  nesting env [(name, σ)] henv

theorem extendMono (types : List (String × Ty)) : scopes (env.extendMono types) := by
  have := nesting env (Assoc.mapValues .mono types) henv
  rwa [Assoc.mapValues, Assoc.mapValues, List.map_map] at this

end Env.Nesting

namespace Infer

open Progress

/-- What a run leaves to work on, whether it fails or not. -/
def after {α : Type} (m : Infer α) (p : Progress) : Progress :=
  match m p with
  | .ok _ q => q
  | .error _ q => q

def Stepwise {α : Type} (scopes : Env → Prop) (m : Infer α) : Prop :=
  ∀ p, Steps scopes p (after m p)

variable {scopes : Env → Prop} {α β : Type}

/-! ## Putting runs together -/

theorem Stepwise.ok {m : Infer α} (h : Stepwise scopes m) {p q : Progress} {a : α}
    (run : m p = .ok a q) : Steps scopes p q := by
  have steps := h p
  rwa [after, run] at steps

theorem Stepwise.error {m : Infer α} (h : Stepwise scopes m) {p q : Progress} {e : TypeError}
    (run : m p = .error e q) : Steps scopes p q := by
  have steps := h p
  rwa [after, run] at steps

theorem Stepwise.single {m : Infer α} (h : ∀ p, Step scopes p (after m p)) : Stepwise scopes m :=
  fun p => .single (h p)

theorem stepwise_pure (a : α) : Stepwise scopes (pure a) := fun _ => .refl

theorem stepwise_fail {cause : Cause} {span : Span} {hint : Option Hint} {related : List Span} :
    Stepwise scopes (fail cause span hint related : Infer α) := fun _ => .refl

theorem Stepwise.bindOf {m : Infer α} {f : α → Infer β} {P : α → Prop} (hm : Stepwise scopes m)
    (returns : Returns m P) (hf : ∀ a, P a → Stepwise scopes (f a)) :
    Stepwise scopes (m >>= f) := by
  intro p
  cases run : m p with
  | error e q =>
    rw [after, run_bind_error run]
    exact hm.error run
  | ok a q =>
    rw [after, run_bind_ok run]
    exact (hm.ok run).trans (hf a (returns p a q run) q)

theorem Stepwise.bind {m : Infer α} {f : α → Infer β} (hm : Stepwise scopes m)
    (hf : ∀ a, Stepwise scopes (f a)) : Stepwise scopes (m >>= f) :=
  hm.bindOf (fun _ _ _ _ => trivial) fun a _ => hf a

theorem after_bind {m : Infer α} {f : α → Infer β} {p q : Progress} {a : α} (run : m p = .ok a q) :
    after (m >>= f) p = after (f a) q := by
  rw [after, run_bind_ok run, after]

theorem after_getSubst {f : Subst → Infer α} (p : Progress) :
    after (getSubst >>= f) p = after (f p.subst) p := rfl

theorem stepwise_get : Stepwise scopes (get : Infer Progress) := fun _ => .refl

theorem stepwise_drawnSoFar : Stepwise scopes drawnSoFar := fun _ => .refl

theorem stepwise_getSubst : Stepwise scopes getSubst := fun _ => .refl

theorem stepwise_resolved (t : Ty) : Stepwise scopes (resolved t) := fun _ => .refl

theorem stepwise_log (event : Event) : Stepwise scopes (log event) := .single fun _ => .log

theorem stepwise_noteSchemes {env : Env} (henv : scopes env) (drawn : Nat) (schemes : List Scheme) :
    Stepwise scopes (noteSchemes env drawn schemes) := .single fun _ => .note henv

theorem stepwise_freshVar (level : Nat) : Stepwise scopes (freshVar level) :=
  .single fun _ => .draw (Nat.le_succ _)

theorem stepwise_fresh (level : Nat) : Stepwise scopes (fresh level) :=
  (stepwise_freshVar level).bind fun _ => stepwise_pure _

theorem stepwise_freshList (level count : Nat) : Stepwise scopes (freshList level count) := by
  induction count with
  | zero => exact stepwise_pure _
  | succ count ih => exact (stepwise_fresh level).bind fun _ => ih.bind fun _ => stepwise_pure _

theorem stepwise_instantiate (σ : Scheme) (level : Nat) :
    Stepwise scopes (instantiate σ level) :=
  (stepwise_freshList level _).bind fun _ => (stepwise_log _).bind fun _ => stepwise_pure _

theorem stepwise_resolving {level : Option Nat} {names : Assoc String Ty} {x : Resolve α}
    {post : Nat → α → NameScope → Prop}
    (h : ∀ next, Resolve.Finds level ⟨next, names⟩ x (post next)) :
    Stepwise scopes (resolving names x) := by
  intro p
  have found := h p.next
  unfold Resolve.Finds at found
  unfold after resolving
  cases run : x ⟨p.next, names⟩ with
  | ok a scope =>
    rw [run] at found
    exact .single (.draw found.1.next)
  | error e scope =>
    rw [run] at found
    exact .single (.draw found)

theorem stepwise_writtenType (env : Env) (level : Nat) (written : TypeExpr) :
    Stepwise scopes (writtenType env level written) :=
  stepwise_resolving fun _ => Resolve.finds_type written _

/-! ## Changing the substitution -/

theorem step_setSubst (operation : Subst.Operation) (hin : operation.In scopes) {p : Progress}
    {s : Subst} (h : operation.run p.subst = s) : Steps scopes p (after (setSubst s) p) := by
  subst h
  exact .single (.solve hin)

theorem run_unify {env : Env} {expected actual : Ty} {s s' : Subst}
    (h : unify env.expand expected actual s = .ok s') :
    (Subst.Operation.unify env expected actual).run s = s' := by
  simp [Subst.Operation.run, h]

theorem stepwise_unifyAt {env : Env} (henv : scopes env) (span : Span) (expected actual : Ty) :
    Stepwise scopes (unifyAt env span expected actual) := by
  intro p
  rw [unifyAt, after_getSubst]
  split
  · rename_i h
    exact step_setSubst (.unify env expected actual) henv (run_unify h)
  · exact .refl

theorem stepwise_fieldOf (v : TypeVar) (field : String) (level : Nat) :
    Stepwise scopes (fieldOf v field level) := by
  have required (t : Ty) : Stepwise scopes (do
      setSubst ((← getSubst).requireField v field t)
      return t) := by
    intro p
    exact step_setSubst (.requireField v field t) trivial rfl
  refine stepwise_getSubst.bind fun s => ?_
  split
  · exact stepwise_pure _
  · exact (stepwise_fresh level).bind required

theorem run_logAll (scopes : Env → Prop) (closed : List Closing) (p : Progress) :
    ∃ events, (forIn closed PUnit.unit fun closing _ => do
        log (.closed closing)
        return .yield PUnit.unit : Infer PUnit) p = .ok PUnit.unit { p with events } ∧
      Steps scopes p { p with events } := by
  induction closed generalizing p with
  | nil => exact ⟨p.events, rfl, .refl⟩
  | cons closing rest ih =>
    obtain ⟨events, run, steps⟩ := ih { p with events := p.events.push (.closed closing) }
    refine ⟨events, ?_, .head .log steps⟩
    rw [List.forIn_cons, bind_assoc]
    exact run

theorem stepwise_closeRecords (level : Nat) (t : Ty) (span : Span) :
    Stepwise scopes (closeRecords level t span) := by
  intro p
  have closing {s : Subst} (h : (p.subst.closeRecords t level).2 = .ok s) :
      (Subst.Operation.closeRecords t level).run p.subst = s := by
    simp [Subst.Operation.run, h]
  rw [closeRecords, after_getSubst]
  generalize p.subst.closeRecords t level = outcome at closing ⊢
  obtain ⟨closed, result⟩ := outcome
  obtain ⟨events, run, steps⟩ := run_logAll scopes closed p
  rw [after_bind run]
  cases result with
  | error clash => exact steps
  | ok s =>
    refine steps.trans (step_setSubst (.closeRecords t level) ?_ ?_)
    · trivial
    · exact closing rfl

theorem stepwise_lower (level : Nat) (t : Ty) : Stepwise scopes (lower level t) := by
  intro p
  rw [lower, after_getSubst]
  exact step_setSubst (.lower t level) trivial rfl

/-! ## Patterns -/

section Patterns

variable {env : Env} (henv : scopes env) {level : Nat}

theorem stepwise_bindName (name : String) (t : Ty) (span : Span) (bound : PatternBindings) :
    Stepwise scopes (bindName name t span bound) := by
  unfold bindName
  split
  · exact stepwise_fail
  · exact stepwise_pure _

theorem stepwise_bindNames (names bound : PatternBindings) :
    Stepwise scopes (bindNames names bound) := by
  induction names generalizing bound with
  | nil => exact stepwise_pure _
  | cons entry rest ih =>
    rw [bindNames]
    exact (stepwise_bindName _ _ _ _).bind fun _ => ih _

theorem stepwise_freshFields (fields : List FieldPattern) :
    Stepwise scopes (freshFields level fields) := by
  induction fields with
  | nil => exact stepwise_pure _
  | cons field rest ih =>
    exact (stepwise_fresh level).bind fun _ => ih.bind fun _ => stepwise_pure _

theorem stepwise_tupleArity (t : Ty) (arity : Nat) (span : Span) :
    Stepwise scopes (tupleArity t arity span) := by
  refine (stepwise_resolved t).bind fun applied => ?_
  split
  · split
    · exact stepwise_pure _
    · exact stepwise_fail
  · exact stepwise_pure _

include henv

theorem stepwise_unifyBindings (first names : PatternBindings) :
    Stepwise scopes (unifyBindings env first names) := by
  induction names with
  | nil => exact stepwise_pure _
  | cons entry rest ih =>
    obtain ⟨name, t, span⟩ := entry
    simp only [unifyBindings]
    split
    · exact (stepwise_unifyAt henv span _ _).bind fun _ => ih
    · exact ih

omit henv in
theorem stepwise_patterns {ps : List Pattern}
    (ih : ∀ p ∈ ps, ∀ t bound, Stepwise scopes (pattern env level p t bound)) (ts : List Ty)
    (bound : PatternBindings) : Stepwise scopes (patterns env level ps ts bound) := by
  induction ps generalizing ts bound with
  | nil =>
    unfold patterns
    exact stepwise_pure _
  | cons p ps ihRest =>
    unfold patterns
    cases ts with
    | nil => exact stepwise_pure _
    | cons t ts =>
      refine (ih p List.mem_cons_self t bound).bind fun bound => ?_
      exact ihRest (fun p hp => ih p (List.mem_cons_of_mem _ hp)) ts bound

omit henv in
theorem stepwise_openFields (v : TypeVar) {fields : List FieldPattern}
    (ih : ∀ field ∈ fields, ∀ t bound, Stepwise scopes (pattern env level field.pattern t bound))
    (bound : PatternBindings) : Stepwise scopes (openFields env level v fields bound) := by
  induction fields generalizing bound with
  | nil =>
    rw [openFields]
    exact stepwise_pure _
  | cons field rest ihRest =>
    obtain ⟨name, p, span⟩ := field
    rw [openFields]
    refine (stepwise_fieldOf v name level).bind fun t => ?_
    refine (ih _ List.mem_cons_self t bound).bind fun bound => ?_
    exact ihRest (fun field hfield => ih field (List.mem_cons_of_mem _ hfield)) bound

omit henv in
theorem stepwise_declaredFields (record : Ty) (declared : List (String × Ty))
    {fields : List FieldPattern}
    (ih : ∀ field ∈ fields, ∀ t bound, Stepwise scopes (pattern env level field.pattern t bound))
    (bound : PatternBindings) :
    Stepwise scopes (declaredFields env level record declared fields bound) := by
  induction fields generalizing bound with
  | nil =>
    rw [declaredFields]
    exact stepwise_pure _
  | cons field rest ihRest =>
    obtain ⟨name, p, span⟩ := field
    rw [declaredFields]
    split
    · refine (ih _ List.mem_cons_self _ bound).bind fun bound => ?_
      exact ihRest (fun field hfield => ih field (List.mem_cons_of_mem _ hfield)) bound
    · exact (stepwise_fresh level).bind fun _ => stepwise_fail

theorem stepwise_alternatives (firstSpan : Span) (first : PatternBindings) {ps : List Pattern}
    (ih : ∀ p ∈ ps, ∀ t bound, Stepwise scopes (pattern env level p t bound)) (t : Ty) :
    Stepwise scopes (alternatives env level firstSpan first ps t) := by
  induction ps with
  | nil =>
    rw [alternatives]
    exact stepwise_pure _
  | cons p ps ihRest =>
    rw [alternatives]
    refine (ih p List.mem_cons_self t []).bind fun names => ?_
    split
    · refine (stepwise_unifyBindings henv first names).bind fun _ => ?_
      exact ihRest fun p hp => ih p (List.mem_cons_of_mem _ hp)
    · exact stepwise_fail

theorem stepwise_pattern (p : Pattern) (t : Ty) (bound : PatternBindings) :
    Stepwise scopes (pattern env level p t bound) := by
  induction p using Pattern.induct generalizing t bound with
  | wild span =>
    rw [pattern]
    exact stepwise_pure _
  | var name =>
    rw [pattern]
    exact stepwise_bindName _ _ _ _
  | literal value span =>
    rw [pattern]
    exact (stepwise_unifyAt henv span _ _).bind fun _ => stepwise_pure _
  | constructor name args span ih =>
    rw [pattern]
    split
    · exact stepwise_fail
    · split
      · refine (stepwise_freshList level _).bind fun types => ?_
        exact (stepwise_unifyAt henv span _ _).bind fun _ => stepwise_patterns ih _ _
      · exact stepwise_fail
  | record fields span ih =>
    rw [pattern]
    refine (stepwise_resolved t).bind fun applied => ?_
    split
    · exact stepwise_openFields _ ih bound
    · split
      · exact stepwise_declaredFields _ _ ih bound
      · exact (stepwise_freshFields fields).bind fun _ => stepwise_fail
  | tuple elements span ih =>
    rw [pattern]
    refine (stepwise_tupleArity t _ span).bind fun _ => ?_
    refine (stepwise_freshList level _).bind fun types => ?_
    exact (stepwise_unifyAt henv span _ _).bind fun _ => stepwise_patterns ih types bound
  | list elements rest span ih ihRest =>
    cases rest with
    | none =>
      rw [pattern]
      refine (stepwise_fresh level).bind fun element => ?_
      exact (stepwise_unifyAt henv span _ _).bind fun _ => stepwise_patterns ih _ bound
    | some rest =>
      rw [pattern]
      refine (stepwise_fresh level).bind fun element => ?_
      refine (stepwise_unifyAt henv span _ _).bind fun _ => ?_
      exact (stepwise_patterns ih _ bound).bind fun bound => ihRest rest rfl _ bound
  | either ps span ih =>
    cases ps with
    | nil =>
      rw [pattern]
      exact stepwise_fail
    | cons first rest =>
      rw [pattern]
      refine (ih first List.mem_cons_self t []).bind fun names => ?_
      refine (stepwise_alternatives henv _ names
        (fun p hp => ih p (List.mem_cons_of_mem _ hp)) t).bind fun _ => ?_
      exact stepwise_bindNames names bound

theorem stepwise_checkPattern (p : Pattern) (t : Ty) :
    Stepwise scopes (checkPattern env level p t) :=
  (stepwise_pattern henv p t []).bind fun _ => stepwise_pure _

end Patterns

/-! ## Parts of expressions -/

section Parts

variable {env : Env} {level : Nat}

theorem stepwise_operand (henv : scopes env) (span : Span) (allowed : List String) (t : Ty) :
    Stepwise scopes (operand env span allowed t) := by
  refine (stepwise_resolved t).bind fun applied => ?_
  split
  · exact (stepwise_unifyAt henv span _ _).bind fun _ => stepwise_pure _
  · split
    · exact stepwise_pure _
    · exact stepwise_fail

theorem stepwise_binary (henv : scopes env) (op : BinaryOp) (left right : Ty)
    (leftSpan rightSpan span : Span) :
    Stepwise scopes (binary env op left right leftSpan rightSpan span) := by
  have unified (span : Span) (expected actual : Ty) {f : Unit → Infer Ty}
      (hf : ∀ a, Stepwise scopes (f a)) :
      Stepwise scopes (unifyAt env span expected actual >>= f) :=
    (stepwise_unifyAt henv span expected actual).bind hf
  cases op with
  | add | sub | mul | div | mod => exact unified _ _ _ fun _ => stepwise_operand henv _ _ _
  | lt | ltEq | gt | gtEq =>
    exact unified _ _ _ fun _ => (stepwise_operand henv _ _ _).bind fun _ => stepwise_pure _
  | eq | notEq =>
    refine unified _ _ _ fun _ => (stepwise_resolved left).bind fun _ => ?_
    split
    · exact stepwise_fail
    · exact stepwise_pure _
  | and | or | concat => exact unified _ _ _ fun _ => unified _ _ _ fun _ => stepwise_pure _
  | cons => exact unified _ _ _ fun _ => stepwise_pure _

theorem stepwise_unary (henv : scopes env) (op : UnaryOp) (t : Ty) (operandSpan span : Span) :
    Stepwise scopes (unary env op t operandSpan span) := by
  cases op with
  | neg => exact stepwise_operand henv _ _ _
  | not => exact (stepwise_unifyAt henv _ _ _).bind fun _ => stepwise_pure _

theorem stepwise_fieldsAt (span : Span) (t : Ty) : Stepwise scopes (fieldsAt env span t) := by
  unfold fieldsAt
  split
  · exact stepwise_pure _
  · exact stepwise_fail

theorem stepwise_spreadFields (span : Span) (t : Ty) :
    Stepwise scopes (spreadFields env span t) := by
  unfold spreadFields
  split
  · exact stepwise_pure _
  · exact stepwise_fail
  · exact stepwise_fail

theorem stepwise_updatedFields (v : TypeVar) (inits : List FieldInit)
    (fields : List (String × Ty)) : Stepwise scopes (updatedFields level v inits fields) := by
  induction inits generalizing fields with
  | nil => exact stepwise_pure _
  | cons init rest ih => exact (stepwise_fieldOf v _ level).bind fun _ => ih _

theorem stepwise_letScope (name : Ident) (written : Option TypeExpr) (recursive : Bool) :
    Stepwise scopes (letScope env level name written recursive) := by
  have declared : Stepwise scopes (written.mapM (writtenType env (level + 1))) := by
    cases written with
    | none => exact stepwise_pure _
    | some written => exact (stepwise_writtenType env (level + 1) written).bind fun _ => stepwise_pure _
  refine declared.bind fun declared => ?_
  split
  · cases declared with
    | none => exact (stepwise_fresh (level + 1)).bind fun _ => stepwise_pure _
    | some t => exact stepwise_pure _
  · exact stepwise_pure _

theorem stepwise_schemeOf (t : Ty) (generalizable : Bool) :
    Stepwise scopes (schemeOf env level t generalizable) := by
  refine stepwise_getSubst.bind fun s => ?_
  split
  · exact (stepwise_log _).bind fun _ => stepwise_pure _
  · exact stepwise_pure _

theorem stepwise_settle (name : Ident) (value : Expr) (bound : Ty) :
    Stepwise scopes (settle env level name value bound) := by
  have logged (σ : Scheme) : Stepwise scopes (do
      log (.inferred name.name σ)
      return σ) := (stepwise_log _).bind fun _ => stepwise_pure _
  have quantified : Stepwise scopes (do
      let σ ← schemeOf env level bound (value.isValue env)
      if !σ.isPolymorphic then
        lower level bound
      log (.inferred name.name σ)
      return σ) := by
    refine (stepwise_schemeOf bound _).bind fun σ => ?_
    split
    · exact (stepwise_lower level bound).bind fun _ => logged σ
    · exact logged σ
  unfold settle
  split
  · exact (stepwise_closeRecords level bound _).bind fun _ => quantified
  · exact quantified

theorem stepwise_letScheme (henv : scopes env) (name : Ident) (expected : Option Ty) (value : Expr)
    (t : Ty) : Stepwise scopes (letScheme env level name expected value t) := by
  cases expected with
  | none => exact stepwise_settle name value t
  | some u => exact (stepwise_unifyAt henv _ u t).bind fun _ => stepwise_settle name value u

theorem stepwise_groupTypes (bindings : List GroupBinding) :
    Stepwise scopes (groupTypes env level bindings) := by
  induction bindings with
  | nil => exact stepwise_pure _
  | cons member rest ih =>
    have first : Stepwise scopes (writtenTypeOrFresh env (level + 1) member.written) := by
      cases member.written with
      | none => exact stepwise_fresh _
      | some written => exact stepwise_writtenType env _ written
    exact first.bind fun _ => ih.bind fun _ => stepwise_pure _

theorem stepwise_closeGroup (members : List GroupBinding) (ts : List Ty) :
    Stepwise scopes (closeGroup level members ts) := by
  induction members generalizing ts with
  | nil => exact stepwise_pure _
  | cons member members ih =>
    cases ts with
    | nil => exact stepwise_pure _
    | cons t ts => exact (stepwise_closeRecords level t _).bind fun _ => ih ts

theorem stepwise_groupSchemes (generalizable : Bool) (members : List GroupBinding) (ts : List Ty) :
    Stepwise scopes (groupSchemes env level generalizable members ts) := by
  induction members generalizing ts with
  | nil => exact stepwise_pure _
  | cons member members ih =>
    cases ts with
    | nil => exact stepwise_pure _
    | cons t ts =>
      refine (stepwise_schemeOf t generalizable).bind fun σ => (stepwise_log _).bind fun _ => ?_
      exact (ih ts).bind fun _ => stepwise_pure _

theorem stepwise_lowerGroup (ts : List Ty) : Stepwise scopes (lowerGroup level ts) := by
  induction ts with
  | nil => exact stepwise_pure _
  | cons t ts ih => exact (stepwise_lower level t).bind fun _ => ih

theorem stepwise_finishGroup (members : List GroupBinding) (types : List Ty) :
    Stepwise scopes (finishGroup env level members types) := by
  have finish (generalizable : Bool) : Stepwise scopes (do
      let schemes ← groupSchemes env level generalizable members types
      if !generalizable then
        lowerGroup level types
      return schemes) := by
    refine (stepwise_groupSchemes generalizable members types).bind fun schemes => ?_
    split
    · exact (stepwise_lowerGroup types).bind fun _ => stepwise_pure _
    · exact stepwise_pure _
  unfold finishGroup
  dsimp only
  split
  · exact (stepwise_closeGroup members types).bind fun _ => finish _
  · exact finish _

end Parts

/-! ## Expressions -/

def ExprSteps (scopes : Env → Prop) (e : Expr) : Prop :=
  ∀ env level, scopes env → Stepwise scopes (expr env level e)

section Expressions

variable {env : Env} (henv : scopes env) (level : Nat)

include henv

theorem stepwise_exprs {es : List Expr} (ih : ∀ e ∈ es, ExprSteps scopes e) :
    Stepwise scopes (exprs env level es) := by
  induction es with
  | nil =>
    rw [exprs]
    exact stepwise_pure _
  | cons e es ihRest =>
    rw [exprs]
    refine (ih e List.mem_cons_self env level henv).bind fun t => ?_
    exact (ihRest fun e he => ih e (List.mem_cons_of_mem _ he)).bind fun _ => stepwise_pure _

theorem stepwise_arguments {es : List Expr} (ih : ∀ e ∈ es, ExprSteps scopes e) (params : List Ty) :
    Stepwise scopes (arguments env level es params) := by
  induction es generalizing params with
  | nil =>
    unfold arguments
    exact stepwise_pure _
  | cons e es ihRest =>
    cases params with
    | nil =>
      unfold arguments
      exact stepwise_pure _
    | cons param params =>
      rw [arguments]
      refine (ih e List.mem_cons_self env level henv).bind fun t => ?_
      refine (stepwise_unifyAt henv _ _ _).bind fun _ => ?_
      exact ihRest (fun e he => ih e (List.mem_cons_of_mem _ he)) params

theorem stepwise_elements (element : Ty) {es : List Expr} (ih : ∀ e ∈ es, ExprSteps scopes e) :
    Stepwise scopes (elements env level element es) := by
  rw [elements_eq]
  exact stepwise_arguments henv level ih _

theorem stepwise_members {bindings : List GroupBinding}
    (ih : ∀ b ∈ bindings, ExprSteps scopes b.value) (ts : List Ty) :
    Stepwise scopes (members env level bindings ts) := by
  rw [members_eq]
  exact stepwise_arguments henv (level + 1) (List.forall_mem_map.2 ih) ts

theorem stepwise_guardOf {guard : Option Expr} (ih : ∀ e, guard = some e → ExprSteps scopes e) :
    Stepwise scopes (guardOf env level guard) := by
  cases guard with
  | none =>
    rw [guardOf]
    exact stepwise_pure _
  | some guard =>
    rw [guardOf]
    refine (ih guard rfl env level henv).bind fun t => ?_
    intro p
    rw [after_getSubst]
    split
    · rename_i h
      exact step_setSubst (.unify env .bool t) henv (run_unify h)
    · exact .refl

theorem stepwise_arms (nesting : Env.Nesting scopes) (scrutinee result : Ty) {cases : List Arm}
    (ih : ∀ arm ∈ cases, arm.Each (ExprSteps scopes)) :
    Stepwise scopes (arms env level scrutinee result cases) := by
  induction cases with
  | nil =>
    rw [arms]
    exact stepwise_pure _
  | cons arm rest ihRest =>
    obtain ⟨p, guard, body, span⟩ := arm
    obtain ⟨ihGuard, ihBody⟩ := ih _ List.mem_cons_self
    rw [arms]
    refine (stepwise_checkPattern henv p scrutinee).bind fun bound => ?_
    have hscope := nesting.extendMono henv bound
    refine (stepwise_guardOf hscope level ihGuard).bind fun _ => ?_
    refine (ihBody _ level hscope).bind fun t => (stepwise_unifyAt henv _ _ _).bind fun _ => ?_
    exact ihRest fun arm harm => ih arm (List.mem_cons_of_mem _ harm)

theorem stepwise_entries {parts : List Entry} (ih : ∀ entry ∈ parts, entry.Each (ExprSteps scopes))
    (fields : List (String × Ty)) : Stepwise scopes (entries env level parts fields) := by
  induction parts generalizing fields with
  | nil =>
    rw [entries]
    exact stepwise_pure _
  | cons entry rest ihRest =>
    have first := ih entry List.mem_cons_self
    have others := ihRest fun entry hentry => ih entry (List.mem_cons_of_mem _ hentry)
    cases entry with
    | field init =>
      obtain ⟨name, value, span⟩ := init
      rw [entries]
      exact (first env level henv).bind fun _ => others _
    | spread base =>
      rw [entries]
      refine (first env level henv).bind fun t => (stepwise_resolved t).bind fun applied => ?_
      exact (stepwise_spreadFields _ applied).bind fun _ => others _

theorem stepwise_updates (record : Ty) (declared : List (String × Ty)) {inits : List FieldInit}
    (ih : ∀ init ∈ inits, ExprSteps scopes init.value) :
    Stepwise scopes (updates env level record declared inits) := by
  induction inits with
  | nil =>
    rw [updates]
    exact stepwise_pure _
  | cons init rest ihRest =>
    obtain ⟨name, value, span⟩ := init
    rw [updates]
    split
    · exact stepwise_fail
    · refine (ih _ List.mem_cons_self env level henv).bind fun t => ?_
      refine (stepwise_unifyAt henv _ _ _).bind fun _ => ?_
      exact ihRest fun init hinit => ih init (List.mem_cons_of_mem _ hinit)

theorem returns_scope (nesting : Env.Nesting scopes) (name : Ident) (written : Option TypeExpr)
    (recursive : Bool) :
    Returns (letScope env level name written recursive) fun result => scopes result.2 := by
  refine .after fun declared => ?_
  split
  · cases declared with
    | none => exact .after fun t => .pure (nesting.extendValue henv _ _)
    | some t => exact .pure (nesting.extendValue henv _ _)
  · exact .pure henv

theorem stepwise_letBinding (nesting : Env.Nesting scopes) (name : Ident)
    (written : Option TypeExpr) {value : Expr} (ih : ExprSteps scopes value) (recursive : Bool) :
    Stepwise scopes (letBinding env level name written value recursive) := by
  refine stepwise_drawnSoFar.bind fun drawn => ?_
  refine (stepwise_letScope name written recursive).bindOf
    (returns_scope henv level nesting name written recursive) fun result hscope => ?_
  refine (ih result.2 (level + 1) hscope).bind fun t => ?_
  refine (stepwise_letScheme henv name result.1 value t).bind fun σ => ?_
  exact (stepwise_noteSchemes henv drawn [σ]).bind fun _ => stepwise_pure _

theorem stepwise_group (nesting : Env.Nesting scopes) {bindings : List GroupBinding}
    (ih : ∀ b ∈ bindings, ExprSteps scopes b.value) :
    Stepwise scopes (group env level bindings) := by
  refine stepwise_drawnSoFar.bind fun drawn => (stepwise_groupTypes bindings).bind fun types => ?_
  refine (stepwise_members (nesting.extendMono henv _) level ih types).bind fun _ => ?_
  refine (stepwise_finishGroup bindings types).bind fun schemes => ?_
  exact (stepwise_noteSchemes henv drawn _).bind fun _ => stepwise_pure _

omit henv in
theorem stepwise_expr (nesting : Env.Nesting scopes) (e : Expr) : ExprSteps scopes e := by
  induction e using Expr.induct with
  | literal value span =>
    intro env level henv
    rw [expr]
    exact stepwise_pure _
  | var name =>
    intro env level henv
    rw [expr]
    split
    · exact stepwise_instantiate _ level
    · refine stepwise_get.bind fun p => ?_
      split
      · exact stepwise_fail
      · exact stepwise_fail
  | lambda params body span ih =>
    intro env level henv
    rw [expr]
    have types : Stepwise scopes (resolving [] (Resolve.params env (level + 1) params)) :=
      stepwise_resolving fun _ => Resolve.finds_params (level + 1) params
    refine types.bind fun types => ?_
    exact (ih _ (level + 1) (nesting.extendMono henv _)).bind fun _ => stepwise_pure _
  | apply function args span ihFunction ihArgs =>
    intro env level henv
    rw [expr]
    refine (ihFunction env level henv).bind fun t => (stepwise_resolved t).bind fun applied => ?_
    split
    · split
      · exact stepwise_fail
      · exact (stepwise_arguments henv level ihArgs _).bind fun _ => stepwise_pure _
    · refine (stepwise_exprs henv level ihArgs).bind fun types => ?_
      refine (stepwise_fresh level).bind fun result => ?_
      exact (stepwise_unifyAt henv _ _ _).bind fun _ => stepwise_pure _
    · refine (stepwise_freshList level _).bind fun params => ?_
      exact (stepwise_fresh level).bind fun _ => stepwise_fail
  | letIn name written value recursive body span ihValue ihBody =>
    intro env level henv
    rw [World.expr_letIn]
    refine (stepwise_letBinding henv level nesting name written ihValue recursive).bind fun σ => ?_
    exact ihBody _ level (nesting.extendValue henv _ σ)
  | letGroup bindings body span ihValues ihBody =>
    intro env level henv
    rw [World.expr_letGroup]
    refine (stepwise_group henv level nesting ihValues).bind fun schemes => ?_
    exact ihBody _ level (nesting env schemes henv)
  | cond condition thenBranch elseBranch span ihCondition ihThen ihElse =>
    intro env level henv
    rw [expr]
    refine (ihCondition env level henv).bind fun t => (stepwise_unifyAt henv _ _ _).bind fun _ => ?_
    refine (ihThen env level henv).bind fun thenType => ?_
    refine (ihElse env level henv).bind fun elseType => ?_
    exact (stepwise_unifyAt henv _ _ _).bind fun _ => stepwise_pure _
  | block parts span ih =>
    intro env level henv
    rw [expr]
    exact (stepwise_exprs henv level ih).bind fun _ => stepwise_pure _
  | case scrutinee cases span ihScrutinee ihArms =>
    intro env level henv
    rw [expr]
    refine (ihScrutinee env level henv).bind fun t => (stepwise_fresh level).bind fun result => ?_
    refine (stepwise_arms henv level nesting t result ihArms).bind fun _ => ?_
    refine stepwise_getSubst.bind fun s => ?_
    dsimp only
    split
    · exact stepwise_fail
    · exact stepwise_pure _
  | record parts span ih =>
    intro env level henv
    rw [expr]
    exact (stepwise_entries henv level ih []).bind fun _ => stepwise_pure _
  | update base inits span ihBase ihInits =>
    intro env level henv
    have finish (applied t : Ty) (declared : List (String × Ty)) : Stepwise scopes (do
        updates env level applied declared inits
        return t) :=
      (stepwise_updates henv level applied declared ihInits).bind fun _ => stepwise_pure _
    rw [expr]
    refine (ihBase env level henv).bind fun t => (stepwise_resolved t).bind fun applied => ?_
    split
    · exact (stepwise_updatedFields _ inits []).bind fun declared => finish _ t declared
    · exact (stepwise_fieldsAt _ applied).bind fun declared => finish _ t declared
  | field object name span ih =>
    intro env level henv
    rw [expr]
    refine (ih env level henv).bind fun t => (stepwise_resolved t).bind fun applied => ?_
    split
    · exact stepwise_fieldOf _ name level
    · refine (stepwise_fieldsAt _ _).bind fun fields => ?_
      split
      · exact stepwise_pure _
      · exact stepwise_fail
  | tuple parts span ih =>
    intro env level henv
    rw [expr]
    exact (stepwise_exprs henv level ih).bind fun _ => stepwise_pure _
  | list parts span ih =>
    intro env level henv
    rw [expr]
    refine (stepwise_fresh level).bind fun element => ?_
    exact (stepwise_elements henv level element ih).bind fun _ => stepwise_pure _
  | makeRef value span ih =>
    intro env level henv
    rw [expr]
    exact (ih env level henv).bind fun _ => stepwise_pure _
  | deref reference span ih =>
    intro env level henv
    rw [expr]
    refine (ih env level henv).bind fun t => (stepwise_fresh level).bind fun content => ?_
    exact (stepwise_unifyAt henv _ _ _).bind fun _ => stepwise_pure _
  | assign target value span ihTarget ihValue =>
    intro env level henv
    rw [expr]
    refine (ihTarget env level henv).bind fun t => (stepwise_fresh level).bind fun content => ?_
    refine (stepwise_unifyAt henv _ _ _).bind fun _ => ?_
    refine (ihValue env level henv).bind fun valueType => ?_
    exact (stepwise_unifyAt henv _ _ _).bind fun _ => stepwise_pure _
  | binary op left right span ihLeft ihRight =>
    intro env level henv
    rw [expr]
    refine (ihLeft env level henv).bind fun leftType => ?_
    refine (ihRight env level henv).bind fun rightType => ?_
    exact stepwise_binary henv op leftType rightType _ _ span
  | unary op operand span ih =>
    intro env level henv
    rw [expr]
    exact (ih env level henv).bind fun t => stepwise_unary henv op t _ span
  | annotated inner written span ih =>
    intro env level henv
    rw [expr]
    refine (ih env level henv).bind fun t => ?_
    refine (stepwise_writtenType env level written).bind fun expected => ?_
    exact (stepwise_unifyAt henv _ _ _).bind fun _ => stepwise_pure _

end Expressions

/-! ## Declarations -/

section Declarations

theorem stepwise_typeParams (decl : TypeDecl) (params : List String)
    (drawn : List (String × TypeVar)) : Stepwise scopes (typeParams decl params drawn) := by
  induction params generalizing drawn with
  | nil => exact stepwise_pure _
  | cons param rest ih =>
    rw [typeParams]
    split
    · exact stepwise_fail
    · exact (stepwise_freshVar 0).bind fun _ => ih _

theorem stepwise_declareTypes (env : Env) (decls : List TypeDecl) :
    Stepwise scopes (declareTypes env decls) := by
  induction decls generalizing env with
  | nil => exact stepwise_pure _
  | cons decl rest ih =>
    refine (stepwise_typeParams decl decl.params []).bind fun params => ?_
    exact (ih _).bind fun _ => stepwise_pure _

theorem stepwise_defineBodies (scope : Env) (decls : List (TypeDecl × List (String × TypeVar)))
    (env : Env) : Stepwise scopes (defineBodies scope decls env) := by
  induction decls generalizing env with
  | nil => exact stepwise_pure _
  | cons entry rest ih =>
    obtain ⟨decl, params⟩ := entry
    exact (stepwise_resolving fun _ => World.finds_body decl).bind fun _ => ih _

theorem stepwise_defineTypes (env : Env) (decls : List TypeDecl) :
    Stepwise scopes (defineTypes env decls) :=
  (stepwise_declareTypes env decls).bind fun result => stepwise_defineBodies result.1 result.2 _

theorem stepwise_signature (env : Env) (written : TypeExpr) :
    Stepwise scopes (signature env written) :=
  (stepwise_writtenType env 1 written).bind fun _ => (stepwise_log _).bind fun _ => stepwise_pure _

theorem stepwise_importItems (moduleName : String) (items : List ImportItem) (env : Env)
    (values : List (String × Scheme)) :
    Stepwise scopes (importItems moduleName items env values) := by
  induction items generalizing env values with
  | nil => exact stepwise_pure _
  | cons item rest ih =>
    cases item with
    | type decl => exact (stepwise_defineTypes env [decl]).bind fun _ => ih _ _
    | value name localName written =>
      exact (stepwise_signature env written).bind fun _ => (stepwise_log _).bind fun _ => ih _ _

theorem stepwise_declareGroup (members : List GroupBinding) (schemes : List (String × Scheme))
    (scope : Scope) : Stepwise scopes (declareGroup members schemes scope) := by
  induction members generalizing schemes scope with
  | nil => exact stepwise_pure _
  | cons member members ih =>
    cases schemes with
    | nil => exact stepwise_pure _
    | cons entry schemes => exact (stepwise_log _).bind fun _ => ih _ _

theorem stepwise_declaration (nesting : Env.Nesting scopes) {scope : Scope}
    (hscope : scopes scope.env) (d : Declaration) : Stepwise scopes (declaration scope d) := by
  cases d with
  | value name written body recursive span =>
    refine (stepwise_letBinding hscope 0 nesting name written (stepwise_expr nesting body)
      recursive).bind fun σ => ?_
    exact (stepwise_log _).bind fun _ => stepwise_pure _
  | group bindings span =>
    refine (stepwise_group hscope 0 nesting fun b _ => stepwise_expr nesting b.value).bind ?_
    exact fun schemes => stepwise_declareGroup bindings schemes scope
  | types decls span =>
    refine (stepwise_defineTypes scope.env decls).bind fun env => ?_
    exact (stepwise_log _).bind fun _ => stepwise_pure _
  | foreign name written foreignName span =>
    refine (stepwise_signature scope.env written).bind fun σ => ?_
    exact (stepwise_log _).bind fun _ => stepwise_pure _
  | imports moduleName items span =>
    exact (stepwise_importItems moduleName items scope.env []).bind fun _ => stepwise_pure _

end Declarations

end Infer

end Polytype
