import Polytype.Inference.Expr
import Polytype.Proofs.Program.Induction

namespace Polytype

/-! ## Non-expansive expressions -/

/-- The evaluation of an expression calls no function and creates no reference cell. -/
inductive Expr.NonExpansive (env : Env) : Expr → Prop
  | literal {value span} : NonExpansive env (.literal value span)
  | var {name} : NonExpansive env (.var name)
  | lambda {params body span} : NonExpansive env (.lambda params body span)
  | construct {name : Ident} {c args span} : env.constructor? name.name = some c →
      c.arity = args.length → (∀ e ∈ args, NonExpansive env e) →
      NonExpansive env (.apply (.var name) args span)
  | tuple {elements span} : (∀ e ∈ elements, NonExpansive env e) →
      NonExpansive env (.tuple elements span)
  | list {elements span} : (∀ e ∈ elements, NonExpansive env e) →
      NonExpansive env (.list elements span)
  | record {entries span} : (∀ init, .field init ∈ entries → NonExpansive env init.value) →
      (∀ base, .spread base ∈ entries → NonExpansive env base) →
      NonExpansive env (.record entries span)
  | annotated {expr written span} : NonExpansive env expr →
      NonExpansive env (.annotated expr written span)

/-- A name is applied where an expression is evaluated at once, so not in the body of a function. -/
inductive Expr.Applies (name : String) : Expr → Prop
  | head {ident : Ident} {args span} : ident.name = name →
      Applies name (.apply (.var ident) args span)
  | argument {function args span e} : e ∈ args → Applies name e →
      Applies name (.apply function args span)
  | tuple {elements span e} : e ∈ elements → Applies name e → Applies name (.tuple elements span)
  | list {elements span e} : e ∈ elements → Applies name e → Applies name (.list elements span)
  | field {entries span init} : .field init ∈ entries → Applies name init.value →
      Applies name (.record entries span)
  | spread {entries span base} : .spread base ∈ entries → Applies name base →
      Applies name (.record entries span)
  | annotated {expr written span} : Applies name expr →
      Applies name (.annotated expr written span)

theorem allValues_iff {env : Env} {es : List Expr} :
    allValues env es = true ↔ ∀ e ∈ es, e.isValue env = true := by
  induction es with
  | nil => simp [allValues]
  | cons e es ih => simp [allValues, ih]

theorem entryValues_iff {env : Env} {entries : List Entry} :
    entryValues env entries = true ↔
      ∀ entry ∈ entries, entry.Each fun e => e.isValue env = true := by
  induction entries with
  | nil => simp [entryValues]
  | cons entry entries ih =>
    cases entry with
    | field init =>
      obtain ⟨name, value, span⟩ := init
      simp [entryValues, ih, Entry.Each]
    | spread base => simp [entryValues, ih, Entry.Each]

namespace Expr

variable {env scope : Env} {e : Expr}

theorem nonExpansive_of_isValue (h : e.isValue env = true) : e.NonExpansive env := by
  induction e using Expr.induct with
  | literal => exact .literal
  | var => exact .var
  | lambda => exact .lambda
  | apply function args span _ ih =>
    cases function with
    | var name =>
      simp only [isValue] at h
      cases hc : env.constructor? name.name with
      | none => simp [hc] at h
      | some c =>
        simp only [hc, Bool.and_eq_true, beq_iff_eq, allValues_iff] at h
        exact .construct hc h.1 fun e he => ih e he (h.2 e he)
    | _ => simp [isValue] at h
  | tuple elements span ih =>
    rw [isValue, allValues_iff] at h
    exact .tuple fun e he => ih e he (h e he)
  | list elements span ih =>
    rw [isValue, allValues_iff] at h
    exact .list fun e he => ih e he (h e he)
  | record entries span ih =>
    rw [isValue, entryValues_iff] at h
    exact .record (fun init hinit => ih _ hinit (h _ hinit)) fun base hbase =>
      ih _ hbase (h _ hbase)
  | annotated expr written span ih => exact .annotated (ih (by simpa [isValue] using h))
  | _ => simp [isValue] at h

theorem isValue_of_nonExpansive (h : e.NonExpansive env) : e.isValue env = true := by
  induction h with
  | literal | var | lambda => rfl
  | construct hc harity _ ih => simpa [isValue, hc, harity, allValues_iff] using ih
  | tuple _ ih => simpa [isValue, allValues_iff] using ih
  | list _ ih => simpa [isValue, allValues_iff] using ih
  | record _ _ ihField ihSpread =>
    rw [isValue, entryValues_iff]
    intro entry hentry
    cases entry with
    | field init => exact ihField init hentry
    | spread base => exact ihSpread base hentry
  | annotated _ ih => exact ih

theorem NonExpansive.congr (h : e.NonExpansive env)
    (same : ∀ name, e.Applies name → scope.constructor? name = env.constructor? name) :
    e.NonExpansive scope := by
  induction h with
  | literal => exact .literal
  | var => exact .var
  | lambda => exact .lambda
  | construct hc harity _ ih =>
    refine .construct ((same _ (.head rfl)).trans hc) harity fun e he => ?_
    exact ih e he fun name happ => same name (.argument he happ)
  | tuple _ ih => exact .tuple fun e he => ih e he fun name happ => same name (.tuple he happ)
  | list _ ih => exact .list fun e he => ih e he fun name happ => same name (.list he happ)
  | record _ _ ihField ihSpread =>
    refine .record (fun init hinit => ?_) fun base hbase => ?_
    · exact ihField init hinit fun name happ => same name (.field hinit happ)
    · exact ihSpread base hbase fun name happ => same name (.spread hbase happ)
  | annotated _ ih => exact .annotated (ih fun name happ => same name (.annotated happ))

theorem NonExpansive.constructor_of_applies (h : e.NonExpansive env) {name : String}
    (happ : e.Applies name) : env.constructor? name ≠ none := by
  induction happ with
  | head hname =>
    cases h with
    | construct hc _ _ => simp [← hname, hc]
  | argument he _ ih =>
    cases h with
    | construct _ _ hargs => exact ih (hargs _ he)
  | tuple he _ ih =>
    cases h with
    | tuple hes => exact ih (hes _ he)
  | list he _ ih =>
    cases h with
    | list hes => exact ih (hes _ he)
  | field he _ ih =>
    cases h with
    | record hfields _ => exact ih (hfields _ he)
  | spread he _ ih =>
    cases h with
    | record _ hspreads => exact ih (hspreads _ he)
  | annotated _ ih =>
    cases h with
    | annotated h => exact ih h

end Expr

/-! ## Scopes that bind names anew -/

theorem allValues_congr {env env' : Env} {es : List Expr}
    (h : ∀ e ∈ es, e.isValue env = e.isValue env') : allValues env es = allValues env' es := by
  induction es with
  | nil => rfl
  | cons e es ih =>
    simp only [allValues]
    rw [h e List.mem_cons_self, ih fun e he => h e (List.mem_cons_of_mem _ he)]

theorem entryValues_congr {env env' : Env} {entries : List Entry}
    (h : ∀ entry ∈ entries, entry.Each fun e => e.isValue env = e.isValue env') :
    entryValues env entries = entryValues env' entries := by
  induction entries with
  | nil => rfl
  | cons entry entries ih =>
    have rest := ih fun entry hentry => h entry (List.mem_cons_of_mem _ hentry)
    have first := h entry List.mem_cons_self
    cases entry with
    | field init =>
      obtain ⟨name, value, span⟩ := init
      simp only [Entry.Each] at first
      simp only [entryValues]
      rw [first, rest]
    | spread base =>
      simp only [Entry.Each] at first
      simp only [entryValues]
      rw [first, rest]

theorem Expr.isValue_congr {env env' : Env}
    (h : ∀ name, (env.constructor? name).map Constructor.arity =
      (env'.constructor? name).map Constructor.arity) (e : Expr) :
    e.isValue env = e.isValue env' := by
  induction e using Expr.induct with
  | apply function args span _ ihArgs =>
    cases function with
    | var name =>
      have arity := h name.name
      simp only [isValue, allValues_congr ihArgs]
      cases hc : env.constructor? name.name <;> cases hc' : env'.constructor? name.name <;>
        simp_all
    | _ => simp only [isValue]
  | tuple elements span ih => simp only [isValue, allValues_congr ih]
  | list elements span ih => simp only [isValue, allValues_congr ih]
  | record entries span ih => simp only [isValue, entryValues_congr ih]
  | annotated expr written span ih => simp only [isValue, ih]
  | _ => simp only [isValue]

theorem Env.constructor?_extendValue (env : Env) (name other : String) (σ : Scheme) :
    (env.extendValue name σ).constructor? other =
      if name = other then none else env.constructor? other := by
  unfold constructor? lookup extendValue extend
  rw [Assoc.get?_insert]
  by_cases h : name = other <;> simp [h]

theorem Env.constructor?_extendMono (env : Env) (types : List (String × Ty)) (name : String) :
    (env.extendMono types).constructor? name =
      if name ∈ types.map (·.1) then none else env.constructor? name := by
  induction types generalizing env with
  | nil => rfl
  | cons entry types ih =>
    have step : env.extendMono (entry :: types) =
        (env.extendValue entry.1 (.mono entry.2)).extendMono types := rfl
    rw [step, ih, constructor?_extendValue]
    by_cases here : entry.1 = name
    · simp [here]
    · have apart : ¬name = entry.1 := fun h => here h.symm
      simp only [here, apart, if_false, List.map_cons, List.mem_cons, false_or]

/-- A value inferred in a scope, inside an environment, where some names are bound anew: it is
non-expansive in the environment, and in the scope if it does not apply the names. -/
structure Restricted (env scope : Env) (binders : List String) (value : Expr) : Prop where
  outside : value.NonExpansive env
  inside : value.NonExpansive scope ↔ ∀ name ∈ binders, ¬value.Applies name

theorem restricted_of_isValue {env scope : Env} {binders : List String} {value : Expr}
    (h : value.isValue env = true)
    (hscope : ∀ name, scope.constructor? name =
      if name ∈ binders then none else env.constructor? name) :
    Restricted env scope binders value := by
  have outside := Expr.nonExpansive_of_isValue h
  refine ⟨outside, fun inside name hname happ => ?_, fun unapplied => ?_⟩
  · exact inside.constructor_of_applies happ (by rw [hscope, if_pos hname])
  · exact outside.congr fun name happ => by
      rw [hscope, if_neg fun hname => unapplied name hname happ]

theorem isValue_of_unapplied {env scope : Env} (binders : List String) {value : Expr}
    (hscope : ∀ name, scope.constructor? name =
      if name ∈ binders then none else env.constructor? name)
    (h : value.isValue env = true) (unapplied : ∀ name ∈ binders, ¬value.Applies name) :
    value.isValue scope = true :=
  Expr.isValue_of_nonExpansive ((restricted_of_isValue h hscope).inside.2 unapplied)

end Polytype
