import Polytype.Coverage.Search
import Polytype.Proofs.Env.Parameters

namespace Polytype

open Ty

namespace Coverage

/-- The rows match all values of the types of the columns: a column is passed over if the rows that
start with a wildcard are enough, and it may be split by all heads that its values can have. -/
inductive Covers (env : Env) : List Row → List Ty → Prop
  | done {rows} : rows ≠ [] → Covers env rows []
  | pass {rows t rest} : Covers env (passRows (splitRows rows)) rest → Covers env rows (t :: rest)
  | split {rows t rest heads} : signature? env (env.unfold t) (splitRows rows) = some heads →
      (∀ head ∈ heads,
        Covers env (specializeRows head (partTypes env (env.unfold t) head).length (splitRows rows))
          (partTypes env (env.unfold t) head ++ rest)) →
      Covers env rows (t :: rest)

/-! ## The search -/

theorem missing_cons_ne_nil {env : Env} {rows : List Row} {t : Ty} {rest : List Ty} :
    missing env rows (t :: rest) ≠ some [] := by
  rw [missing]
  split
  · intro h
    obtain ⟨entry, -, heq⟩ := List.exists_of_findSome?_eq_some h
    obtain ⟨cases, -, heq⟩ := Option.map_eq_some_iff.1 heq
    simp [rebuild] at heq
  · simp

theorem missing_split_eq_none {env : Env} {rows : List Row} {t : Ty} {rest : List Ty}
    {heads : List (Head × List Ty)}
    (hplan : plan env (env.unfold t) (splitRows rows) = .split heads)
    (h : missing env rows (t :: rest) = none) {head : Head} {parts : List Ty}
    (mem : (head, parts) ∈ heads) :
    missing env (specializeRows head parts.length (splitRows rows)) (parts ++ rest) = none := by
  rw [missing] at h
  split at h
  · rename_i others hothers
    rw [hplan] at hothers
    obtain rfl := Plan.split.inj hothers
    have := List.findSome?_eq_none_iff.1 h ⟨(head, parts), mem⟩ (List.mem_attach _ _)
    simpa using this
  · rename_i first hfirst
    simp [hplan] at hfirst

theorem missing_pass_eq_none {env : Env} {rows : List Row} {t : Ty} {rest : List Ty}
    {first : MissingCase} (hplan : plan env (env.unfold t) (splitRows rows) = .pass first)
    (h : missing env rows (t :: rest) = none) :
    missing env (passRows (splitRows rows)) rest = none := by
  rw [missing] at h
  split at h
  · rename_i heads hheads
    simp [hplan] at hheads
  · simpa using h

theorem plan_eq_split {env : Env} {t : Ty} {rows : List Row} {heads : List (Head × List Ty)}
    (h : plan env t rows = .split heads) :
    ∃ all, signature? env t rows = some all ∧
      heads = all.map fun head => (head, partTypes env t head) := by
  simp only [plan] at h
  split at h
  · simp at h
  rename_i all hall
  split at h
  · exact ⟨all, hall, (Plan.split.inj h).symm⟩
  split at h <;> simp at h

theorem covers_of_missing_eq_none {env : Env} (rows : List Row) (columns : List Ty)
    (h : missing env rows columns = none) : Covers env rows columns := by
  induction rows, columns using missing.induct env with
  | case1 rows empty => simp [missing, empty] at h
  | case2 rows nonempty => exact .done (mt List.isEmpty_iff.2 nonempty)
  | case3 rows t rest heads hplan ih =>
    obtain ⟨all, hall, rfl⟩ := plan_eq_split hplan
    refine .split hall fun head hhead => ?_
    have mem : (head, partTypes env (env.unfold t) head) ∈
        all.map fun head => (head, partTypes env (env.unfold t) head) := List.mem_map_of_mem hhead
    exact ih head _ mem (missing_split_eq_none hplan h mem)
  | case4 rows t rest first hplan ih => exact .pass (ih (missing_pass_eq_none hplan h))

theorem covers_of_missingCase?_eq_none {env : Env} {scrutinee : Ty} {arms : List (Pattern × Bool)}
    (h : missingCase? env scrutinee arms = none) :
    Covers env ((arms.filter fun arm => !arm.2).map fun arm => [Pat.lower arm.1]) [scrutinee] := by
  refine covers_of_missing_eq_none _ _ ?_
  simp only [missingCase?] at h
  cases hcases : missing env ((arms.filter fun arm => !arm.2).map fun arm => [Pat.lower arm.1])
      [scrutinee] with
  | none => rfl
  | some cases =>
    cases cases with
    | nil => exact absurd hcases missing_cons_ne_nil
    | cons first rest => simp [hcases] at h

end Coverage

/-! ## More special types -/

/-- The second type has types in the place of variables of the first one, not always the same type
for the same variable. Only free variables are replaced, by types that have no others. -/
inductive Ty.Special (free : Nat → Prop) : Ty → Ty → Prop
  | same {v w} : v.id = w.id → Special free (.var v) (.var w)
  | var {v t} : free v.id → Within free t → Special free (.var v) t
  | const {name} : Special free (.const name) (.const name)
  | app {head head' args args'} : Special free head head' →
      List.Forall₂ (Special free) args args' → Special free (.app head args) (.app head' args')
  | func {params params' result result'} : List.Forall₂ (Special free) params params' →
      Special free result result' → Special free (.func params result) (.func params' result')
  | record {fields fields'} : fields.map (·.1) = fields'.map (·.1) →
      List.Forall₂ (fun field field' => Special free field.2 field'.2) fields fields' →
      Special free (.record fields) (.record fields')
  | tuple {elements elements'} : List.Forall₂ (Special free) elements elements' →
      Special free (.tuple elements) (.tuple elements')

namespace Ty

variable {free : Nat → Prop}

theorem special_mapVars {f : TypeVar → Ty} {t : Ty}
    (h : ∀ v ∈ t.vars, Special free (.var v) (f v)) : Special free t (t.mapVars f) := by
  induction t using induct with
  | var v => exact h v (by simp [vars])
  | const name => exact .const
  | app head args ihHead ihArgs =>
    simp only [vars, varsList_eq, List.mem_append, List.mem_flatMap] at h
    simp only [mapVars, mapVarsList_eq]
    refine .app (ihHead fun v hv => h v (.inl hv)) ?_
    rw [List.forall₂_map_right_iff, List.forall₂_same]
    exact fun t ht => ihArgs t ht fun v hv => h v (.inr ⟨t, ht, hv⟩)
  | func params result ihParams ihResult =>
    simp only [vars, varsList_eq, List.mem_append, List.mem_flatMap] at h
    simp only [mapVars, mapVarsList_eq]
    refine .func ?_ (ihResult fun v hv => h v (.inr hv))
    rw [List.forall₂_map_right_iff, List.forall₂_same]
    exact fun t ht => ihParams t ht fun v hv => h v (.inl ⟨t, ht, hv⟩)
  | record fields ih =>
    simp only [vars, varsFields_eq, List.mem_flatMap] at h
    simp only [mapVars, mapVarsFields_eq]
    refine .record (by simp) ?_
    rw [List.forall₂_map_right_iff, List.forall₂_same]
    exact fun field hf => ih field hf fun v hv => h v ⟨field, hf, hv⟩
  | tuple elements ih =>
    simp only [vars, varsList_eq, List.mem_flatMap] at h
    simp only [mapVars, mapVarsList_eq]
    refine .tuple ?_
    rw [List.forall₂_map_right_iff, List.forall₂_same]
    exact fun t ht => ih t ht fun v hv => h v ⟨t, ht, hv⟩

theorem special_self (t : Ty) : Special free t t := by
  have h : Special free t (t.mapVars .var) := special_mapVars fun _ _ => .same rfl
  rwa [mapVars_var] at h

theorem forall₂_mapVars {f f' : TypeVar → Ty} {types types' : List Ty}
    (h : List.Forall₂ (Special free) types types')
    (each : ∀ t ∈ types, ∀ {t'}, Special free t t' →
      Special free (t.mapVars f) (t'.mapVars f')) :
    List.Forall₂ (Special free) (types.map (mapVars f)) (types'.map (mapVars f')) := by
  induction h with
  | nil => exact .nil
  | cons first _ ih =>
    obtain ⟨hfirst, hrest⟩ := List.forall_mem_cons.1 each
    exact .cons (hfirst first) (ih hrest)

theorem Special.mapVars {f f' : TypeVar → Ty}
    (related : ∀ {v w}, v.id = w.id → Special free (f v) (f' w))
    (kept : ∀ v, free v.id → f v = .var v ∧ f' v = .var v) {t t' : Ty} (h : Special free t t') :
    Special free (t.mapVars f) (t'.mapVars f') := by
  induction t using induct generalizing t' with
  | var v =>
    cases h with
    | same heq => exact related heq
    | var hv ht' =>
      -- A free variable is kept, and so is the type that it has become.
      have same : t'.mapVars f' = t' := by
        rw [mapVars_congr fun w hw => (kept w (within_iff.1 ht' w hw)).2, mapVars_var]
      rw [same, Ty.mapVars, (kept v hv).1]
      exact .var hv ht'
  | const name =>
    cases h
    exact .const
  | app head args ihHead ihArgs =>
    cases h with
    | app hhead hargs =>
      simp only [Ty.mapVars, mapVarsList_eq]
      exact .app (ihHead hhead) (forall₂_mapVars hargs ihArgs)
  | func params result ihParams ihResult =>
    cases h with
    | func hparams hresult =>
      simp only [Ty.mapVars, mapVarsList_eq]
      exact .func (forall₂_mapVars hparams ihParams) (ihResult hresult)
  | record fields ih =>
    cases h with
    | record hnames hfields =>
      simp only [Ty.mapVars, mapVarsFields_eq]
      refine .record (by simpa [Function.comp_def] using hnames) ?_
      rw [List.forall₂_map_left_iff, List.forall₂_map_right_iff]
      have types := forall₂_mapVars (List.forall₂_map_left_iff.2 (List.forall₂_map_right_iff.2 hfields))
        (List.forall_mem_map.2 ih)
      rwa [List.forall₂_map_left_iff, List.forall₂_map_left_iff, List.forall₂_map_right_iff,
        List.forall₂_map_right_iff] at types
  | tuple elements ih =>
    cases h with
    | tuple helements =>
      simp only [Ty.mapVars, mapVarsList_eq]
      exact .tuple (forall₂_mapVars helements ih)

theorem Special.headName? {t t' : Ty} (h : Special free t t') {name : String}
    (hname : t.headName? = some name) :
    t'.headName? = some name ∧ List.Forall₂ (Special free) t.args t'.args := by
  induction t using induct generalizing t' with
  | var => simp [Ty.headName?] at hname
  | const =>
    cases h
    exact ⟨hname, .nil⟩
  | app head args ihHead _ =>
    cases h with
    | app hhead hargs => exact ⟨(ihHead hhead hname).1, hargs⟩
  | func | record | tuple => simp [Ty.headName?] at hname

end Ty

namespace Subst

variable {free : Nat → Prop} {params : List TypeVar} {types types' : List Ty}

theorem isVar_special {t t' : Ty} (h : Special free t t') {id : Nat} (hid : ¬free id) :
    isVar t' id = isVar t id := by
  cases h with
  | @same v w heq => simp [isVar, heq]
  | @var v t' hv ht' =>
    have other : v.id ≠ id := fun heq => hid (heq ▸ hv)
    cases t' with
    | var w =>
      have other' : w.id ≠ id := fun heq => hid (heq ▸ within_iff.1 ht' w (by simp [vars]))
      simp [isVar, other, other']
    | _ => simp [isVar, other]
  | _ => rfl

theorem special_ofPairs (hparams : ∀ p ∈ params, ¬free p.id)
    (h : List.Forall₂ (Special free) types types') :
    List.Forall₂ (fun entry entry' => entry.1 = entry'.1 ∧ Special free entry.2 entry'.2)
      (ofPairs (params.zip types)).types (ofPairs (params.zip types')).types := by
  refine Assoc.forall₂_insertAll ?_ .nil
  induction h generalizing params with
  | nil => simp
  | @cons t t' types types' first _ ih =>
    cases params with
    | nil => simp
    | cons p params =>
      obtain ⟨hp, hrest⟩ := List.forall_mem_cons.1 hparams
      simp only [List.zip_cons_cons, List.filter_cons, isVar_special first hp]
      cases isVar t p.id with
      | true => exact ih hrest
      | false => exact .cons ⟨rfl, first⟩ (ih hrest)

theorem resolve_ofPairs_free (hparams : ∀ p ∈ params, ¬free p.id) (types : List Ty)
    (steps : Nat) {v : TypeVar} (hv : free v.id) :
    (ofPairs (params.zip types)).resolve steps v = .var v := by
  rw [resolve_unbound (isBound_eq_false.2 ?_), relevel_ofPairs]
  cases hget : (ofPairs (params.zip types)).types.get? v.id with
  | none => rfl
  | some u =>
    obtain ⟨pair, hpair, hid, -⟩ := mem_of_get?_ofPairs hget
    exact absurd (hid ▸ hv) (hparams _ (List.of_mem_zip hpair).1)

theorem special_resolve (hparams : ∀ p ∈ params, ¬free p.id)
    (h : List.Forall₂ (Special free) types types') (steps : Nat) {v w : TypeVar}
    (heq : v.id = w.id) :
    Special free ((ofPairs (params.zip types)).resolve steps v)
      ((ofPairs (params.zip types')).resolve steps w) := by
  induction steps generalizing v w with
  | zero => exact .same heq
  | succ steps ih =>
    have related := Assoc.forall₂_get? (special_ofPairs hparams h) v.id
    simp only [resolve, ← heq]
    generalize (ofPairs (params.zip types)).types.get? v.id = found at related
    generalize (ofPairs (params.zip types')).types.get? v.id = found' at related
    cases related with
    | none => exact .same heq
    | some special =>
      exact special.mapVars ih fun v hv => ⟨resolve_ofPairs_free hparams _ _ hv,
        resolve_ofPairs_free hparams _ _ hv⟩

theorem special_instantiate {d : Definition} (hparams : ∀ p ∈ d.params, ¬free p.id)
    (h : List.Forall₂ (Special free) types types') (t : Ty) :
    Special free (d.instantiate types t) (d.instantiate types' t) := by
  have size : (ofPairs (d.params.zip types)).size = (ofPairs (d.params.zip types')).size :=
    (special_ofPairs hparams h).length_eq
  rw [Definition.instantiate, Definition.instantiate, apply, apply, ← size]
  exact (special_self t).mapVars (special_resolve hparams h _) fun v hv =>
    ⟨resolve_ofPairs_free hparams _ _ hv, resolve_ofPairs_free hparams _ _ hv⟩

end Subst
namespace Coverage

/-! ## Columns of more special types -/

section Refined

variable {env : Env}

/-- Nothing is known of the first type, or the second one is more special. Parameters of definitions
are not replaced. -/
def Refined (env : Env) (t t' : Ty) : Prop := t = unknown ∨ Special env.Outside t t'

theorem refined_unknown {types types' : List Ty} (h : ∀ t ∈ types, t = unknown)
    (hlength : types.length = types'.length) : List.Forall₂ (Refined env) types types' := by
  induction types generalizing types' with
  | nil =>
    obtain rfl := List.eq_nil_of_length_eq_zero hlength.symm
    exact .nil
  | cons t types ih =>
    obtain ⟨first, rest⟩ := List.forall_mem_cons.1 h
    cases types' with
    | nil => simp at hlength
    | cons t' types' => exact .cons (.inl first) (ih rest (by simpa using hlength))

theorem refined_special {types types' : List Ty}
    (h : List.Forall₂ (Special env.Outside) types types') : List.Forall₂ (Refined env) types types' :=
  h.imp fun _ _ => .inr

variable (plain : ∀ t, env.expand t = none)

include plain in
theorem unfold_eq_self (t : Ty) : env.unfold t = t := by
  simp [Env.unfold, Env.aliasDepth, Env.unfoldWithin, plain]

include plain in
theorem alternatives_cases {t : Ty} {found : List Alternative}
    (h : env.alternatives t = some found) : ∃ d written, env.definitionOf? t = some d ∧
      d.body = .variant written ∧
        found = written.map fun a => ⟨a.name, a.args.map (d.instantiate t.args)⟩ := by
  cases hd : env.definitionOf? t with
  | none => simp [Env.alternatives, Env.alternativesWithin_eq_none hd] at h
  | some d =>
    have target := plain t
    simp only [Env.expand, hd, Option.bind_some, Option.map_eq_none_iff] at target
    cases hbody : d.body with
    | variant written =>
      refine ⟨d, written, rfl, hbody, ?_⟩
      simpa [Env.alternatives, Env.aliasDepth, Env.alternativesWithin, hd, hbody] using h.symm
    | abstract | record =>
      simp [Env.alternatives, Env.aliasDepth, Env.alternativesWithin, hd, hbody] at h
    | synonym written => simp [hbody, Body.target?] at target

def RefinedAlternative (env : Env) (a a' : Alternative) : Prop :=
  a'.name = a.name ∧ List.Forall₂ (Refined env) a.args a'.args

include plain in
theorem refined_alternatives {t t' : Ty} (special : Special env.Outside t t')
    {found : List Alternative} (h : env.alternatives t = some found) :
    ∃ found', env.alternatives t' = some found' ∧
      List.Forall₂ (RefinedAlternative env) found found' := by
  obtain ⟨d, written, hd, hbody, rfl⟩ := alternatives_cases plain h
  obtain ⟨hlength, name, hentry⟩ := Env.exists_entry hd
  obtain ⟨hnamed, -⟩ := Option.filter_eq_some_iff.1 hd
  obtain ⟨head, hhead, hdefined⟩ := Option.bind_eq_some_iff.1 hnamed
  obtain ⟨hhead', args⟩ := special.headName? hhead
  have hd' := Env.definitionOf?_eq_some hhead' hdefined (hlength.trans args.length_eq)
  have parameters : ∀ p ∈ d.params, ¬env.Outside p.id := fun p hp outside =>
    outside _ hentry p hp rfl
  refine ⟨written.map fun a => ⟨a.name, a.args.map (d.instantiate t'.args)⟩, ?_, ?_⟩
  · simp [Env.alternatives, Env.aliasDepth, Env.alternativesWithin, hd', hbody]
  · rw [List.forall₂_map_left_iff, List.forall₂_map_right_iff, List.forall₂_same]
    intro a _
    refine ⟨rfl, refined_special ?_⟩
    rw [List.forall₂_map_left_iff, List.forall₂_map_right_iff, List.forall₂_same]
    exact fun u _ => Subst.special_instantiate parameters args u

theorem signature?_eq_some {t : Ty} {rows : List Row} {heads : List Head}
    (h : signature? env t rows = some heads) :
    (∃ names, heads = [.record names] ∧ ∀ t', signature? env t' rows = some heads) ∨
    (∃ arity, heads = [.tuple arity] ∧ ∀ t', signature? env t' rows = some heads) ∨
    columnFields? rows = none ∧ tupleArity? (rows.filterMap firstHead?) = none ∧
      ((∃ elements, t = .tuple elements) ∨ ∃ name, t.headName? = some name) := by
  cases hfields : columnFields? rows with
  | some names =>
    have told (t' : Ty) : signature? env t' rows = some [.record names] := by
      simp [signature?, hfields]
    obtain rfl := Option.some.inj ((told t).symm.trans h)
    exact .inl ⟨names, rfl, told⟩
  | none =>
    cases harity : tupleArity? (rows.filterMap firstHead?) with
    | some arity =>
      have told (t' : Ty) : signature? env t' rows = some [.tuple arity] := by
        simp [signature?, hfields, harity]
      obtain rfl := Option.some.inj ((told t).symm.trans h)
      exact .inr (.inl ⟨arity, rfl, told⟩)
    | none =>
      refine .inr (.inr ⟨rfl, rfl, ?_⟩)
      have nameless (hname : t.headName? = none) (untupled : ∀ elements, t ≠ .tuple elements) :
          signature? env t rows = none := by
        have none : env.alternatives t = none :=
          Env.alternativesWithin_eq_none (Env.definitionOf?_eq_none env hname) _
        cases t with
        | tuple elements => exact absurd rfl (untupled elements)
        | _ => simp [signature?, hfields, harity, isNamed, hname, none]
      cases hname : t.headName? with
      | some name => exact .inr ⟨name, rfl⟩
      | none =>
        by_cases tupled : ∃ elements, t = .tuple elements
        · exact .inl tupled
        · simp [nameless hname fun elements heq => tupled ⟨elements, heq⟩] at h

theorem signature?_of_headName? {t : Ty} {rows : List Row} {name : String}
    (hfields : columnFields? rows = none)
    (harity : tupleArity? (rows.filterMap firstHead?) = none) (hname : t.headName? = some name) :
    signature? env t rows =
      if name = "Bool" then some [.bool true, .bool false]
      else if name = "Unit" then some [.unit]
      else if name = "List" then some [.nil, .cons]
      else (env.alternatives t).map fun found => found.map fun a => .variant a.name := by
  cases t with
  | tuple elements => simp [headName?] at hname
  | _ => simp [signature?, hfields, harity, isNamed, hname]

/-! ### Parts -/

theorem length_partTypes_tuple (env : Env) (t : Ty) (arity : Nat) :
    (partTypes env t (.tuple arity)).length = arity := by
  simp only [partTypes]
  split
  · split
    · assumption
    · simp
  · simp

section Parts

variable {t t' : Ty} (special : Special env.Outside t t')

include special in
theorem refined_tuple (arity : Nat) : List.Forall₂ (Refined env)
    (partTypes env t (.tuple arity)) (partTypes env t' (.tuple arity)) := by
  have blank (h : partTypes env t (.tuple arity) = List.replicate arity unknown) :
      List.Forall₂ (Refined env) (partTypes env t (.tuple arity))
        (partTypes env t' (.tuple arity)) :=
    refined_unknown (fun u hu => List.eq_of_mem_replicate (h ▸ hu))
      (by rw [length_partTypes_tuple, length_partTypes_tuple])
  cases special with
  | @tuple elements elements' helements =>
    by_cases hlength : elements.length = arity
    · simp only [partTypes, ← helements.length_eq, hlength, if_true]
      exact refined_special helements
    · exact blank (by simp [partTypes, hlength])
  | _ => exact blank rfl

include plain special in
theorem refined_record (names : List String) : List.Forall₂ (Refined env)
    (partTypes env t (.record names)) (partTypes env t' (.record names)) := by
  have blank (h : ∀ fields, t ≠ .record fields) : List.Forall₂ (Refined env)
      (partTypes env t (.record names)) (partTypes env t' (.record names)) := by
    have none : env.recordFields t = none := Env.recordFieldsWithin_eq_none (plain t) h _
    exact refined_unknown (by simp [partTypes, none]) (by simp [partTypes])
  cases special with
  | @record fields fields' hnames htypes =>
    have read (fields : List (String × Ty)) : env.recordFields (.record fields) = some fields := rfl
    have same : List.Forall₂ (fun field field' => field.1 = field'.1) fields fields' := by
      rw [← List.forall₂_eq_eq_eq, List.forall₂_map_left_iff, List.forall₂_map_right_iff] at hnames
      exact hnames
    simp only [partTypes, read, Option.getD_some]
    rw [List.forall₂_map_left_iff, List.forall₂_map_right_iff, List.forall₂_same]
    intro name _
    have related := Assoc.forall₂_get? (same.mp (fun _ _ => And.intro) htypes) name
    generalize Assoc.get? fields name = found at related
    generalize Assoc.get? fields' name = found' at related
    cases related with
    | none => exact .inl rfl
    | some h => exact .inr h
  | _ => exact blank (by simp)

include special in
theorem refined_cons {name : String} (hname : t.headName? = some name) :
    List.Forall₂ (Refined env) (partTypes env t .cons) (partTypes env t' .cons) := by
  have parts {u u' : Ty} (h : t.listElement?.getD unknown = u)
      (h' : t'.listElement?.getD unknown = u') (element : Special env.Outside u u') :
      List.Forall₂ (Refined env) (partTypes env t .cons) (partTypes env t' .cons) := by
    simp only [partTypes, h, h']
    exact refined_special (.cons element (.cons (.app .const (.cons element .nil)) .nil))
  cases special with
  | const => exact parts rfl rfl (special_self _)
  | @app head head' args args' hhead hargs =>
    have named : head'.isNamed "List" = head.isNamed "List" := by
      rw [headName?] at hname
      simp only [isNamed, hname, (hhead.headName? hname).1]
    cases hargs with
    | nil => exact parts rfl rfl (special_self _)
    | @cons element element' rest rest' first others =>
      cases others with
      | nil =>
        cases hlist : head.isNamed "List" with
        | true =>
          refine parts ?_ ?_ first
          · simp [listElement?, hlist]
          · simp [listElement?, named, hlist]
        | false =>
          refine parts ?_ ?_ (special_self unknown)
          · simp [listElement?, hlist]
          · simp [listElement?, named, hlist]
      | cons => exact parts rfl rfl (special_self _)
  | _ => simp [headName?] at hname

end Parts

theorem find?_refined {found found' : List Alternative}
    (h : List.Forall₂ (RefinedAlternative env) found found') (name : String) :
    Option.Rel (RefinedAlternative env) (found.find? fun a => a.name == name)
      (found'.find? fun a => a.name == name) := by
  induction h with
  | nil => exact .none
  | @cons a a' _ _ first _ ih =>
    simp only [List.find?_cons, first.1]
    cases a.name == name with
    | true => exact .some first
    | false => exact ih

theorem variants_refined {found found' : List Alternative}
    (h : List.Forall₂ (RefinedAlternative env) found found') :
    (found'.map fun a => Head.variant a.name) = found.map fun a => Head.variant a.name := by
  induction h with
  | nil => rfl
  | cons first _ ih => rw [List.map_cons, List.map_cons, ih, first.1]

include plain in
theorem refined_named {t t' : Ty} (special : Special env.Outside t t') {rows : List Row}
    (hfields : columnFields? rows = none)
    (harity : tupleArity? (rows.filterMap firstHead?) = none) {name : String}
    (hname : t.headName? = some name) {heads : List Head}
    (hheads : signature? env t rows = some heads) :
    signature? env t' rows = some heads ∧ ∀ head ∈ heads,
      List.Forall₂ (Refined env) (partTypes env t head) (partTypes env t' head) := by
  have hname' := (special.headName? hname).1
  rw [signature?_of_headName? hfields harity hname] at hheads
  rw [signature?_of_headName? hfields harity hname']
  by_cases bool : name = "Bool"
  · rw [if_pos bool] at hheads ⊢
    obtain rfl := Option.some.inj hheads
    exact ⟨rfl, by simp [partTypes]⟩
  by_cases unit : name = "Unit"
  · rw [if_neg bool, if_pos unit] at hheads ⊢
    obtain rfl := Option.some.inj hheads
    exact ⟨rfl, by simp [partTypes]⟩
  by_cases list : name = "List"
  · rw [if_neg bool, if_neg unit, if_pos list] at hheads ⊢
    obtain rfl := Option.some.inj hheads
    refine ⟨rfl, List.forall_mem_cons.2 ⟨.nil, List.forall_mem_singleton.2 ?_⟩⟩
    exact refined_cons special hname
  · rw [if_neg bool, if_neg unit, if_neg list] at hheads ⊢
    obtain ⟨found, hfound, rfl⟩ := Option.map_eq_some_iff.1 hheads
    obtain ⟨found', hfound', refined⟩ := refined_alternatives plain special hfound
    rw [hfound', Option.map_some]
    refine ⟨congrArg some (variants_refined refined), fun head hhead => ?_⟩
    obtain ⟨a, -, rfl⟩ := List.mem_map.1 hhead
    simp only [partTypes, hfound, hfound', Option.bind_some]
    generalize hfind : found.find? (fun other => other.name == a.name) = first
    generalize hfind' : found'.find? (fun other => other.name == a.name) = second
    have related := find?_refined refined a.name
    rw [hfind, hfind'] at related
    cases related with
    | none => exact .nil
    | some h => exact h.2

include plain in
theorem refined_split {t t' : Ty} (h : Refined env t t') {rows : List Row} {heads : List Head}
    (hheads : signature? env t rows = some heads) : signature? env t' rows = some heads ∧
      ∀ head ∈ heads, List.Forall₂ (Refined env) (partTypes env t head) (partTypes env t' head) := by
  rcases h with rfl | special
  · -- Of a column of which nothing is known, only the patterns can tell the heads.
    rcases signature?_eq_some hheads with ⟨names, rfl, told⟩ | ⟨arity, rfl, told⟩ | ⟨-, -, h⟩
    · refine ⟨told t', List.forall_mem_singleton.2 ?_⟩
      have blank : env.recordFields unknown = none :=
        Env.recordFieldsWithin_eq_none (plain _) (by simp [unknown]) _
      exact refined_unknown (by simp [partTypes, blank]) (by simp [partTypes])
    · refine ⟨told t', List.forall_mem_singleton.2 ?_⟩
      refine refined_unknown ?_ (by rw [length_partTypes_tuple, length_partTypes_tuple])
      exact fun u hu => List.eq_of_mem_replicate hu
    · simp [unknown, headName?] at h
  · rcases signature?_eq_some hheads with ⟨names, rfl, told⟩ | ⟨arity, rfl, told⟩ |
      ⟨hfields, harity, ⟨elements, rfl⟩ | ⟨name, hname⟩⟩
    · exact ⟨told _, List.forall_mem_singleton.2 (refined_record plain special names)⟩
    · exact ⟨told _, List.forall_mem_singleton.2 (refined_tuple special arity)⟩
    · obtain rfl : [Head.tuple elements.length] = heads := by
        simpa [signature?, hfields, harity] using hheads
      refine ⟨?_, List.forall_mem_singleton.2 (refined_tuple special _)⟩
      cases special with
      | tuple helements => simp [signature?, hfields, harity, helements.length_eq]
    · exact refined_named plain special hfields harity hname hheads

include plain in
/-- Rows that cover some columns still do so when types take the place of variables: of a column
that is a variable the patterns can tell the heads, but not the type. -/
theorem Covers.refine {rows : List Row} {columns columns' : List Ty} (h : Covers env rows columns)
    (refined : List.Forall₂ (Refined env) columns columns') : Covers env rows columns' := by
  induction h generalizing columns' with
  | done nonempty =>
    cases refined
    exact .done nonempty
  | pass _ ih =>
    cases refined with
    | cons _ rest => exact .pass (ih rest)
  | @split rows t rest heads hheads _ ih =>
    cases refined with
    | @cons _ t' _ rest' first others =>
      rw [unfold_eq_self plain] at hheads
      obtain ⟨hheads', parts⟩ := refined_split plain first hheads
      rw [← unfold_eq_self plain t'] at hheads'
      refine .split hheads' fun head hhead => ?_
      have related := parts head hhead
      rw [unfold_eq_self plain, ← related.length_eq, ← unfold_eq_self plain t]
      refine ih head hhead ?_
      rw [unfold_eq_self plain]
      exact List.rel_append related others

end Refined

end Coverage

end Polytype
