import Polytype.Coverage.Search
import Polytype.Inference.Generalize
import Polytype.Proofs.Renaming.Unification
import Polytype.Proofs.Typing.Substitution

namespace Polytype

instance : Renamable Alternative where
  rename ρ a := ⟨a.name, rename ρ a.args⟩

instance : Renamable Body where
  rename ρ
    | .abstract => .abstract
    | .synonym target => .synonym (rename ρ target)
    | .record fields => .record (rename ρ fields)
    | .variant alternatives => .variant (rename ρ alternatives)

instance : Renamable Definition where
  rename ρ d := ⟨d.name, rename ρ d.params, rename ρ d.body⟩

instance : Renamable Constructor where
  rename ρ c := ⟨c.name, c.typeName, rename ρ c.params, rename ρ c.args, rename ρ c.result⟩

instance : Renamable Binding where
  rename ρ
    | .value σ => .value (rename ρ σ)
    | .constructor c => .constructor (rename ρ c)
    | .foreign σ name => .foreign (rename ρ σ) name

instance : Renamable Env where
  rename ρ env := ⟨rename ρ env.values, rename ρ env.types⟩

variable (ρ : Renaming)

/-! ## Definitions -/

namespace Alternative

@[simp] theorem rename_mk (name : String) (args : List Ty) :
    rename ρ (mk name args) = ⟨name, args.map (rename ρ)⟩ := rfl

@[simp] theorem rename_name (a : Alternative) : (rename ρ a).name = a.name := rfl

@[simp] theorem rename_args (a : Alternative) : (rename ρ a).args = a.args.map (rename ρ) := rfl

end Alternative

namespace Body

@[simp] theorem rename_abstract : rename ρ abstract = abstract := rfl

@[simp] theorem rename_synonym (target : Ty) :
    rename ρ (synonym target) = synonym (rename ρ target) := rfl

@[simp] theorem rename_variant (alternatives : List Alternative) :
    rename ρ (variant alternatives) = variant (alternatives.map (rename ρ)) := rfl

@[simp] theorem target?_rename (body : Body) :
    (rename ρ body).target? = body.target?.map (rename ρ) := by
  cases body with
  | record fields => exact congrArg some (Ty.rename_record ρ fields).symm
  | _ => rfl

end Body

namespace Constructor

variable (c : Constructor)

@[simp] theorem rename_name : (rename ρ c).name = c.name := rfl

@[simp] theorem rename_params : (rename ρ c).params = c.params.map (rename ρ) := rfl

@[simp] theorem rename_args : (rename ρ c).args = c.args.map (rename ρ) := rfl

@[simp] theorem rename_result : (rename ρ c).result = rename ρ c.result := rfl

@[simp] theorem arity_rename : (rename ρ c).arity = c.arity := by
  simp [arity]

@[simp] theorem scheme_rename : (rename ρ c).scheme = rename ρ c.scheme := by
  simp only [scheme, rename_params, rename_args, rename_result, List.isEmpty_map, rename_scheme]
  split <;> simp

end Constructor

namespace Definition

@[simp] theorem rename_mk (name : String) (params : List TypeVar) (body : Body) :
    rename ρ (mk name params body) = ⟨name, params.map (rename ρ), rename ρ body⟩ := rfl

variable (d : Definition)

@[simp] theorem rename_name : (rename ρ d).name = d.name := rfl

@[simp] theorem rename_params : (rename ρ d).params = d.params.map (rename ρ) := rfl

@[simp] theorem rename_body : (rename ρ d).body = rename ρ d.body := rfl

@[simp] theorem selfType_rename : (rename ρ d).selfType = rename ρ d.selfType := by
  simp [selfType, Function.comp_def]

@[simp] theorem instantiate_rename (args : List Ty) (t : Ty) :
    (rename ρ d).instantiate (args.map (rename ρ)) (rename ρ t) =
      rename ρ (d.instantiate args t) := by
  rw [instantiate, rename_params, zip_rename, Subst.ofPairs_rename, Subst.apply_rename]
  rfl

@[simp] theorem constructors_rename :
    (rename ρ d).constructors = d.constructors.map (rename ρ) := by
  obtain ⟨name, params, body⟩ := d
  cases body with
  | variant alternatives =>
    refine (List.map_map ..).trans (Eq.trans ?_ (List.map_map ..).symm)
    refine List.map_congr_left fun a _ => ?_
    exact congrArg (Constructor.mk a.name name (params.map (rename ρ)) (a.args.map (rename ρ)))
      (selfType_rename ρ ⟨name, params, .variant alternatives⟩)
  | _ => rfl

end Definition

@[simp] theorem Binding.rename_value (σ : Scheme) : rename ρ (value σ) = value (rename ρ σ) := rfl

@[simp] theorem Binding.scheme_rename (binding : Binding) :
    (rename ρ binding).scheme = rename ρ binding.scheme := by
  cases binding with
  | constructor c => exact c.scheme_rename ρ
  | _ => rfl

namespace Env

variable (env : Env)

@[simp] theorem rename_values : (rename ρ env).values = env.values.map (rename ρ) := rfl

@[simp] theorem rename_types : (rename ρ env).types = env.types.map (rename ρ) := rfl

@[simp] theorem lookup_rename (name : String) :
    (rename ρ env).lookup name = (env.lookup name).map (rename ρ) := by
  simp [lookup]

@[simp] theorem definition?_rename (name : String) :
    (rename ρ env).definition? name = (env.definition? name).map (rename ρ) := by
  simp [definition?]

@[simp] theorem constructor?_rename (name : String) :
    (rename ρ env).constructor? name = (env.constructor? name).map (rename ρ) := by
  simp only [constructor?, lookup_rename]
  cases env.lookup name with
  | none => rfl
  | some binding => cases binding <;> rfl

/-! ## Scopes -/

@[simp] theorem extend_rename (name : String) (binding : Binding) :
    (rename ρ env).extend name (rename ρ binding) = rename ρ (env.extend name binding) := by
  rw [extend, rename_values, Assoc.insert_rename]
  rfl

@[simp] theorem extendValue_rename (name : String) (σ : Scheme) :
    (rename ρ env).extendValue name (rename ρ σ) = rename ρ (env.extendValue name σ) :=
  extend_rename ρ env name (.value σ)

@[simp] theorem extendAll_rename (bindings : List (String × Binding)) :
    (rename ρ env).extendAll (bindings.map (rename ρ)) = rename ρ (env.extendAll bindings) := by
  rw [extendAll, rename_values, Assoc.insertAll_rename]
  rfl

@[simp] theorem extendMono_rename (types : List (String × Ty)) :
    (rename ρ env).extendMono (types.map (rename ρ)) = rename ρ (env.extendMono types) :=
  (congrArg (rename ρ env).extendAll (Assoc.mapValues_rename types fun _ => rfl)).trans
    (extendAll_rename ρ env _)

theorem extendSchemes_rename (schemes : List (String × Scheme)) :
    (rename ρ env).extendAll (Assoc.mapValues .value (schemes.map (rename ρ))) =
      rename ρ (env.extendAll (Assoc.mapValues .value schemes)) :=
  (congrArg (rename ρ env).extendAll (Assoc.mapValues_rename schemes fun _ => rfl)).trans
    (extendAll_rename ρ env _)

@[simp] theorem define_rename (d : Definition) :
    (rename ρ env).define (rename ρ d) = rename ρ (env.define d) := by
  have constructors : (rename ρ d).constructors.map (fun c => (c.name, Binding.constructor c)) =
      (d.constructors.map fun c => (c.name, Binding.constructor c)).map (rename ρ) := by
    simp only [Definition.constructors_rename, List.map_map]
    rfl
  simp only [define, constructors, rename_values, rename_types, Definition.rename_name,
    Assoc.insertAll_rename, Assoc.insert_rename]
  rfl

@[simp] theorem without_rename (names : List String) :
    (rename ρ env).without names = rename ρ (env.without names) := by
  have kept : Assoc.filterKeys (fun name => !names.contains name) (env.values.map (rename ρ)) =
      (env.values.filterKeys fun name => !names.contains name).map (rename ρ) := by
    simp [Assoc.filterKeys, List.filter_map, Function.comp_def]
  rw [without, rename_values, kept]
  rfl

@[simp] theorem freeVars_rename (s : Subst) :
    (rename ρ env).freeVars (rename ρ s) = (env.freeVars s).map (rename ρ) := by
  rw [freeVars, freeVars, ← TypeVar.setOf_rename, rename_values, List.flatMap_map, List.map_flatMap]
  congr 1
  refine List.flatMap_congr fun entry _ => ?_
  obtain ⟨name, binding⟩ := entry
  cases binding with
  | constructor c => rfl
  | value σ =>
    exact (congrArg Scheme.freeVars (s.applyScheme_rename ρ σ)).trans (Scheme.freeVars_rename ρ _)
  | foreign σ foreignName =>
    exact (congrArg Scheme.freeVars (s.applyScheme_rename ρ σ)).trans (Scheme.freeVars_rename ρ _)

/-! ## Reading through named types -/

theorem definitionOf?_rename (t : Ty) :
    (rename ρ env).definitionOf? (rename ρ t) = (env.definitionOf? t).map (rename ρ) := by
  rw [definitionOf?, definitionOf?, Ty.headName?_rename]
  cases t.headName? with
  | none => rfl
  | some name =>
    simp only [Option.bind_some, definition?_rename]
    cases env.definition? name with
    | none => rfl
    | some d =>
      simp only [Option.map_some, Option.filter_some, Ty.args_rename, Definition.rename_params,
        List.length_map]
      split <;> rfl

@[simp] theorem expand_rename (t : Ty) :
    (rename ρ env).expand (rename ρ t) = (env.expand t).map (rename ρ) := by
  rw [expand, definitionOf?_rename, expand]
  cases env.definitionOf? t with
  | none => rfl
  | some d => cases h : d.body.target? <;> simp [h]

@[simp] theorem unfold_rename (t : Ty) :
    (rename ρ env).unfold (rename ρ t) = rename ρ (env.unfold t) := by
  unfold Env.unfold
  generalize aliasDepth = steps
  induction steps generalizing t with
  | zero => rfl
  | succ steps ih =>
    simp only [unfoldWithin, expand_rename]
    cases env.expand t with
    | none => rfl
    | some u => exact ih u

@[simp] theorem recordFields_rename (t : Ty) :
    (rename ρ env).recordFields (rename ρ t) = (env.recordFields t).map (rename ρ) := by
  unfold recordFields
  generalize aliasDepth = steps
  induction steps generalizing t with
  | zero => rfl
  | succ steps ih =>
    have expanded : ((rename ρ env).expand (rename ρ t)).bind
          ((rename ρ env).recordFieldsWithin steps) =
        ((env.expand t).bind (env.recordFieldsWithin steps)).map (rename ρ) := by
      rw [expand_rename]
      cases env.expand t with
      | none => rfl
      | some u => exact ih u
    cases t with
    | record fields => simp [recordFieldsWithin]
    | _ => exact expanded

@[simp] theorem alternatives_rename (t : Ty) :
    (rename ρ env).alternatives (rename ρ t) = (env.alternatives t).map (rename ρ) := by
  unfold alternatives
  generalize aliasDepth = steps
  induction steps generalizing t with
  | zero => rfl
  | succ steps ih =>
    simp only [alternativesWithin, definitionOf?_rename]
    cases env.definitionOf? t with
    | none => rfl
    | some d =>
      simp only [Option.map_some, Definition.rename_body]
      cases d.body with
      | variant alternatives => simp [Function.comp_def]
      | synonym target => simpa using ih (d.instantiate t.args target)
      | _ => rfl

@[simp] theorem callee_rename (t : Ty) :
    (rename ρ env).callee (rename ρ t) = rename ρ (env.callee t) := by
  unfold callee
  generalize aliasDepth = steps
  induction steps generalizing t with
  | zero => rfl
  | succ steps ih =>
    have expanded := expand_rename ρ env t
    cases h : env.expand t <;> rw [h] at expanded <;> cases t <;> simp_all [calleeWithin]

end Env

theorem unify_expand_rename (env : Env) (expected actual : Ty) (s : Subst) :
    unify (rename ρ env).expand (rename ρ expected) (rename ρ actual) (rename ρ s) =
      rename ρ (unify env.expand expected actual s) :=
  unify_rename ρ (env.expand_rename ρ) expected actual s

/-! ## Generalization -/

@[simp] theorem Expr.isValue_rename (env : Env) (e : Expr) :
    e.isValue (rename ρ env) = e.isValue env := by
  refine isValue_congr (fun name => ?_) e
  cases h : env.constructor? name <;> simp [h]

@[simp] theorem generalize_rename (env : Env) (level : Nat) (t : Ty) (s : Subst) :
    generalize (rename ρ env) level (rename ρ t) (rename ρ s) =
      rename ρ (generalize env level t s) := by
  simp [generalize, List.filter_map, Function.comp_def]

/-! ## Missing cases -/

namespace Coverage

instance : Renamable Head := ⟨fun _ head => head⟩

instance : Renamable Plan where
  rename ρ
    | .split heads => .split (rename ρ heads)
    | .pass first => .pass first

@[simp] theorem rename_head (head : Head) : rename ρ head = head := rfl

@[simp] theorem rename_split (heads : List (Head × List Ty)) :
    rename ρ (Plan.split heads) = .split (heads.map (rename ρ)) := rfl

@[simp] theorem rename_pass (first : MissingCase) : rename ρ (Plan.pass first) = .pass first := rfl

@[simp] theorem rename_unknown : rename ρ unknown = unknown := by
  simp only [unknown, Ty.rename_var]
  exact congrArg (fun id => Ty.var ⟨id, 0⟩) ρ.zero

@[simp] theorem signature?_rename (env : Env) (t : Ty) (rows : List Row) :
    signature? (rename ρ env) (rename ρ t) rows = signature? env t rows := by
  have named := Ty.isNamed_rename ρ t
  have variants : ((rename ρ env).alternatives (rename ρ t)).map
        (fun alternatives => alternatives.map fun a => Head.variant a.name) =
      (env.alternatives t).map fun alternatives => alternatives.map fun a => .variant a.name := by
    simp [Function.comp_def]
  unfold signature?
  cases columnFields? rows with
  | some names => rfl
  | none =>
    cases tupleArity? (rows.filterMap firstHead?) with
    | some arity => rfl
    | none =>
      cases t with
      | tuple elements => simp
      | _ =>
        simp only [Ty.rename_var, Ty.rename_const, Ty.rename_app, Ty.rename_func,
          Ty.rename_record] at named variants ⊢
        simp only [named, variants]

@[simp] theorem partTypes_rename (env : Env) (t : Ty) (head : Head) :
    partTypes (rename ρ env) (rename ρ t) head = (partTypes env t head).map (rename ρ) := by
  cases head with
  | variant name =>
    simp only [partTypes, Env.alternatives_rename]
    cases env.alternatives t with
    | none => rfl
    | some alternatives =>
      simp only [Option.map_some, Option.bind_some, rename_list, List.find?_map,
        Function.comp_def, Alternative.rename_name]
      cases alternatives.find? fun a => a.name == name <;> rfl
  | tuple arity =>
    cases t with
    | tuple elements =>
      simp only [Ty.rename_tuple, partTypes, List.length_map]
      split <;> simp
    | _ => simp [partTypes]
  | record names =>
    have fields : ((rename ρ env).recordFields (rename ρ t)).getD [] =
        ((env.recordFields t).getD []).map (rename ρ) := by
      rw [Env.recordFields_rename]
      cases env.recordFields t <;> rfl
    simp only [partTypes, fields, Assoc.get?_rename, List.map_map]
    refine List.map_congr_left fun name _ => ?_
    cases h : Assoc.get? ((env.recordFields t).getD []) name <;> simp [h]
  | cons =>
    simp only [partTypes, Ty.listElement?_rename]
    cases t.listElement? <;> simp
  | _ => rfl

@[simp] theorem plan_rename (env : Env) (t : Ty) (rows : List Row) :
    plan (rename ρ env) (rename ρ t) rows = rename ρ (plan env t rows) := by
  simp only [plan, signature?_rename, partTypes_rename]
  cases signature? env t rows with
  | none => rfl
  | some all =>
    simp only [apply_ite (rename ρ), rename_split, rename_pass, List.map_map, Function.comp_def,
      rename_pair, rename_head, rename_list]

theorem findSome?_attach {α β : Type} (f : α → Option β) (as : List α) :
    (as.attach.findSome? fun a => f a.1) = as.findSome? f := by
  calc (as.attach.findSome? fun a => f a.1)
      = (as.attach.map Subtype.val).findSome? f := List.findSome?_map.symm
    _ = as.findSome? f := by rw [as.attach_map_subtype_val]

theorem missing_split {env : Env} {rows : List Row} {t : Ty} {rest : List Ty}
    {heads : List (Head × List Ty)} (h : plan env (env.unfold t) (splitRows rows) = .split heads) :
    missing env rows (t :: rest) = heads.findSome? fun head =>
      (missing env (specializeRows head.1 head.2.length (splitRows rows)) (head.2 ++ rest)).map
        (rebuild head.1 head.2.length) := by
  rw [missing]
  split
  · rename_i other hother
    obtain rfl : heads = other := by simpa [h] using hother
    refine Eq.trans ?_ (findSome?_attach _ heads)
    rfl
  · simp_all

theorem missing_pass {env : Env} {rows : List Row} {t : Ty} {rest : List Ty} {first : MissingCase}
    (h : plan env (env.unfold t) (splitRows rows) = .pass first) :
    missing env rows (t :: rest) = (missing env (passRows (splitRows rows)) rest).map (first :: ·) := by
  rw [missing]
  split
  · simp_all
  · rename_i other hother
    obtain rfl : first = other := by simpa [h] using hother
    rfl

theorem missing_rename (env : Env) (rows : List Row) (columns : List Ty) :
    missing (rename ρ env) rows (columns.map (rename ρ)) = missing env rows columns := by
  fun_induction missing env rows columns with
  | case1 rows hrows => simp [missing, hrows]
  | case2 rows hrows => simp [missing, hrows]
  | case3 rows t rest heads hplan ih =>
    have hplan' : plan (rename ρ env) ((rename ρ env).unfold (rename ρ t)) (splitRows rows) =
        .split (heads.map (rename ρ)) := by rw [Env.unfold_rename, plan_rename, hplan, rename_split]
    rw [List.map_cons, missing_split hplan', List.findSome?_map]
    rw [← findSome?_attach]
    refine congrArg (List.findSome? · heads.attach) (funext ?_)
    rintro ⟨⟨head, parts⟩, mem⟩
    simpa using congrArg (Option.map (rebuild head parts.length)) (ih head parts mem)
  | case4 rows t rest first hplan ih =>
    have hplan' : plan (rename ρ env) ((rename ρ env).unfold (rename ρ t)) (splitRows rows) =
        .pass first := by rw [Env.unfold_rename, plan_rename, hplan, rename_pass]
    rw [List.map_cons, missing_pass hplan', ih]

end Coverage

@[simp] theorem missingCase?_rename (env : Env) (t : Ty) (arms : List (Pattern × Bool)) :
    missingCase? (rename ρ env) (rename ρ t) arms = missingCase? env t arms := by
  rw [missingCase?, missingCase?, ← Coverage.missing_rename ρ env _ [t]]
  rfl

end Polytype
