import Polytype.Inference.Declaration
import Polytype.Proofs.Renaming.Inference

namespace Polytype

instance : Renamable Declared where
  rename ρ d := ⟨d.name, rename ρ d.scheme, d.span⟩

instance : Renamable Scope where
  rename ρ scope := ⟨rename ρ scope.env, rename ρ scope.declared⟩

instance : Renamable TypeDecl := ⟨fun _ decl => decl⟩

@[simp] theorem Declared.rename_mk (ρ : Renaming) (name : String) (σ : Scheme) (span : Span) :
    rename ρ (mk name σ span) = ⟨name, rename ρ σ, span⟩ := rfl

namespace Scope

variable (ρ : Renaming) (scope : Scope)

@[simp] theorem rename_mk (env : Env) (declared : List Declared) :
    rename ρ (mk env declared) = ⟨rename ρ env, declared.map (rename ρ)⟩ := rfl

@[simp] theorem rename_env : (rename ρ scope).env = rename ρ scope.env := rfl

@[simp] theorem rename_declared :
    (rename ρ scope).declared = scope.declared.map (rename ρ) := rfl

theorem filter_name_rename (keep : String → Bool) (declared : List Declared) :
    (declared.map (rename ρ)).filter (fun d => keep d.name) =
      (declared.filter fun d => keep d.name).map (rename ρ) :=
  List.filter_map

@[simp] theorem bind_rename (name : String) (binding : Binding) (span : Span) :
    (rename ρ scope).bind name (rename ρ binding) span = rename ρ (scope.bind name binding span) := by
  have kept := filter_name_rename ρ (fun other => other ≠ name) scope.declared
  simp only [bind, rename_env, rename_declared, rename_mk, Env.extend_rename, kept,
    Binding.scheme_rename, List.map_append, List.map_cons, List.map_nil, Declared.rename_mk]

end Scope

namespace Infer

variable {κ : Comparison}

/-! ## Types -/

theorem alike_typeParams (decl : TypeDecl) (params : List String) (drawn : List (String × TypeVar)) :
    Alike κ (typeParams decl params drawn) (typeParams decl params (drawn.map (rename κ.ids))) := by
  induction params generalizing drawn with
  | nil => exact .pure rfl
  | cons param rest ih =>
    have repeated : (drawn.map (rename κ.ids)).any (fun entry => entry.1 == param) =
        drawn.any fun entry => entry.1 == param := by simp [Function.comp_def]
    rw [typeParams, typeParams, repeated]
    refine .ite (alike_fail rfl rfl) ((alike_freshVar 0).bind fun v => ?_)
    have := ih (drawn ++ [(param, v)])
    rwa [List.map_append] at this

theorem define_params_rename (ρ : Renaming) (env : Env) (name : String)
    (params : List (String × TypeVar)) (body : Body) :
    (rename ρ env).define ⟨name, (rename ρ params).map (·.2), rename ρ body⟩ =
      rename ρ (env.define ⟨name, params.map (·.2), body⟩) := by
  have renamed : (rename ρ params).map (·.2) = (params.map (·.2)).map (rename ρ) := by
    simp [Function.comp_def]
  rw [renamed]
  exact env.define_rename ρ ⟨name, params.map (·.2), body⟩

theorem alike_declareTypes (env : Env) (decls : List TypeDecl) :
    Alike κ (declareTypes env decls) (declareTypes (rename κ.ids env) decls) := by
  induction decls generalizing env with
  | nil => exact .pure rfl
  | cons decl rest ih =>
    refine (alike_typeParams decl decl.params []).bind fun params => ?_
    have named := define_params_rename κ.ids env decl.name.name params .abstract
    rw [Body.rename_abstract] at named
    rw [named]
    exact (ih _).bind fun _ => .pure rfl

theorem alike_alternativesOf (env : Env) (written : List (Ident × List TypeExpr)) :
    Resolve.Alike κ (alternativesOf env written) (alternativesOf (rename κ.ids env) written) := by
  induction written with
  | nil => exact .pure rfl
  | cons entry rest ih =>
    obtain ⟨name, args⟩ := entry
    refine (Resolve.alike_types env none fun t _ => Resolve.alike_type env none t).bind fun ts => ?_
    exact ih.bind fun _ => .pure rfl

theorem alike_bodyOf (env : Env) (body : TypeDeclBody) :
    Resolve.Alike κ (bodyOf env body) (bodyOf (rename κ.ids env) body) := by
  cases body with
  | synonym target => exact (Resolve.alike_type env none target).bind fun _ => .pure rfl
  | record written =>
    refine (Resolve.alike_fields env none fun field _ =>
      Resolve.alike_type env none field.2).bind fun fields => .pure ?_
    exact congrArg Body.record (Assoc.ofList_rename κ.ids fields)
  | variant written => exact (alike_alternativesOf env written).bind fun _ => .pure rfl

theorem alike_defineBodies (scope : Env) (decls : List (TypeDecl × List (String × TypeVar)))
    (env : Env) :
    Alike κ (defineBodies scope decls env)
      (defineBodies (rename κ.ids scope) (decls.map (rename κ.ids)) (rename κ.ids env)) := by
  induction decls generalizing env with
  | nil => exact .pure rfl
  | cons entry rest ih =>
    obtain ⟨decl, params⟩ := entry
    have names : Assoc.ofList ((rename κ.ids params).map fun param => (param.1, Ty.var param.2)) =
        (Assoc.ofList (params.map fun param => (param.1, Ty.var param.2))).map (rename κ.ids) := by
      rw [← Assoc.ofList_rename]
      simp [Function.comp_def]
    refine (alike_resolving names (alike_bodyOf scope decl.body)).bind fun body => ?_
    have defined := define_params_rename κ.ids env decl.name.name params body
    exact defined ▸ ih _

theorem alike_defineTypes (env : Env) (decls : List TypeDecl) :
    Alike κ (defineTypes env decls) (defineTypes (rename κ.ids env) decls) :=
  (alike_declareTypes env decls).bind fun result => alike_defineBodies result.1 result.2 result.1

/-! ## Declarations -/

theorem alike_signature (env : Env) (written : TypeExpr) :
    Alike κ (signature env written) (signature (rename κ.ids env) written) := by
  refine (alike_writtenType env 1 written).bind fun t => alike_log.bind fun _ => .pure ?_
  exact generalize_rename κ.ids env 0 t .empty

theorem alike_importItems (moduleName : String) (items : List ImportItem) (env : Env)
    (values : List (String × Scheme)) :
    Alike κ (importItems moduleName items env values)
      (importItems moduleName items (rename κ.ids env) (values.map (rename κ.ids))) := by
  induction items generalizing env values with
  | nil => exact .pure rfl
  | cons item rest ih =>
    cases item with
    | type decl => exact (alike_defineTypes env [decl]).bind fun env => ih env values
    | value name localName written =>
      refine (alike_signature env written).bind fun σ => alike_log.bind fun _ => ?_
      have := ih env (values ++ [((localName.getD name).name, σ)])
      rwa [List.map_append] at this

theorem alike_declareGroup (members : List GroupBinding) (schemes : List (String × Scheme))
    (scope : Scope) :
    Alike κ (declareGroup members schemes scope)
      (declareGroup members (schemes.map (rename κ.ids)) (rename κ.ids scope)) := by
  induction members generalizing schemes scope with
  | nil => exact .pure rfl
  | cons member members ih =>
    cases schemes with
    | nil => exact .pure rfl
    | cons entry schemes =>
      obtain ⟨name, σ⟩ := entry
      refine alike_log.bind fun _ => ?_
      have := ih schemes (scope.bind name (.value σ) member.span)
      rwa [← Scope.bind_rename] at this

theorem bindAll_rename (ρ : Renaming) (span : Span) (values : List (String × Scheme))
    (scope : Scope) :
    (values.map (rename ρ)).foldl (fun scope value => scope.bind value.1 (.value value.2) span)
        (rename ρ scope) =
      rename ρ (values.foldl (fun scope value => scope.bind value.1 (.value value.2) span) scope) := by
  induction values generalizing scope with
  | nil => rfl
  | cons value values ih =>
    rw [List.map_cons, List.foldl_cons, List.foldl_cons, ← ih, ← Scope.bind_rename]
    rfl

theorem alike_declaration (scope : Scope) {d : Declaration} (avoids : d.Avoids κ.hidden) :
    Alike κ (declaration scope d) (declaration (rename κ.ids scope) d) := by
  cases d with
  | value name written body recursive span =>
    refine (alike_letBinding scope.env 0 name written (alike_expr body avoids) recursive).bind ?_
    exact fun σ => alike_log.bind fun _ => .pure (scope.bind_rename κ.ids name.name (.value σ) span)
  | group bindings span =>
    refine (alike_group scope.env 0 fun b hb =>
      alike_expr b.value (avoids_group avoids b hb)).bind fun schemes => ?_
    exact alike_declareGroup bindings schemes scope
  | types decls span =>
    exact (alike_defineTypes scope.env decls).bind fun env => alike_log.bind fun _ => .pure rfl
  | foreign name written foreignName span =>
    refine (alike_signature scope.env written).bind fun σ => alike_log.bind fun _ => .pure ?_
    exact scope.bind_rename κ.ids name.name (.foreign σ foreignName) span
  | imports moduleName items span =>
    refine (alike_importItems moduleName items scope.env []).bind fun result => .pure ?_
    exact bindAll_rename κ.ids span result.2 { scope with env := result.1 }

end Infer

end Polytype
