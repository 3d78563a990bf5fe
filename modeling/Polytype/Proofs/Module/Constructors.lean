import Mathlib
import Polytype.Proofs.Inference.Steps
import Polytype.Proofs.Module.Run

/-!
# Constructors and their types

A constructor in scope stays there when its type is defined anew, unless the new definition has a
constructor of the same name. The name of its type then stands for a variant without it, so a `match`
that covers all constructors of the type need not cover the values the old one builds
(`unregistered_lightModule`). Where a type name is defined once, the constructors in scope are those
of the type, in every environment of a check (`registered_of_reached`).
-/

namespace Polytype

open Infer

namespace Env

/-- The type of a constructor is a variant that has it. -/
def Registered (env : Env) (c : Constructor) : Prop :=
  ∃ d alternatives, env.definition? c.typeName = some d ∧ d.params = c.params ∧
    d.body = .variant alternatives ∧ ⟨c.name, c.args⟩ ∈ alternatives

def Fresh (env : Env) (type : String) : Prop :=
  ∀ name c, env.lookup name = some (.constructor c) → c.typeName ≠ type

def Live (env : Env) (type : String) : Prop :=
  ∀ name c, env.lookup name = some (.constructor c) → c.typeName = type → env.Registered c

structure Defined (type : String) (count : Nat) (env : Env) : Prop where
  fresh : count = 0 → env.Fresh type
  live : count ≤ 1 → env.Live type

theorem Fresh.live {env : Env} {type : String} (h : env.Fresh type) : env.Live type :=
  fun name c hc htype => absurd htype (h name c hc)

namespace Defined

variable {type : String} {count : Nat} {env : Env}

theorem of_fresh (h : env.Fresh type) (count : Nat) : Defined type count env :=
  ⟨fun _ => h, fun _ => h.live⟩

theorem mono {count' : Nat} (h : Defined type count env) (le : count ≤ count') :
    Defined type count' env :=
  ⟨fun zero => h.fresh (by omega), fun one => h.live (by omega)⟩

theorem of_constructors {env' : Env} (h : Defined type count env) (types : env'.types = env.types)
    (old : ∀ name c, env'.lookup name = some (.constructor c) →
      env.lookup name = some (.constructor c)) : Defined type count env' := by
  refine ⟨fun zero name c hc => h.fresh zero name c (old name c hc), fun one name c hc htype => ?_⟩
  have := h.live one name c (old name c hc) htype
  unfold Registered definition? at this ⊢
  rwa [types]

theorem extendAll (h : Defined type count env) (values : List (String × Scheme)) :
    Defined type count (env.extendAll (Assoc.mapValues .value values)) := by
  refine h.of_constructors rfl fun name c hc => ?_
  rcases Assoc.get?_insertAll_some hc with mem | old
  · obtain ⟨entry, -, heq⟩ := List.mem_map.1 mem
    simp at heq
  · exact old

theorem without (h : Defined type count env) (names : List String) :
    Defined type count (env.without names) := by
  refine h.of_constructors rfl fun name c hc => ?_
  rw [lookup, Env.without, Assoc.get?_filterKeys] at hc
  split at hc
  · exact hc
  · simp at hc

theorem applySubst (h : Defined type count env) (s : Subst) :
    Defined type count (env.applySubst s) := by
  refine h.of_constructors rfl fun name c hc => ?_
  rw [lookup, Env.applySubst, Assoc.get?_mapValues, Option.map_eq_some_iff] at hc
  obtain ⟨b, hb, heq⟩ := hc
  cases b with
  | constructor c' =>
    obtain rfl := Binding.constructor.inj heq
    exact hb
  | value | foreign => simp [Binding.mapScheme] at heq

end Defined

theorem registered_define {env : Env} {d : Definition} {c : Constructor} (h : c ∈ d.constructors) :
    (env.define d).Registered c := by
  unfold Definition.constructors at h
  split at h
  · rename_i alternatives hbody
    obtain ⟨a, ha, rfl⟩ := List.mem_map.1 h
    exact ⟨d, alternatives, Assoc.get?_insert_self .., rfl, hbody, ha⟩
  · simp at h

theorem typeName_of_mem_constructors {d : Definition} {c : Constructor} (h : c ∈ d.constructors) :
    c.typeName = d.name := by
  unfold Definition.constructors at h
  split at h
  · obtain ⟨a, ha, rfl⟩ := List.mem_map.1 h
    rfl
  · simp at h

theorem Registered.define_of_ne {env : Env} {c : Constructor} (h : env.Registered c)
    {d : Definition} (hne : d.name ≠ c.typeName) : (env.define d).Registered c := by
  obtain ⟨d', alternatives, hd, rest⟩ := h
  refine ⟨d', alternatives, ?_, rest⟩
  rw [definition?, define, Assoc.get?_insert, if_neg hne]
  exact hd

theorem Fresh.defineAll {type : String} {definitions : List Definition} {env : Env}
    (h : env.Fresh type) (announced : ∀ d ∈ definitions, d.constructors = []) :
    (env.defineAll definitions).Fresh type := by
  intro name c hc
  rw [lookup_defineAll_of_ne fun d hd c hc => by simp [announced d hd] at hc] at hc
  exact h name c hc

namespace Defined

variable {type : String} {count : Nat} {env : Env}

theorem define_of_ne (h : Defined type count env) {d : Definition} (hne : d.name ≠ type) :
    Defined type count (env.define d) := by
  refine ⟨fun zero name c hc htype => ?_, fun one name c hc htype => ?_⟩
  · rcases lookup_define_some hc with ⟨c', hc', -, heq⟩ | old
    · obtain rfl := Binding.constructor.inj heq
      exact hne ((typeName_of_mem_constructors hc').symm.trans htype)
    · exact h.fresh zero name c old htype
  · rcases lookup_define_some hc with ⟨c', hc', -, heq⟩ | old
    · obtain rfl := Binding.constructor.inj heq
      exact registered_define hc'
    · exact (h.live one name c old htype).define_of_ne (htype ▸ hne)

theorem define (h : Defined type count env) (d : Definition) :
    Defined type (count + 1) (env.define d) := by
  refine ⟨by simp, fun one name c hc htype => ?_⟩
  rcases lookup_define_some hc with ⟨c', hc', -, heq⟩ | old
  · obtain rfl := Binding.constructor.inj heq
    exact registered_define hc'
  · exact absurd htype (h.fresh (by omega) name c old)

end Defined

/-! ## From one environment to another -/

def Passes (names : List String) (env env' : Env) : Prop :=
  ∀ type count, Defined type count env → Defined type (count + names.count type) env'

namespace Passes

variable {env env' env'' : Env} {names names' : List String}

theorem refl (env : Env) : Passes [] env env := fun _ _ h => h

theorem trans (h : Passes names env env') (h' : Passes names' env' env'') :
    Passes (names ++ names') env env'' := by
  intro type count defined
  rw [List.count_append, ← Nat.add_assoc]
  exact h' type _ (h type count defined)

theorem mono (h : Passes names env env') (sub : names.Sublist names') : Passes names' env env' :=
  fun type count defined => (h type count defined).mono (Nat.add_le_add_left (sub.count_le type) _)

end Passes

theorem passes_define (env : Env) (d : Definition) : Passes [d.name] env (env.define d) := by
  intro type count defined
  by_cases heq : d.name = type
  · rw [heq, List.count_singleton_self]
    exact defined.define d
  · rw [List.count_singleton, if_neg (by simpa using heq)]
    exact defined.define_of_ne heq

theorem passes_defineAll (env : Env) (definitions : List Definition) :
    Passes (definitions.map (·.name)) env (env.defineAll definitions) := by
  induction definitions generalizing env with
  | nil => exact .refl env
  | cons d definitions ih => exact (passes_define env d).trans (ih _)

theorem passes_announced (env : Env) {names : List String} {announced definitions : List Definition}
    (none : ∀ d ∈ announced, d.constructors = []) (hannounced : announced.map (·.name) = names)
    (hdefinitions : (definitions.map (·.name)).Sublist names) :
    Passes names env ((env.defineAll announced).defineAll definitions) := by
  intro type count defined
  have again := ((passes_defineAll env announced).trans (passes_defineAll _ definitions)) type count
    defined
  rcases Nat.eq_zero_or_pos count with rfl | pos
  · have fresh := Defined.of_fresh ((defined.fresh rfl).defineAll none) 0
    exact ((passes_defineAll _ definitions).mono hdefinitions) type 0 fresh
  · rcases Nat.eq_zero_or_pos (names.count type) with zero | pos'
    · have le := hdefinitions.count_le type
      rw [List.count_append, hannounced] at again
      exact again.mono (by omega)
    · exact ⟨by omega, by omega⟩

theorem passes_extendAll (env : Env) (values : List (String × Scheme)) :
    Passes [] env (env.extendAll (Assoc.mapValues .value values)) :=
  fun _ _ defined => defined.extendAll values

theorem types_bindAll (scope : Scope) (values : List Bound) :
    (scope.bindAll values).env.types = scope.env.types := by
  induction values generalizing scope with
  | nil => rfl
  | cons v values ih => exact ih _

theorem passes_bindAll (scope : Scope) {values : List Bound}
    (h : ∀ v ∈ values, ∀ c, v.binding ≠ .constructor c) :
    Passes [] scope.env (scope.bindAll values).env := by
  intro type count defined
  refine defined.of_constructors (types_bindAll scope values) fun name c hc => ?_
  rcases scope.bindAll_cases values name with ⟨v, mem, -, lookup, -⟩ | ⟨-, lookup, -⟩
  · exact absurd (Option.some.inj (lookup.symm.trans hc)) (h v mem c)
  · exact lookup.symm.trans hc

end Env

/-! ## The environments of a check -/

open Env

/-- The environments that declaring types goes through: first the names are announced, one after the
other, and then the types are defined. -/
inductive Declaring (env : Env) (decls : List TypeDecl) (p : Progress) : Env → Prop
  | announced {before named entries q} : before <+: decls →
      declareTypes env before p = .ok (named, entries) q → Declaring env decls p named
  | defined {named entries q before env' q'} : declareTypes env decls p = .ok (named, entries) q →
      before <+: entries → defineBodies named before named q = .ok env' q' →
      Declaring env decls p env'

/-- The environments that a declaration goes through, apart from values inside of it. -/
inductive Entering (env : Env) (p : Progress) : Declaration → Env → Prop
  | types {decls span env'} : Declaring env decls p env' → Entering env p (.types decls span) env'
  | items {moduleName before items span env' values q} : before <+: items →
      importItems moduleName before env [] p = .ok (env', values) q →
      Entering env p (.imports moduleName items span) env'
  | item {moduleName before decl items span env' values q env''} :
      before ++ [.type decl] <+: items →
      importItems moduleName before env [] p = .ok (env', values) q → Declaring env' [decl] q env'' →
      Entering env p (.imports moduleName items span) env''

/-- The environments of the check of a module: between declarations, inside of them, there with
more values in scope, and in the end. -/
inductive Reached (options : CheckOptions) (m : Module) : Env → Prop
  | between {before} : before <+: m.declarations →
      Reached options m (Checker.run options m.name .start before).scope.env
  | inside {before d env} : before ++ [d] <+: m.declarations →
      Entering (Checker.run options m.name .start before).scope.env
        (Checker.run options m.name .start before).progress d env →
      Reached options m env
  | nested {env values} : Reached options m env →
      Reached options m (env.extendAll (Assoc.mapValues .value values))
  | final {typed} : (checkModule options m).1 = .ok typed → Reached options m typed.env

theorem passes_declaring {env env' : Env} {decls : List TypeDecl} {p : Progress}
    (h : Declaring env decls p env') : Passes (decls.map (·.name.name)) env env' := by
  have names {decls : List TypeDecl} {definitions : List Definition}
      (h : List.Forall₂ TypeDecl.Declares decls definitions) :
      definitions.map (·.name) = decls.map (·.name.name) := by
    induction h with
    | nil => rfl
    | cons first _ ih => simp [first.name, ih]
  cases h with
  | announced hbefore run =>
    obtain ⟨-, definitions, rfl, declares, -⟩ := returns_declareTypes _ _ _ _ _ run
    refine (passes_defineAll env definitions).mono ?_
    rw [names declares]
    exact hbefore.sublist.map _
  | defined run hbefore run' =>
    obtain ⟨rfl, announced, rfl, declares, none⟩ := returns_declareTypes _ _ _ _ _ run
    obtain ⟨definitions, rfl, declares', -⟩ := returns_defineBodies _ _ _ _ _ _ run'
    refine passes_announced env none (names declares) ?_
    rw [names declares']
    exact (hbefore.sublist.map _).map _

theorem declaring_of_defineTypes {env env' : Env} {decls : List TypeDecl} {p q : Progress}
    (run : defineTypes env decls p = .ok env' q) : Declaring env decls p env' := by
  obtain ⟨⟨named, entries⟩, q', run, run'⟩ := exists_of_bind run
  exact .defined run List.prefix_rfl run'

theorem returns_passes_defineTypes (env : Env) (decls : List TypeDecl) :
    Returns (defineTypes env decls) (Passes (decls.map (·.name.name)) env) :=
  fun _ _ _ run => passes_declaring (declaring_of_defineTypes run)

theorem returns_passes_importItems (moduleName : String) (items : List ImportItem) (span : Span)
    (env : Env) (values : List (String × Scheme)) :
    Returns (importItems moduleName items env values) fun result =>
      Passes (Declaration.imports moduleName items span).boundTypes env result.1 := by
  induction items generalizing env values with
  | nil => exact .pure (.refl env)
  | cons item rest ih =>
    cases item with
    | type decl =>
      refine .bind (returns_passes_defineTypes env [decl]) fun env₁ first => ?_
      exact (ih env₁ values).mono fun _ others => first.trans others
    | value name localName written => exact .after fun σ => .after fun _ => ih env _

theorem boundTypes_sublist (moduleName : String) (span : Span) {items items' : List ImportItem}
    (h : items.Sublist items') : (Declaration.imports moduleName items span).boundTypes.Sublist
      (Declaration.imports moduleName items' span).boundTypes := h.filterMap _

theorem boundTypes_append (moduleName : String) (items items' : List ImportItem) (span : Span) :
    (Declaration.imports moduleName (items ++ items') span).boundTypes =
      (Declaration.imports moduleName items span).boundTypes ++
        (Declaration.imports moduleName items' span).boundTypes := List.filterMap_append

theorem passes_entering {env env' : Env} {d : Declaration} {p : Progress}
    (h : Entering env p d env') : Passes d.boundTypes env env' := by
  cases h with
  | types declaring => exact passes_declaring declaring
  | @items moduleName before items span _ _ _ hbefore run =>
    have passes := returns_passes_importItems moduleName before span env [] _ _ _ run
    exact passes.mono (boundTypes_sublist moduleName span hbefore.sublist)
  | @item moduleName before decl items span _ _ _ _ hbefore run declaring =>
    have passes := returns_passes_importItems moduleName before span env [] _ _ _ run
    have sub := boundTypes_sublist moduleName span hbefore.sublist
    rw [boundTypes_append] at sub
    exact (passes.trans (passes_declaring declaring)).mono sub

theorem passes_bind (scope : Scope) (name : String) {b : Binding} (h : ∀ c, b ≠ .constructor c)
    (span : Span) : Passes [] scope.env (scope.bind name b span).env := by
  have single : ∀ v ∈ [(⟨name, b, span⟩ : Bound)], ∀ c, v.binding ≠ .constructor c :=
    List.forall_mem_singleton.2 h
  exact passes_bindAll scope single

theorem returns_passes_declaration (scope : Scope) (d : Declaration) :
    Returns (declaration scope d) fun scope' => Passes d.boundTypes scope.env scope'.env := by
  cases d with
  | value name written body recursive span =>
    exact .after fun σ => .after fun _ => .pure (passes_bind scope _ (by simp) span)
  | group bindings span =>
    refine .after fun schemes => (returns_declareGroup bindings schemes scope).mono ?_
    rintro _ rfl
    refine passes_bindAll scope ?_
    simp only [List.forall_mem_map]
    intro _ _ c same
    cases same
  | types decls span =>
    exact .bind (returns_passes_defineTypes scope.env decls) fun env passes =>
      .after fun _ => .pure passes
  | foreign name written foreignName span =>
    exact .after fun σ => .after fun _ => .pure (passes_bind scope _ (by simp) span)
  | imports moduleName items span =>
    refine .bind (returns_passes_importItems moduleName items span scope.env []) ?_
    rintro ⟨env, values⟩ passes
    have bound : values.foldl (fun scope value => scope.bind value.1 (.value value.2) span)
        { scope with env } = Scope.bindAll { scope with env }
          (values.map fun value => ⟨value.1, .value value.2, span⟩) := by
      simp [Scope.bindAll, List.foldl_map]
    refine .pure ?_
    rw [bound, ← List.append_nil (Declaration.boundTypes _)]
    refine passes.trans (passes_bindAll { scope with env } ?_)
    simp only [List.forall_mem_map]
    intro _ _ c same
    cases same

theorem passes_run (options : CheckOptions) (moduleName : String) (ds : List Declaration)
    (c : Checker) : Passes (ds.flatMap (·.boundTypes)) c.scope.env
      (Checker.run options moduleName c ds).scope.env := by
  induction ds generalizing c with
  | nil => exact .refl _
  | cons d rest ih =>
    have undone (names : List String) : Passes [] c.scope.env (c.scope.env.without names) :=
      fun _ _ defined => defined.without names
    rw [List.flatMap_cons]
    cases outcome : declaration c.scope d c.progress with
    | ok scope progress =>
      rw [Checker.run_ok outcome]
      exact (returns_passes_declaration c.scope d _ _ _ outcome).trans (ih { c with progress, scope })
    | error e p =>
      rw [Checker.run_error outcome]
      split
      · exact (undone _).mono (List.nil_sublist _)
      · have others := (undone d.boundValues).trans (ih (c.recover moduleName d e p))
        exact others.mono (List.sublist_append_right _ _)

/-- The names of types that the prelude or the module defines, as often as they are defined. -/
def Module.typeNames (m : Module) : List String :=
  Prelude.definitions.map (·.name) ++ m.declarations.flatMap (·.boundTypes)

theorem passes_reached {options : CheckOptions} {m : Module} {env : Env}
    (h : Reached options m env) : Passes m.typeNames .empty env := by
  have start : Passes (Prelude.definitions.map (·.name)) .empty Prelude.env := by
    rw [← List.append_nil (Prelude.definitions.map _)]
    exact (passes_defineAll .empty Prelude.definitions).trans (passes_extendAll _ Prelude.values)
  have between (before : List Declaration) :
      Passes (Prelude.definitions.map (·.name) ++ before.flatMap (·.boundTypes)) .empty
        (Checker.run options m.name .start before).scope.env :=
    start.trans (passes_run options m.name before .start)
  induction h with
  | between hbefore =>
    exact (between _).mono ((List.Sublist.refl _).append (hbefore.sublist.flatMap _))
  | @inside before d env hbefore entering =>
    refine ((between before).trans (passes_entering entering)).mono ?_
    rw [List.append_assoc]
    refine (List.Sublist.refl _).append ?_
    have sub := hbefore.sublist.flatMap (·.boundTypes)
    rwa [List.flatMap_append, List.flatMap_singleton] at sub
  | nested _ ih =>
    rw [← List.append_nil m.typeNames]
    exact ih.trans (passes_extendAll _ _)
  | final accepted =>
    rw [Checker.checkModule_eq] at accepted
    obtain ⟨-, -, henv, -⟩ := Checker.finish_ok accepted
    rw [henv]
    exact fun type count defined => (between m.declarations type count defined).applySubst _

/-- In every environment of a check, a constructor in scope is registered with its type, if the
prelude and the module define the type only once. -/
theorem registered_of_reached {options : CheckOptions} {m : Module} {env : Env}
    (h : Reached options m env) {name : String} {c : Constructor}
    (hc : env.lookup name = some (.constructor c)) (once : m.typeNames.count c.typeName ≤ 1) :
    env.Registered c := by
  have empty : Env.Defined c.typeName 0 .empty := .of_fresh (fun name c hc => by cases hc) 0
  have defined := passes_reached h c.typeName 0 empty
  exact defined.live (by simpa using once) name c hc rfl

/-! ## The environments of the history -/

theorem Progress.Steps.generalized {scopes : Env → Prop} {p q : Progress}
    (h : Progress.Steps scopes p q) {env : Env} {drawn : Nat} {schemes : List Scheme} {s : Subst}
    (mem : .generalized env drawn schemes s ∈ q.history) :
    .generalized env drawn schemes s ∈ p.history ∨ scopes env := by
  induction h with
  | refl => exact .inl mem
  | tail _ step ih =>
    cases step with
    | draw | log => exact ih mem
    | note henv =>
      rcases List.mem_cons.1 mem with heq | mem
      · obtain ⟨rfl, -⟩ := Milestone.generalized.inj heq
        exact .inr henv
      · exact ih mem
    | solve =>
      rcases List.mem_cons.1 mem with heq | mem
      · cases heq
      · exact ih mem

theorem generalized_of_run {scopes : Env → Prop} (nesting : Env.Nesting scopes)
    {options : CheckOptions} {moduleName : String} {ds : List Declaration} {c : Checker}
    (between : ∀ before, before <+: ds → scopes (Checker.run options moduleName c before).scope.env)
    {env : Env} {drawn : Nat} {schemes : List Scheme} {s : Subst}
    (mem : .generalized env drawn schemes s ∈ (Checker.run options moduleName c ds).progress.history) :
    .generalized env drawn schemes s ∈ c.progress.history ∨ scopes env := by
  induction ds generalizing c with
  | nil => exact .inl mem
  | cons d rest ih =>
    have stepwise := stepwise_declaration nesting (between [] List.nil_prefix) d
    have later {before : List Declaration} (h : before <+: rest) :=
      between (d :: before) (List.cons_prefix_cons.2 ⟨rfl, h⟩)
    cases outcome : declaration c.scope d c.progress with
    | ok scope progress =>
      rw [Checker.run_ok outcome] at mem
      rcases ih (fun before h => Checker.run_ok outcome before ▸ later h) mem with mem | found
      · exact (stepwise.ok outcome).generalized mem
      · exact .inr found
    | error e p =>
      have steps := stepwise.error outcome
      rw [Checker.run_error outcome] at mem
      split at mem
      · exact steps.generalized mem
      · rename_i continues
        have between' (before : List Declaration) (h : before <+: rest) :
            scopes (Checker.run options moduleName (c.recover moduleName d e p) before).scope.env := by
          have := later h
          rwa [Checker.run_error outcome, if_neg continues] at this
        rcases ih between' mem with mem | found
        · exact steps.generalized mem
        · exact .inr found

theorem reached_of_generalized {options : CheckOptions} {m : Module} {env : Env} {drawn : Nat}
    {schemes : List Scheme} {s : Subst}
    (mem : .generalized env drawn schemes s ∈
      (Checker.run options m.name .start m.declarations).progress.history) :
    Reached options m env := by
  rcases generalized_of_run (fun _ _ h => .nested h) (fun _ h => Reached.between h) mem with
    mem | reached
  · cases mem
  · exact reached

def stackModule : Module where
  -- type Stack = Empty | Push(Int, Stack);
  -- let top = (s) => match s { Empty => 0, Push(n, _) => n }
  name := "stack"
  declarations :=
    [.types [⟨⟨"Stack", {}⟩, [], .variant [(⟨"Empty", {}⟩, []),
       (⟨"Push", {}⟩, [.named "Int" [] {}, .named "Stack" [] {}])], {}⟩] {},
     .value ⟨"top", {}⟩ none (.lambda [⟨⟨"s", {}⟩, none⟩] (.case (.var ⟨"s", {}⟩)
       [⟨.constructor ⟨"Empty", {}⟩ [] {}, none, .literal (.int 0) {}, {}⟩,
        ⟨.constructor ⟨"Push", {}⟩ [.var ⟨"n", {}⟩, .wild {}] {}, none, .var ⟨"n", {}⟩, {}⟩] {}) {})
       false {}]

theorem registered_stackModule : ∃ typed c, (checkModule {} stackModule).1 = .ok typed ∧
    typed.env.lookup "Push" = some (.constructor c) ∧ stackModule.typeNames.count c.typeName ≤ 1 ∧
    typed.env.Registered c := by
  have found : (checkModule {} stackModule).1.toOption.any (fun typed =>
      (typed.env.constructor? "Push").any fun c => c.typeName == "Stack") = true := by cbv
  obtain ⟨typed, htyped, found⟩ := exists_ok_of_any found
  obtain ⟨c, hc, htype⟩ := (Option.any_eq_true _ _).1 found
  have lookup := Env.lookup_of_constructor? hc
  have once : stackModule.typeNames.count c.typeName ≤ 1 := by
    rw [beq_iff_eq.1 htype]
    decide
  exact ⟨typed, c, htyped, lookup, once, registered_of_reached (.final htyped) lookup once⟩

/-- `type Light = Red | Green; type Light = Off; let f = (x) => match x { Off => 0 }; let y = f(Red)` -/
def lightModule : Module where
  name := "light"
  declarations :=
    [.types [⟨⟨"Light", {}⟩, [], .variant [(⟨"Red", {}⟩, []), (⟨"Green", {}⟩, [])], {}⟩] {},
     .types [⟨⟨"Light", {}⟩, [], .variant [(⟨"Off", {}⟩, [])], {}⟩] {},
     .value ⟨"f", {}⟩ none (.lambda [⟨⟨"x", {}⟩, none⟩] (.case (.var ⟨"x", {}⟩)
       [⟨.constructor ⟨"Off", {}⟩ [] {}, none, .literal (.int 0) {}, {}⟩] {}) {}) false {},
     .value ⟨"y", {}⟩ none (.apply (.var ⟨"f", {}⟩) [.var ⟨"Red", {}⟩] {}) false {}]

/-- The module is accepted, and `Red` builds a value that the `match` on its type does not cover. -/
theorem unregistered_lightModule : ∃ typed c, (checkModule {} lightModule).1 = .ok typed ∧
    typed.env.lookup "Red" = some (.constructor c) ∧ ¬typed.env.Registered c := by
  have found : (checkModule {} lightModule).1.toOption.any (fun typed =>
      (typed.env.constructor? "Red").any fun c => c.name == "Red" &&
        (typed.env.definition? c.typeName).all fun d => d.constructors.all (·.name != "Red")) =
      true := by cbv
  obtain ⟨typed, htyped, found⟩ := exists_ok_of_any found
  obtain ⟨c, hc, facts⟩ := (Option.any_eq_true _ _).1 found
  obtain ⟨hname, others⟩ := Bool.and_eq_true_iff.1 facts
  refine ⟨typed, c, htyped, Env.lookup_of_constructor? hc, ?_⟩
  rintro ⟨d, alternatives, hd, -, hbody, mem⟩
  simp only [hd, Option.all_some, Definition.constructors, hbody, List.all_map, List.all_eq_true]
    at others
  have := others _ mem
  simp [beq_iff_eq.1 hname] at this

end Polytype
