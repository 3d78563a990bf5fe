import Polytype.Module.Check
import Polytype.Proofs.Assoc
import Polytype.Proofs.Inference.Run
import Polytype.Proofs.Ty.FreeVars

namespace Polytype

open Infer

/-! ## Names -/

namespace ImportItem

/-- The values that an item brings into scope, constructors aside. -/
def valueNames : ImportItem → List String
  | value name localName _ => [(localName.getD name).name]
  | type _ => []

def constructorNames : ImportItem → List String
  | value _ _ _ => []
  | type decl => decl.constructorNames

end ImportItem

namespace Declaration

/-- The values that a declaration brings into scope, constructors aside. -/
def valueNames : Declaration → List String
  | value name _ _ _ _ => [name.name]
  | group bindings _ => bindings.map (·.name.name)
  | types _ _ => []
  | foreign name _ _ _ => [name.name]
  | imports _ items _ => items.flatMap ImportItem.valueNames

def constructorNames : Declaration → List String
  | types decls _ => decls.flatMap TypeDecl.constructorNames
  | imports _ items _ => items.flatMap ImportItem.constructorNames
  | _ => []

theorem mem_boundValues {d : Declaration} {name : String} :
    name ∈ d.boundValues ↔ name ∈ d.valueNames ∨ name ∈ d.constructorNames := by
  cases d with
  | imports moduleName items span =>
    have split (item : ImportItem) : name ∈ item.boundValues ↔
        name ∈ item.valueNames ∨ name ∈ item.constructorNames := by
      cases item <;> simp [ImportItem.boundValues, ImportItem.valueNames, ImportItem.constructorNames]
    simp only [boundValues, valueNames, constructorNames, List.mem_flatMap, split]
    grind
  | _ => simp [boundValues, valueNames, constructorNames]

end Declaration

/-! ## Definitions -/

namespace Env

def defineAll (env : Env) (definitions : List Definition) : Env :=
  definitions.foldl Env.define env

theorem defineAll_append (env : Env) (definitions others : List Definition) :
    env.defineAll (definitions ++ others) = (env.defineAll definitions).defineAll others :=
  List.foldl_append

theorem mem_values_defineAll {env : Env} {definitions : List Definition} {entry : String × Binding}
    (h : entry ∈ (env.defineAll definitions).values) :
    entry ∈ env.values ∨ ∃ c, entry.2 = .constructor c := by
  induction definitions generalizing env with
  | nil => exact .inl h
  | cons d definitions ih =>
    rcases ih h with h | h
    · rcases Assoc.mem_of_mem_insertAll h with h | h
      · obtain ⟨c, -, rfl⟩ := List.mem_map.1 h
        exact .inr ⟨c, rfl⟩
      · exact .inl h
    · exact .inr h

theorem lookup_of_constructor? {env : Env} {name : String} {c : Constructor}
    (h : env.constructor? name = some c) : env.lookup name = some (.constructor c) := by
  unfold constructor? at h
  split at h
  · rename_i heq
    rw [heq, Option.some.inj h]
  · cases h

theorem lookup_define_some {env : Env} {d : Definition} {name : String} {b : Binding}
    (h : (env.define d).lookup name = some b) :
    (∃ c ∈ d.constructors, c.name = name ∧ b = .constructor c) ∨ env.lookup name = some b := by
  rcases Assoc.get?_insertAll_some h with mem | old
  · obtain ⟨c, hc, heq⟩ := List.mem_map.1 mem
    obtain ⟨rfl, rfl⟩ := Prod.mk.inj heq
    exact .inl ⟨c, hc, rfl, rfl⟩
  · exact .inr old

theorem lookup_defineAll_cases (env : Env) (definitions : List Definition) (name : String) :
    (∃ d ∈ definitions, ∃ c ∈ d.constructors, c.name = name ∧
      (env.defineAll definitions).lookup name = some (.constructor c)) ∨
    (∀ d ∈ definitions, ∀ c ∈ d.constructors, c.name ≠ name) ∧
      (env.defineAll definitions).lookup name = env.lookup name := by
  induction definitions generalizing env with
  | nil => exact .inr ⟨by simp, rfl⟩
  | cons d definitions ih =>
    rcases ih (env.define d) with ⟨last, mem, found⟩ | ⟨others, same⟩
    · exact .inl ⟨last, List.mem_cons_of_mem _ mem, found⟩
    · rcases Assoc.get?_insertAll_cases env.values
        (d.constructors.map fun c => (c.name, .constructor c)) name with
        ⟨entry, mem, heq, found⟩ | ⟨away, kept⟩
      · obtain ⟨c, hc, rfl⟩ := List.mem_map.1 mem
        exact .inl ⟨d, List.mem_cons_self, c, hc, heq, same.trans found⟩
      · refine .inr ⟨List.forall_mem_cons.2 ⟨fun c hc => ?_, others⟩, same.trans kept⟩
        exact away _ (List.mem_map_of_mem hc)

theorem lookup_defineAll_of_ne {env : Env} {definitions : List Definition} {name : String}
    (h : ∀ d ∈ definitions, ∀ c ∈ d.constructors, c.name ≠ name) :
    (env.defineAll definitions).lookup name = env.lookup name := by
  rcases lookup_defineAll_cases env definitions name with ⟨d, hd, c, hc, heq, -⟩ | ⟨-, same⟩
  · exact absurd heq (h d hd c hc)
  · exact same

theorem lookup_defineAll_ne_none {env : Env} (definitions : List Definition) {name : String}
    (h : env.lookup name ≠ none) : (env.defineAll definitions).lookup name ≠ none := by
  induction definitions generalizing env with
  | nil => exact h
  | cons d definitions ih => exact ih fun gone => h (Assoc.get?_insertAll_eq_none.1 gone).1

end Env

def Construct (definitions : List Definition) (names : List String) : Prop :=
  ∀ name ∈ names, ∃ d ∈ definitions, ∃ c ∈ d.constructors, c.name = name

theorem Construct.append {definitions others : List Definition} {names otherNames : List String}
    (h : Construct definitions names) (h' : Construct others otherNames) :
    Construct (definitions ++ others) (names ++ otherNames) := by
  refine List.forall_mem_append.2 ⟨fun name mem => ?_, fun name mem => ?_⟩
  · obtain ⟨d, hd, found⟩ := h name mem
    exact ⟨d, List.mem_append_left _ hd, found⟩
  · obtain ⟨d, hd, found⟩ := h' name mem
    exact ⟨d, List.mem_append_right _ hd, found⟩

structure TypeDecl.Declares (decl : TypeDecl) (d : Definition) : Prop where
  name : d.name = decl.name.name
  constructors : ∀ c ∈ d.constructors, c.name ∈ decl.constructorNames

namespace Infer

theorem returns_declareTypes (env : Env) (decls : List TypeDecl) :
    Returns (declareTypes env decls) fun result => result.2.map (·.1) = decls ∧
      ∃ definitions, result.1 = env.defineAll definitions ∧
        List.Forall₂ TypeDecl.Declares decls definitions ∧
        ∀ d ∈ definitions, d.constructors = [] := by
  induction decls generalizing env with
  | nil => exact .pure ⟨rfl, [], rfl, .nil, by simp⟩
  | cons decl rest ih =>
    refine .after fun params => .bind (ih _) ?_
    rintro ⟨scope, entries⟩ ⟨hentries, definitions, rfl, declares, abstract⟩
    refine .pure ⟨by simp [← hentries], _ :: definitions, rfl, .cons ⟨rfl, ?_⟩ declares, ?_⟩
    · simp [Definition.constructors]
    · exact List.forall_mem_cons.2 ⟨rfl, abstract⟩

theorem returns_alternativesOf (env : Env) (written : List (Ident × List TypeExpr)) :
    Returns (alternativesOf env written) fun found =>
      found.map (·.name) = written.map (·.1.name) := by
  induction written with
  | nil => exact .pure rfl
  | cons c rest ih => exact .after fun args => .bind ih fun found hfound => .pure (by simp [hfound])

theorem returns_bodyOf (env : Env) (decl : TypeDecl) :
    Returns (bodyOf env decl.body) fun body => ∀ params,
      (Definition.mk decl.name.name params body).constructors.map (·.name) =
        decl.constructorNames := by
  unfold TypeDecl.constructorNames
  cases decl.body with
  | synonym target => exact .after fun t => .pure fun params => rfl
  | record written => exact .after fun fields => .pure fun params => rfl
  | variant written =>
    refine .bind (returns_alternativesOf env written) fun found hfound => .pure fun params => ?_
    simp only [Definition.constructors, List.map_map, ← hfound]
    rfl

theorem returns_defineBodies (scope : Env) (entries : List (TypeDecl × List (String × TypeVar)))
    (env : Env) : Returns (defineBodies scope entries env) fun env' =>
      ∃ definitions, env' = env.defineAll definitions ∧
        List.Forall₂ TypeDecl.Declares (entries.map (·.1)) definitions ∧
        Construct definitions ((entries.map (·.1)).flatMap TypeDecl.constructorNames) := by
  induction entries generalizing env with
  | nil => exact .pure ⟨[], rfl, .nil, by simp [Construct]⟩
  | cons entry rest ih =>
    obtain ⟨decl, params⟩ := entry
    refine .bind (returns_resolving (returns_bodyOf scope decl)) fun body names => ?_
    refine (ih _).mono ?_
    rintro env' ⟨definitions, rfl, declares, constructs⟩
    refine ⟨_ :: definitions, rfl, .cons ⟨rfl, fun c hc => ?_⟩ declares, ?_⟩
    · rw [← names]
      exact List.mem_map_of_mem hc
    · have first : Construct [⟨decl.name.name, params.map (·.2), body⟩] decl.constructorNames := by
        intro name mem
        rw [← names (params.map (·.2))] at mem
        obtain ⟨c, hc, heq⟩ := List.mem_map.1 mem
        exact ⟨_, List.mem_singleton.2 rfl, c, hc, heq⟩
      exact first.append constructs

/-- What types bring into scope are definitions of types that are declared, with all their
constructors. -/
theorem returns_defineTypes (env : Env) (decls : List TypeDecl) :
    Returns (defineTypes env decls) fun env' => ∃ definitions, env' = env.defineAll definitions ∧
      (∀ d ∈ definitions, ∃ decl ∈ decls, decl.Declares d) ∧
      Construct definitions (decls.flatMap TypeDecl.constructorNames) := by
  have declared {decls : List TypeDecl} {definitions : List Definition}
      (h : List.Forall₂ TypeDecl.Declares decls definitions) :
      ∀ d ∈ definitions, ∃ decl ∈ decls, decl.Declares d := by
    induction h with
    | nil => simp
    | cons first _ ih =>
      refine List.forall_mem_cons.2 ⟨⟨_, List.mem_cons_self, first⟩, fun d hd => ?_⟩
      obtain ⟨decl, mem, declares⟩ := ih d hd
      exact ⟨decl, List.mem_cons_of_mem _ mem, declares⟩
  refine .bind (returns_declareTypes env decls) ?_
  rintro ⟨scope, entries⟩ ⟨rfl, named, rfl, hnamed, -⟩
  refine (returns_defineBodies _ entries _).mono ?_
  rintro env' ⟨defined, rfl, hdefined, constructs⟩
  refine ⟨named ++ defined, (Env.defineAll_append ..).symm, fun d hd => ?_, ?_⟩
  · rcases List.mem_append.1 hd with hd | hd
    · exact declared hnamed d hd
    · exact declared hdefined d hd
  · have announced : Construct named [] := by simp [Construct]
    exact announced.append constructs

end Infer

/-! ## Schemes -/

def Scheme.Tight (σ : Scheme) : Prop := ∀ v ∈ σ.vars, σ.ty.mentions v.id = true

theorem Scheme.tight_mono (t : Ty) : (Scheme.mono t).Tight := by simp [Tight, mono]

theorem tight_generalize (env : Env) (level : Nat) (t : Ty) (s : Subst) :
    (generalize env level t s).Tight := by
  intro v hv
  have mem : v ∈ (s.apply t).vars := Ty.mem_vars_of_mem_freeVars (List.mem_filter.1 hv).1
  exact List.any_eq_true.2 ⟨v, mem, by simp⟩

namespace Infer

theorem returns_tight_schemeOf (env : Env) (level : Nat) (t : Ty) (generalizable : Bool) :
    Returns (schemeOf env level t generalizable) Scheme.Tight := by
  refine .after fun s => ?_
  split
  · exact .after fun _ => .pure (tight_generalize env level t s)
  · exact .pure (Scheme.tight_mono _)

theorem returns_tight_settle (env : Env) (level : Nat) (name : Ident) (value : Expr) (bound : Ty) :
    Returns (settle env level name value bound) Scheme.Tight := by
  have quantified : Returns (do
      let σ ← schemeOf env level bound (value.isValue env)
      if !σ.isPolymorphic then
        lower level bound
      log (.inferred name.name σ)
      return σ) Scheme.Tight := by
    refine .bind (returns_tight_schemeOf env level bound _) fun σ tight => ?_
    split
    · exact .after fun _ => .after fun _ => .pure tight
    · exact .after fun _ => .pure tight
  unfold settle
  split
  · exact .after fun _ => quantified
  · exact quantified

theorem returns_tight_letScheme (env : Env) (level : Nat) (name : Ident) (expected : Option Ty)
    (value : Expr) (t : Ty) :
    Returns (letScheme env level name expected value t) Scheme.Tight := by
  cases expected with
  | none => exact returns_tight_settle env level name value t
  | some u => exact .after fun _ => returns_tight_settle env level name value u

theorem returns_tight_letBinding (env : Env) (level : Nat) (name : Ident)
    (written : Option TypeExpr) (value : Expr) (recursive : Bool) :
    Returns (letBinding env level name written value recursive) Scheme.Tight := by
  refine .after fun drawn => .after fun scope => .after fun t => ?_
  refine .bind (returns_tight_letScheme env level name _ value t) fun σ tight => ?_
  exact .after fun _ => .pure tight

theorem returns_tight_groupSchemes (env : Env) (level : Nat) (generalizable : Bool)
    {members : List GroupBinding} {types : List Ty} (h : types.length = members.length) :
    Returns (groupSchemes env level generalizable members types) fun schemes =>
      schemes.map (·.1) = members.map (·.name.name) ∧ ∀ entry ∈ schemes, entry.2.Tight := by
  induction members generalizing types with
  | nil => exact .pure ⟨rfl, by simp⟩
  | cons member members ih =>
    obtain ⟨t, types, rfl⟩ := List.exists_cons_of_length_eq_add_one h
    refine .bind (returns_tight_schemeOf env level t generalizable) fun σ tight => .after fun _ => ?_
    refine .bind (ih (by simpa using h)) ?_
    rintro schemes ⟨names, all⟩
    exact .pure ⟨by simp [names], List.forall_mem_cons.2 ⟨tight, all⟩⟩

theorem returns_tight_group (env : Env) (level : Nat) (bindings : List GroupBinding) :
    Returns (group env level bindings) fun schemes =>
      schemes.map (·.1) = bindings.map (·.name.name) ∧ ∀ entry ∈ schemes, entry.2.Tight := by
  refine .after fun drawn => .bind (returns_groupTypes env level bindings) fun types h => ?_
  refine .after fun _ => .bind ?_ fun schemes found => .after fun _ => .pure found
  have finish (generalizable : Bool) : Returns (do
      let schemes ← groupSchemes env level generalizable bindings types
      if !generalizable then
        lowerGroup level types
      return schemes) fun schemes =>
        schemes.map (·.1) = bindings.map (·.name.name) ∧ ∀ entry ∈ schemes, entry.2.Tight := by
    refine .bind (returns_tight_groupSchemes env level generalizable h) fun schemes found => ?_
    split
    · exact .after fun _ => .pure found
    · exact .pure found
  unfold finishGroup
  dsimp only
  split
  · exact .after fun _ => finish _
  · exact finish _

theorem returns_tight_signature (env : Env) (written : TypeExpr) :
    Returns (signature env written) Scheme.Tight :=
  .after fun t => .after fun _ => .pure (tight_generalize env 0 t .empty)

end Infer

/-! ## Values -/

structure Bound where
  name : String
  binding : Binding
  span : Span

/-- The value is no constructor, and its scheme is tight. -/
structure Bound.Proper (v : Bound) : Prop where
  value : ∀ c, v.binding ≠ .constructor c
  tight : v.binding.scheme.Tight

namespace Scope

def bindAll (scope : Scope) (values : List Bound) : Scope :=
  values.foldl (fun scope v => scope.bind v.name v.binding v.span) scope

def add (scope : Scope) (definitions : List Definition) (values : List Bound) : Scope :=
  { scope with env := scope.env.defineAll definitions }.bindAll values

def declared? (scope : Scope) (name : String) : Option Declared :=
  scope.declared.find? (·.name == name)

theorem declared?_bind (scope : Scope) (bound : String) (b : Binding) (span : Span)
    (name : String) : (scope.bind bound b span).declared? name =
      if bound = name then some ⟨bound, b.scheme, span⟩ else scope.declared? name := by
  unfold declared? bind
  rw [List.find?_append]
  by_cases h : bound = name
  · subst h
    have gone : (scope.declared.filter fun d => d.name ≠ bound).find? (·.name == bound) = none := by
      simp [List.find?_eq_none]
    rw [gone]
    simp
  · have kept : (scope.declared.filter fun d => d.name ≠ bound).find? (·.name == name) =
        scope.declared.find? (·.name == name) := by
      rw [List.find?_filter]
      congr 1
      funext d
      by_cases hd : d.name = name <;> simp [hd, Ne.symm h]
    rw [kept]
    simp [h]

theorem lookup_bind (scope : Scope) (bound : String) (b : Binding) (span : Span) (name : String) :
    (scope.bind bound b span).env.lookup name =
      if bound = name then some b else scope.env.lookup name :=
  Assoc.get?_insert ..

/-- A name that is bound has its last binding, also as a declared value; any other name stays as it
is. -/
theorem bindAll_cases (scope : Scope) (values : List Bound) (name : String) :
    (∃ v ∈ values, v.name = name ∧ (scope.bindAll values).env.lookup name = some v.binding ∧
      (scope.bindAll values).declared? name = some ⟨name, v.binding.scheme, v.span⟩) ∨
    (∀ v ∈ values, v.name ≠ name) ∧
      (scope.bindAll values).env.lookup name = scope.env.lookup name ∧
      (scope.bindAll values).declared? name = scope.declared? name := by
  induction values generalizing scope with
  | nil => exact .inr ⟨by simp, rfl, rfl⟩
  | cons v values ih =>
    rcases ih (scope.bind v.name v.binding v.span) with ⟨w, mem, rest⟩ | ⟨others, lookup, declared⟩
    · exact .inl ⟨w, List.mem_cons_of_mem _ mem, rest⟩
    · rw [lookup_bind] at lookup
      rw [declared?_bind] at declared
      by_cases h : v.name = name
      · rw [if_pos h] at lookup declared
        exact .inl ⟨v, List.mem_cons_self, h, lookup, h ▸ declared⟩
      · rw [if_neg h] at lookup declared
        exact .inr ⟨List.forall_mem_cons.2 ⟨h, others⟩, lookup, declared⟩

end Scope

structure Declaration.Brings (d : Declaration) (definitions : List Definition)
    (values : List Bound) : Prop where
  names : values.map (·.name) = d.valueNames
  proper : ∀ v ∈ values, v.Proper
  constructors : ∀ definition ∈ definitions, ∀ c ∈ definition.constructors,
    c.name ∈ d.constructorNames
  defined : Construct definitions d.constructorNames

namespace Infer

theorem returns_declareGroup (members : List GroupBinding) (schemes : List (String × Scheme))
    (scope : Scope) : Returns (declareGroup members schemes scope) fun scope' =>
      scope' = scope.bindAll ((members.zip schemes).map fun (member, entry) =>
        ⟨entry.1, .value entry.2, member.span⟩) := by
  induction members generalizing schemes scope with
  | nil => exact .pure rfl
  | cons member members ih =>
    cases schemes with
    | nil => exact .pure rfl
    | cons entry schemes => exact .after fun _ => ih schemes _

theorem returns_importItems (moduleName : String) (items : List ImportItem) (env : Env)
    (values : List (String × Scheme)) :
    Returns (importItems moduleName items env values) fun result => ∃ definitions new,
      result = (env.defineAll definitions, values ++ new) ∧
      new.map (·.1) = items.flatMap ImportItem.valueNames ∧ (∀ entry ∈ new, entry.2.Tight) ∧
      (∀ d ∈ definitions, ∀ c ∈ d.constructors,
        c.name ∈ items.flatMap ImportItem.constructorNames) ∧
      Construct definitions (items.flatMap ImportItem.constructorNames) := by
  induction items generalizing env values with
  | nil =>
    exact .pure ⟨[], [], by simp [Env.defineAll], rfl, by simp, by simp, by simp [Construct]⟩
  | cons item rest ih =>
    cases item with
    | type decl =>
      refine .bind (returns_defineTypes env [decl]) ?_
      rintro _ ⟨first, rfl, hfirst, constructs⟩
      refine (ih _ _).mono ?_
      rintro _ ⟨definitions, new, rfl, names, tight, hrest, others⟩
      refine ⟨first ++ definitions, new, by rw [Env.defineAll_append], ?_, tight, ?_, ?_⟩
      · simpa [ImportItem.valueNames] using names
      · intro d hd c hc
        rw [List.flatMap_cons, List.mem_append]
        rcases List.mem_append.1 hd with hd | hd
        · obtain ⟨_, mem, declares⟩ := hfirst d hd
          obtain rfl := List.mem_singleton.1 mem
          exact .inl (declares.constructors c hc)
        · exact .inr (hrest d hd c hc)
      · rw [List.flatMap_singleton] at constructs
        exact constructs.append others
    | value name localName written =>
      refine .bind (returns_tight_signature env written) fun σ hσ => .after fun _ => ?_
      refine (ih _ _).mono ?_
      rintro _ ⟨definitions, new, rfl, names, tight, hrest, constructs⟩
      refine ⟨definitions, (_, σ) :: new, by rw [List.append_assoc]; rfl, ?_, ?_, ?_, constructs⟩
      · simp [ImportItem.valueNames, names]
      · exact List.forall_mem_cons.2 ⟨hσ, tight⟩
      · simpa [ImportItem.constructorNames] using hrest

theorem proper_value {σ : Scheme} (h : σ.Tight) (name : String) (span : Span) :
    Bound.Proper ⟨name, .value σ, span⟩ := ⟨nofun, h⟩

theorem returns_declaration (scope : Scope) (d : Declaration) :
    Returns (declaration scope d) fun scope' =>
      ∃ definitions values, d.Brings definitions values ∧ scope' = scope.add definitions values := by
  have nothing : Construct [] [] := by simp [Construct]
  cases d with
  | value name written body recursive span =>
    refine .bind (returns_tight_letBinding scope.env 0 name written body recursive) fun σ hσ => ?_
    refine .after fun _ => .pure ⟨[], [⟨name.name, .value σ, span⟩], ⟨rfl, ?_, by simp, nothing⟩, rfl⟩
    exact List.forall_mem_singleton.2 (proper_value hσ _ _)
  | group bindings span =>
    refine .bind (returns_tight_group scope.env 0 bindings) ?_
    rintro schemes ⟨names, tight⟩
    have lengths : schemes.length = bindings.length := by simpa using congrArg List.length names
    refine (returns_declareGroup bindings schemes scope).mono ?_
    rintro _ rfl
    refine ⟨[], _, ⟨?_, ?_, by simp, nothing⟩, rfl⟩
    · have second : (bindings.zip schemes).map (·.2) = schemes :=
        List.map_snd_zip (Nat.le_of_eq lengths)
      rw [← second, List.map_map] at names
      rwa [List.map_map]
    · simp only [List.forall_mem_map]
      exact fun pair mem => proper_value (tight _ (List.of_mem_zip mem).2) _ _
  | types decls span =>
    refine .bind (returns_defineTypes scope.env decls) ?_
    rintro _ ⟨definitions, rfl, declared, defined⟩
    refine .after fun _ => .pure ⟨definitions, [], ⟨rfl, by simp, fun d hd c hc => ?_, defined⟩, rfl⟩
    obtain ⟨decl, mem, declares⟩ := declared d hd
    exact List.mem_flatMap.2 ⟨decl, mem, declares.constructors c hc⟩
  | foreign name written foreignName span =>
    refine .bind (returns_tight_signature scope.env written) fun σ hσ => .after fun _ => ?_
    refine .pure ⟨[], [⟨name.name, .foreign σ foreignName, span⟩], ⟨rfl, ?_, by simp, nothing⟩, rfl⟩
    exact List.forall_mem_singleton.2 ⟨nofun, hσ⟩
  | imports moduleName items span =>
    refine .bind (returns_importItems moduleName items scope.env []) ?_
    rintro _ ⟨definitions, new, rfl, names, tight, constructors, defined⟩
    refine .pure ⟨definitions, new.map fun entry => ⟨entry.1, .value entry.2, span⟩,
      ⟨?_, ?_, constructors, defined⟩, ?_⟩
    · rwa [List.map_map]
    · simp only [List.forall_mem_map]
      exact fun entry mem => proper_value (tight entry mem) _ _
    · simp [Scope.add, Scope.bindAll, List.foldl_map]

end Infer

/-! ## Names after a declaration -/

namespace Scope

variable {d : Declaration} {definitions : List Definition} {values : List Bound}
  (brings : d.Brings definitions values)

include brings

theorem mem_valueNames {name : String} :
    name ∈ d.valueNames ↔ ∃ v ∈ values, v.name = name := by
  rw [← brings.names, List.mem_map]

theorem add_cases (scope : Scope) (name : String) :
    (∃ v ∈ values, v.name = name ∧ (scope.add definitions values).env.lookup name = some v.binding ∧
      (scope.add definitions values).declared? name = some ⟨name, v.binding.scheme, v.span⟩) ∨
    name ∉ d.valueNames ∧
      (scope.add definitions values).env.lookup name = (scope.env.defineAll definitions).lookup name ∧
      (scope.add definitions values).declared? name = scope.declared? name := by
  refine (bindAll_cases { scope with env := scope.env.defineAll definitions } values name).imp_right ?_
  rintro ⟨others, same⟩
  refine ⟨fun mem => ?_, same⟩
  obtain ⟨v, mem, h⟩ := (mem_valueNames brings).1 mem
  exact others v mem h

end Scope

end Polytype
