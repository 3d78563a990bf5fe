import Polytype.Program.Declaration

namespace Polytype

structure Needs where
  values : List String := []
  constructors : List String := []

namespace Needs

instance : Append Needs := ⟨fun a b => ⟨a.values ++ b.values, a.constructors ++ b.constructors⟩⟩

def outside (needs : Needs) (names : List String) : Needs :=
  { needs with values := needs.values.filter fun name => name ∉ names }

end Needs

/-! ## Patterns -/

namespace Pattern

mutual

def nodes : Pattern → List Pattern
  | wild span => [wild span]
  | var name => [var name]
  | literal value span => [literal value span]
  | constructor name args span => constructor name args span :: nodesList args
  | record fields span => record fields span :: nodesFields fields
  | tuple elements span => tuple elements span :: nodesList elements
  | list elements none span => list elements none span :: nodesList elements
  | list elements (some rest) span =>
    list elements (some rest) span :: (nodesList elements ++ rest.nodes)
  | either alternatives span => either alternatives span :: nodesList alternatives

def nodesList : List Pattern → List Pattern
  | [] => []
  | p :: ps => p.nodes ++ nodesList ps

def nodesFields : List FieldPattern → List Pattern
  | [] => []
  | ⟨_, p, _⟩ :: rest => p.nodes ++ nodesFields rest

end

def bound? : Pattern → Option String
  | var name => some name.name
  | _ => none

def constructorName? : Pattern → Option String
  | constructor name _ _ => some name.name
  | _ => none

/-- The names that a pattern binds. -/
def binders (p : Pattern) : List String := p.nodes.filterMap bound?

def constructorNames (p : Pattern) : List String := p.nodes.filterMap constructorName?

end Pattern

/-! ## Expressions -/

mutual

/-- What an expression needs from its scope. -/
def Expr.needs : Expr → Needs
  | .literal _ _ => {}
  | .var name => { values := [name.name] }
  | .lambda params body _ => body.needs.outside (params.map (·.name.name))
  | .apply function args _ => function.needs ++ needsList args
  | .letIn name _ value recursive body _ =>
    value.needs.outside (if recursive then [name.name] else []) ++ body.needs.outside [name.name]
  | .letGroup bindings body _ =>
    (needsGroup bindings ++ body.needs).outside (bindings.map (·.name.name))
  | .cond condition thenBranch elseBranch _ =>
    condition.needs ++ (thenBranch.needs ++ elseBranch.needs)
  | .block parts _ => needsList parts
  | .case scrutinee arms _ => scrutinee.needs ++ needsArms arms
  | .record entries _ => needsEntries entries
  | .update base fields _ => base.needs ++ needsInits fields
  | .field object _ _ => object.needs
  | .tuple elements _ => needsList elements
  | .list elements _ => needsList elements
  | .makeRef value _ => value.needs
  | .deref reference _ => reference.needs
  | .assign target value _ => target.needs ++ value.needs
  | .binary _ left right _ => left.needs ++ right.needs
  | .unary _ operand _ => operand.needs
  | .annotated expr _ _ => expr.needs

@[inherit_doc Expr.needs]
def needsList : List Expr → Needs
  | [] => {}
  | e :: es => e.needs ++ needsList es

@[inherit_doc Expr.needs]
def needsGroup : List GroupBinding → Needs
  | [] => {}
  | ⟨_, _, value, _⟩ :: rest => value.needs ++ needsGroup rest

@[inherit_doc Expr.needs]
def needsArms : List Arm → Needs
  | [] => {}
  | ⟨p, none, body, _⟩ :: rest =>
    { constructors := p.constructorNames } ++ (body.needs.outside p.binders ++ needsArms rest)
  | ⟨p, some guard, body, _⟩ :: rest =>
    { constructors := p.constructorNames } ++
      ((guard.needs ++ body.needs).outside p.binders ++ needsArms rest)

@[inherit_doc Expr.needs]
def needsInits : List FieldInit → Needs
  | [] => {}
  | ⟨_, value, _⟩ :: rest => value.needs ++ needsInits rest

@[inherit_doc Expr.needs]
def needsEntries : List Entry → Needs
  | [] => {}
  | .field ⟨_, value, _⟩ :: rest => value.needs ++ needsEntries rest
  | .spread base :: rest => base.needs ++ needsEntries rest

end

theorem needsGroup_eq (bindings : List GroupBinding) :
    needsGroup bindings = needsList (bindings.map (·.value)) := by
  induction bindings with
  | nil => rw [needsGroup, List.map_nil, needsList]
  | cons b bindings ih =>
    obtain ⟨name, written, value, span⟩ := b
    rw [needsGroup, ih, List.map_cons, needsList]

/-- What a declaration needs from the declarations before it. -/
def Declaration.needs : Declaration → Needs
  | value name _ body recursive _ => body.needs.outside (if recursive then [name.name] else [])
  | group bindings _ => (needsGroup bindings).outside (bindings.map (·.name.name))
  | _ => {}

end Polytype
