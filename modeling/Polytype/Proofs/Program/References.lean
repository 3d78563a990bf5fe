import Polytype.Proofs.Program.Induction

namespace Polytype

mutual

def Expr.references : Expr → List String
  | .literal _ _ => []
  | .var name => [name.name]
  | .lambda _ body _ => body.references
  | .apply function args _ => function.references ++ referencesList args
  | .letIn _ _ value _ body _ => value.references ++ body.references
  | .letGroup bindings body _ => referencesGroup bindings ++ body.references
  | .cond condition thenBranch elseBranch _ =>
    condition.references ++ (thenBranch.references ++ elseBranch.references)
  | .block parts _ => referencesList parts
  | .case scrutinee arms _ => scrutinee.references ++ referencesArms arms
  | .record entries _ => referencesEntries entries
  | .update base fields _ => base.references ++ referencesInits fields
  | .field object _ _ => object.references
  | .tuple elements _ => referencesList elements
  | .list elements _ => referencesList elements
  | .makeRef value _ => value.references
  | .deref reference _ => reference.references
  | .assign target value _ => target.references ++ value.references
  | .binary _ left right _ => left.references ++ right.references
  | .unary _ operand _ => operand.references
  | .annotated expr _ _ => expr.references

def referencesList : List Expr → List String
  | [] => []
  | e :: es => e.references ++ referencesList es

def referencesGroup : List GroupBinding → List String
  | [] => []
  | ⟨_, _, value, _⟩ :: rest => value.references ++ referencesGroup rest

def referencesArms : List Arm → List String
  | [] => []
  | ⟨_, none, body, _⟩ :: rest => body.references ++ referencesArms rest
  | ⟨_, some guard, body, _⟩ :: rest =>
    guard.references ++ (body.references ++ referencesArms rest)

def referencesInits : List FieldInit → List String
  | [] => []
  | ⟨_, value, _⟩ :: rest => value.references ++ referencesInits rest

def referencesEntries : List Entry → List String
  | [] => []
  | .field ⟨_, value, _⟩ :: rest => value.references ++ referencesEntries rest
  | .spread base :: rest => base.references ++ referencesEntries rest

end

def Declaration.references : Declaration → List String
  | value _ _ body _ _ => body.references
  | group bindings _ => referencesGroup bindings
  | _ => []

/-! ## Programs that avoid names -/

def Expr.Avoids (hidden : List String) (e : Expr) : Prop := ∀ name ∈ e.references, name ∉ hidden

def Declaration.Avoids (hidden : List String) (d : Declaration) : Prop :=
  ∀ name ∈ d.references, name ∉ hidden

variable {hidden : List String}

theorem avoids_list {es : List Expr} (h : ∀ name ∈ referencesList es, name ∉ hidden) :
    ∀ e ∈ es, e.Avoids hidden := by
  induction es with
  | nil => simp
  | cons e es ih =>
    obtain ⟨first, rest⟩ := List.forall_mem_append.1 h
    exact List.forall_mem_cons.2 ⟨first, ih rest⟩

theorem avoids_group {bindings : List GroupBinding}
    (h : ∀ name ∈ referencesGroup bindings, name ∉ hidden) :
    ∀ b ∈ bindings, b.value.Avoids hidden := by
  induction bindings with
  | nil => simp
  | cons b bindings ih =>
    obtain ⟨name, written, value, span⟩ := b
    obtain ⟨first, rest⟩ := List.forall_mem_append.1 h
    exact List.forall_mem_cons.2 ⟨first, ih rest⟩

theorem avoids_arms {arms : List Arm} (h : ∀ name ∈ referencesArms arms, name ∉ hidden) :
    ∀ arm ∈ arms, arm.Each (Expr.Avoids hidden) := by
  induction arms with
  | nil => simp
  | cons arm arms ih =>
    obtain ⟨pattern, guard, body, span⟩ := arm
    cases guard with
    | none =>
      obtain ⟨first, rest⟩ := List.forall_mem_append.1 h
      exact List.forall_mem_cons.2 ⟨⟨by simp, first⟩, ih rest⟩
    | some guard =>
      obtain ⟨hguard, h⟩ := List.forall_mem_append.1 h
      obtain ⟨first, rest⟩ := List.forall_mem_append.1 h
      refine List.forall_mem_cons.2 ⟨⟨?_, first⟩, ih rest⟩
      intro e heq
      exact Option.some.inj heq ▸ hguard

theorem avoids_inits {inits : List FieldInit} (h : ∀ name ∈ referencesInits inits, name ∉ hidden) :
    ∀ init ∈ inits, init.value.Avoids hidden := by
  induction inits with
  | nil => simp
  | cons init inits ih =>
    obtain ⟨name, value, span⟩ := init
    obtain ⟨first, rest⟩ := List.forall_mem_append.1 h
    exact List.forall_mem_cons.2 ⟨first, ih rest⟩

theorem avoids_entries {entries : List Entry}
    (h : ∀ name ∈ referencesEntries entries, name ∉ hidden) :
    ∀ entry ∈ entries, entry.Each (Expr.Avoids hidden) := by
  induction entries with
  | nil => simp
  | cons entry entries ih =>
    cases entry with
    | field init =>
      obtain ⟨name, value, span⟩ := init
      obtain ⟨first, rest⟩ := List.forall_mem_append.1 h
      exact List.forall_mem_cons.2 ⟨first, ih rest⟩
    | spread base =>
      obtain ⟨first, rest⟩ := List.forall_mem_append.1 h
      exact List.forall_mem_cons.2 ⟨first, ih rest⟩

end Polytype
