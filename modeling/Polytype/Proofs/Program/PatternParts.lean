import Polytype.Proofs.Program.Needs

namespace Polytype.Pattern

/-- The patterns that a pattern is directly made of. -/
def parts : Pattern → List Pattern
  | constructor _ args _ => args
  | record fields _ => fields.map (·.pattern)
  | tuple elements _ => elements
  | list elements rest _ => elements ++ rest.toList
  | either alternatives _ => alternatives
  | _ => []

theorem mem_nodesList {ps : List Pattern} {node : Pattern} :
    node ∈ nodesList ps ↔ ∃ p ∈ ps, node ∈ p.nodes := by
  induction ps with
  | nil => simp [nodesList]
  | cons p ps ih => simp [nodesList, ih]

theorem nodesFields_eq (fields : List FieldPattern) :
    nodesFields fields = nodesList (fields.map (·.pattern)) := by
  induction fields with
  | nil => rfl
  | cons field rest ih =>
    obtain ⟨name, p, span⟩ := field
    simp [nodesFields, nodesList, ih]

theorem nodesList_append (ps qs : List Pattern) :
    nodesList (ps ++ qs) = nodesList ps ++ nodesList qs := by
  induction ps with
  | nil => rfl
  | cons p ps ih => simp [nodesList, ih]

theorem nodes_eq (p : Pattern) : p.nodes = p :: nodesList p.parts := by
  cases p with
  | wild span | var name | literal value span => rfl
  | constructor name args span => rfl
  | record fields span => rw [nodes, nodesFields_eq, parts]
  | tuple elements span => rfl
  | list elements rest span =>
    cases rest with
    | none => simp [nodes, parts]
    | some rest => simp [nodes, parts, nodesList_append, nodesList]
  | either alternatives span => rfl

variable {p : Pattern}

theorem mem_nodes {node : Pattern} : node ∈ p.nodes ↔ node = p ∨ ∃ q ∈ p.parts, node ∈ q.nodes := by
  rw [nodes_eq, List.mem_cons, mem_nodesList]

theorem mem_binders (unnamed : p.bound? = none) {name : String} :
    name ∈ p.binders ↔ ∃ q ∈ p.parts, name ∈ q.binders := by
  simp only [binders, List.mem_filterMap, @mem_nodes p]
  constructor
  · rintro ⟨node, rfl | ⟨q, hq, hnode⟩, heq⟩
    · simp [unnamed] at heq
    · exact ⟨q, hq, node, hnode, heq⟩
  · rintro ⟨q, hq, node, hnode, heq⟩
    exact ⟨node, .inr ⟨q, hq, hnode⟩, heq⟩

end Polytype.Pattern
