import Mathlib
import Polytype.Inference.Pattern
import Polytype.Proofs.Coverage.Exhaustive
import Polytype.Proofs.Inference.Run
import Polytype.Proofs.Program.Induction
import Polytype.Proofs.Program.PatternParts

namespace Polytype

/-- The value that a literal stands for. -/
def Literal.value : Literal → Value
  | int value => .int value
  | float value => .float value
  | string value => .string value
  | bool value => .bool value
  | unit => .unit

namespace Value

/-- The list of the elements with the rest after them. -/
def listOf (elements : List Value) (rest : Value) : Value := elements.foldr cons rest

end Value

namespace Pattern

/-- The values that a pattern matches. Literals match themselves, floats bit for bit. -/
inductive Matches : Pattern → Value → Prop
  | wild {span v} : Matches (wild span) v
  | var {name v} : Matches (var name) v
  | literal {value span} : Matches (literal value span) value.value
  | constructor {name args span parts} (matching : List.Forall₂ Matches args parts) :
    Matches (constructor name args span) (.constructor name.name parts)
  | record {fields span parts}
    (present : ∀ field ∈ fields, (Assoc.get? parts field.name).isSome)
    (matching : ∀ field ∈ fields, ∀ part, Assoc.get? parts field.name = some part →
      Matches field.pattern part) :
    Matches (record fields span) (.record parts)
  | tuple {elements span parts} (matching : List.Forall₂ Matches elements parts) :
    Matches (tuple elements span) (.tuple parts)
  | list {elements span parts} (matching : List.Forall₂ Matches elements parts) :
    Matches (list elements none span) (.listOf parts .nil)
  | listRest {elements rest span parts tail} (matching : List.Forall₂ Matches elements parts)
    (following : Matches rest tail) :
    Matches (list elements (some rest) span) (.listOf parts tail)
  | either {alternatives span p v} (mem : p ∈ alternatives) (matching : Matches p v) :
    Matches (either alternatives span) v

/-- No record pattern lists a field twice. -/
def DistinctFields (p : Pattern) : Prop :=
  ∀ fields span, record fields span ∈ p.nodes → (fields.map (·.name)).Nodup

end Pattern

/-! ## Views of values -/

namespace Value

variable {v : Value} {parts : List Value}

theorem view_eq_literal {value : Literal} :
    v.view = some (.ofLiteral value, parts) ↔ v = value.value ∧ parts = [] := by
  cases value <;> cases v <;> simp [view, Head.ofLiteral, Literal.value, eq_comm]

theorem view_eq_variant {name : String} :
    v.view = some (.variant name, parts) ↔ v = .constructor name parts := by
  cases v <;> simp [view]

theorem view_eq_tuple {arity : Nat} :
    v.view = some (.tuple arity, parts) ↔ v = .tuple parts ∧ parts.length = arity := by
  cases v with
  | tuple elements =>
    simp only [view, Option.some.injEq, Prod.mk.injEq, Head.tuple.injEq, Value.tuple.injEq]
    constructor
    · rintro ⟨rfl, rfl⟩
      exact ⟨rfl, rfl⟩
    · rintro ⟨rfl, rfl⟩
      exact ⟨rfl, rfl⟩
  | _ => simp [view]

theorem view_eq_nil : v.view = some (.nil, parts) ↔ v = .nil ∧ parts = [] := by
  cases v <;> simp [view, eq_comm]

theorem view_eq_cons : v.view = some (.cons, parts) ↔ ∃ head tail, v = .cons head tail ∧
    parts = [head, tail] := by
  cases v <;> simp [view, eq_comm]

end Value

/-! ## What patterns without names accept -/

namespace Pat

theorem lowerList_eq (ps : List Pattern) : lowerList ps = ps.map lower := by
  induction ps with
  | nil => rfl
  | cons p ps ih => rw [lowerList, ih, List.map_cons]

theorem lowerFields_eq (fields : List FieldPattern) :
    lowerFields fields = fields.map fun field => (field.name, lower field.pattern) := by
  induction fields with
  | nil => rfl
  | cons field rest ih =>
    obtain ⟨name, p, span⟩ := field
    rw [lowerFields, ih, List.map_cons]

theorem acceptsAll_iff {ps : List Pat} {vs : List Value} :
    acceptsAll ps vs = true ↔ List.Forall₂ (fun p v => p.accepts v = true) ps vs := by
  induction ps generalizing vs with
  | nil => cases vs <;> simp [acceptsAll]
  | cons p ps ih => cases vs <;> simp [acceptsAll, ih]

theorem acceptsSome_iff {ps : List Pat} {v : Value} :
    acceptsSome ps v = true ↔ ∃ p ∈ ps, p.accepts v = true := by
  induction ps with
  | nil => simp [acceptsSome]
  | cons p ps ih => simp [acceptsSome, ih]

theorem acceptsFields_iff {fields : List (String × Pat)} {parts : List (String × Value)} :
    acceptsFields fields parts = true ↔
      ∀ field ∈ fields, ∃ part, Assoc.get? parts field.1 = some part ∧
        field.2.accepts part = true := by
  induction fields with
  | nil => simp [acceptsFields]
  | cons field rest ih =>
    obtain ⟨name, p⟩ := field
    rw [acceptsFields, Bool.and_eq_true, ih, List.forall_mem_cons]
    cases Assoc.get? parts name <;> simp

theorem accepts_node {head : Head} {args : List Pat} {v : Value} :
    (node head args).accepts v = true ↔ ∃ parts, v.view = some (head, parts) ∧
      List.Forall₂ (fun p part => p.accepts part = true) args parts := by
  simp only [← acceptsAll_iff, accepts]
  cases hview : v.view with
  | none => simp
  | some shown =>
    obtain ⟨other, parts⟩ := shown
    simp only [Bool.and_eq_true, decide_eq_true_eq, Option.some.injEq, Prod.mk.injEq]
    constructor
    · rintro ⟨rfl, accepted⟩
      exact ⟨parts, ⟨rfl, rfl⟩, accepted⟩
    · rintro ⟨given, ⟨rfl, rfl⟩, accepted⟩
      exact ⟨rfl, accepted⟩

theorem accepts_record {fields : List (String × Pat)} {v : Value} :
    (record fields).accepts v = true ↔ ∃ parts, v = .record parts ∧ ∀ field ∈ fields,
      ∃ part, Assoc.get? parts field.1 = some part ∧ field.2.accepts part = true := by
  cases v <;> simp [accepts, acceptsFields_iff]

theorem accepts_listOf {elements : List Pat} {rest : Pat} {v : Value} :
    (listOf elements rest).accepts v = true ↔ ∃ parts tail, v = .listOf parts tail ∧
      List.Forall₂ (fun p part => p.accepts part = true) elements parts ∧
      rest.accepts tail = true := by
  induction elements generalizing v with
  | nil => simp [listOf, Value.listOf]
  | cons p elements ih =>
    have unfolded : listOf (p :: elements) rest = node .cons [p, listOf elements rest] := rfl
    rw [unfolded, accepts_node]
    constructor
    · rintro ⟨parts, view, accepted⟩
      obtain ⟨head, tail, rfl, rfl⟩ := Value.view_eq_cons.1 view
      obtain ⟨first, others⟩ := List.forall₂_cons.1 accepted
      obtain ⟨parts, last, rfl, each, following⟩ := ih.1 (List.forall₂_cons.1 others).1
      exact ⟨head :: parts, last, rfl, .cons first each, following⟩
    · rintro ⟨parts, tail, rfl, each, following⟩
      obtain ⟨head, others, first, others_each, rfl⟩ := List.forall₂_cons_left_iff.1 each
      refine ⟨[head, .listOf others tail], Value.view_eq_cons.2 ⟨_, _, rfl, rfl⟩, .cons first ?_⟩
      exact .cons (ih.2 ⟨others, tail, rfl, others_each, following⟩) .nil

theorem accepts_lowerList {ps : List Pattern} {parts : List Value} :
    List.Forall₂ (fun p part => p.accepts part = true) (lowerList ps) parts ↔
      List.Forall₂ (fun p part => (lower p).accepts part = true) ps parts := by
  rw [lowerList_eq, List.forall₂_map_left_iff]

theorem mem_lowerFields {fields : List FieldPattern} (distinct : (fields.map (·.name)).Nodup)
    {field : FieldPattern} (h : field ∈ fields) :
    (field.name, lower field.pattern) ∈ Assoc.ofList (lowerFields fields) := by
  have listed : (field.name, lower field.pattern) ∈ lowerFields fields := by
    rw [lowerFields_eq]
    exact List.mem_map_of_mem h
  have keys : (Assoc.keys (lowerFields fields)).Nodup := by
    rw [lowerFields_eq, Assoc.keys, List.map_map]
    exact distinct
  rcases Assoc.get?_insertAll_cases [] (lowerFields fields) field.name with
    ⟨entry, mem, heq, found⟩ | ⟨others, -⟩
  · have first := Assoc.get?_of_mem keys mem
    have second := Assoc.get?_of_mem keys listed
    rw [heq, second] at first
    exact Assoc.mem_of_get? (found.trans first.symm)
  · exact absurd rfl (others _ listed)

end Pat

/-! ## Matching and accepting -/

theorem forall₂_of_mem {α β : Type} {R S : α → β → Prop} {as : List α} {bs : List β}
    (imp : ∀ a ∈ as, ∀ b, R a b → S a b) (h : List.Forall₂ R as bs) : List.Forall₂ S as bs := by
  induction h with
  | nil => exact .nil
  | cons first _ ih =>
    obtain ⟨head, rest⟩ := List.forall_mem_cons.1 imp
    exact .cons (head _ first) (ih rest)

open Pat

theorem accepts_lower_of_matches {p : Pattern} {v : Value} (h : p.Matches v) :
    (lower p).accepts v = true := by
  induction p using Pattern.induct generalizing v with
  | wild span => rfl
  | var name => rfl
  | literal value span =>
    cases h
    rw [lower, accepts_node]
    exact ⟨[], Value.view_eq_literal.2 ⟨rfl, rfl⟩, .nil⟩
  | constructor name args span ih =>
    cases h with
    | constructor matching =>
      rw [lower, accepts_node]
      refine ⟨_, Value.view_eq_variant.2 rfl, accepts_lowerList.2 ?_⟩
      exact forall₂_of_mem (fun p hp v => ih p hp) matching
  | record fields span ih =>
    cases h with
    | record present matching =>
      rw [lower, accepts_record]
      refine ⟨_, rfl, fun entry mem => ?_⟩
      rcases Assoc.mem_of_mem_insertAll mem with mem | mem
      · rw [lowerFields_eq] at mem
        obtain ⟨field, hfield, rfl⟩ := List.mem_map.1 mem
        obtain ⟨part, found⟩ := Option.isSome_iff_exists.1 (present field hfield)
        exact ⟨part, found, ih field hfield (matching field hfield part found)⟩
      · simp at mem
  | tuple elements span ih =>
    cases h with
    | tuple matching =>
      rw [lower, accepts_node]
      refine ⟨_, Value.view_eq_tuple.2 ⟨rfl, matching.length_eq.symm⟩, accepts_lowerList.2 ?_⟩
      exact forall₂_of_mem (fun p hp v => ih p hp) matching
  | list elements rest span ihElements ihRest =>
    cases h with
    | list matching =>
      rw [lower, accepts_listOf]
      refine ⟨_, _, rfl, accepts_lowerList.2 ?_, accepts_node.2 ⟨[], rfl, .nil⟩⟩
      exact forall₂_of_mem (fun p hp v => ihElements p hp) matching
    | listRest matching following =>
      rw [lower, accepts_listOf]
      refine ⟨_, _, rfl, accepts_lowerList.2 ?_, ihRest _ rfl following⟩
      exact forall₂_of_mem (fun p hp v => ihElements p hp) matching
  | either alternatives span ih =>
    cases h with
    | either mem matching =>
      rw [lower, accepts, acceptsSome_iff, lowerList_eq]
      exact ⟨_, List.mem_map_of_mem mem, ih _ mem matching⟩

theorem Pattern.DistinctFields.part {p q : Pattern} (h : p.DistinctFields) (hq : q ∈ p.parts) :
    q.DistinctFields :=
  fun fields span hnode => h fields span (Pattern.mem_nodes.2 (.inr ⟨q, hq, hnode⟩))

theorem matches_of_accepts_lower {p : Pattern} (distinct : p.DistinctFields) {v : Value}
    (h : (lower p).accepts v = true) : p.Matches v := by
  induction p using Pattern.induct generalizing v with
  | wild span => exact .wild
  | var name => exact .var
  | literal value span =>
    rw [lower, accepts_node] at h
    obtain ⟨parts, view, -⟩ := h
    obtain ⟨rfl, -⟩ := Value.view_eq_literal.1 view
    exact .literal
  | constructor name args span ih =>
    rw [lower, accepts_node] at h
    obtain ⟨parts, view, accepted⟩ := h
    obtain rfl := Value.view_eq_variant.1 view
    refine .constructor (forall₂_of_mem (fun p hp v => ?_) (accepts_lowerList.1 accepted))
    exact ih p hp (distinct.part hp)
  | record fields span ih =>
    rw [lower, accepts_record] at h
    obtain ⟨parts, rfl, accepted⟩ := h
    -- Were a field listed twice, its last pattern alone would be kept.
    have kept (field : FieldPattern) (hfield : field ∈ fields) := accepted _
      (mem_lowerFields (distinct fields span (Pattern.mem_nodes.2 (.inl rfl))) hfield)
    refine .record (fun field hfield => ?_) fun field hfield part found => ?_
    · obtain ⟨part, found, -⟩ := kept field hfield
      simp [found]
    · obtain ⟨given, found', matching⟩ := kept field hfield
      obtain rfl : given = part := Option.some.inj (found'.symm.trans found)
      exact ih field hfield (distinct.part (List.mem_map_of_mem hfield)) matching
  | tuple elements span ih =>
    rw [lower, accepts_node] at h
    obtain ⟨parts, view, accepted⟩ := h
    obtain ⟨rfl, -⟩ := Value.view_eq_tuple.1 view
    refine .tuple (forall₂_of_mem (fun p hp v => ?_) (accepts_lowerList.1 accepted))
    exact ih p hp (distinct.part hp)
  | list elements rest span ihElements ihRest =>
    have inside {parts : List Value}
        (h : List.Forall₂ (fun p part => (lower p).accepts part = true) elements parts) :
        List.Forall₂ Pattern.Matches elements parts :=
      forall₂_of_mem (fun p hp v => ihElements p hp (distinct.part (List.mem_append_left _ hp))) h
    cases rest with
    | none =>
      rw [lower, accepts_listOf] at h
      obtain ⟨parts, tail, rfl, accepted, following⟩ := h
      obtain ⟨none, view, -⟩ := accepts_node.1 following
      obtain ⟨rfl, -⟩ := Value.view_eq_nil.1 view
      exact .list (inside (accepts_lowerList.1 accepted))
    | some rest =>
      rw [lower, accepts_listOf] at h
      obtain ⟨parts, tail, rfl, accepted, following⟩ := h
      refine .listRest (inside (accepts_lowerList.1 accepted)) ?_
      exact ihRest rest rfl (distinct.part (by simp [Pattern.parts])) following
  | either alternatives span ih =>
    rw [lower, accepts, acceptsSome_iff, lowerList_eq] at h
    obtain ⟨lowered, mem, accepted⟩ := h
    obtain ⟨p, hp, rfl⟩ := List.mem_map.1 mem
    exact .either hp (ih p hp (distinct.part hp) accepted)

/-- What a pattern matches it accepts without its names, and if it lists no field twice, it accepts
nothing else. -/
theorem accepts_lower_iff (p : Pattern) (v : Value) :
    (p.Matches v → (lower p).accepts v = true) ∧
      (p.DistinctFields → ((lower p).accepts v = true ↔ p.Matches v)) :=
  ⟨accepts_lower_of_matches,
    fun distinct => ⟨matches_of_accepts_lower distinct, accepts_lower_of_matches⟩⟩

namespace Coverage

/-- `[{ on: true, size: n }, ..rest]` -/
def lampsOn : Pattern :=
  .list [.record [⟨"on", .literal (.bool true) {}, {}⟩, ⟨"size", .var ⟨"n", {}⟩, {}⟩] {}]
    (some (.var ⟨"rest", {}⟩)) {}

/-- Two lamps, the first of which is on or not. -/
def twoLamps (on : Bool) : Value :=
  .listOf [.record [("on", .bool on), ("size", .int 3)],
    .record [("on", .bool true), ("size", .int 4)]] .nil

theorem accepts_lower_iff_lampsOn : lampsOn.DistinctFields ∧
    lampsOn.Matches (twoLamps true) ∧ ¬lampsOn.Matches (twoLamps false) := by
  have distinct : lampsOn.DistinctFields := by
    intro fields span mem
    simp only [lampsOn, Pattern.nodes, Pattern.nodesList, Pattern.nodesFields] at mem
    obtain ⟨rfl, -⟩ : fields = _ ∧ span = _ := by simpa using mem
    decide
  refine ⟨distinct, ((accepts_lower_iff lampsOn _).2 distinct).1 (by decide), fun matching => ?_⟩
  exact absurd ((accepts_lower_iff lampsOn _).1 matching) (by decide)

/-- `{ on: true, on: false }` -/
def onAndOff : Pattern :=
  .record [⟨"on", .literal (.bool true) {}, {}⟩, ⟨"on", .literal (.bool false) {}, {}⟩] {}

/-- `{ on: true }` -/
def onlyOn : Pattern := .record [⟨"on", .literal (.bool true) {}, {}⟩] {}

theorem not_matches_off {fields : List FieldPattern} {span : Span}
    (h : ⟨"on", .literal (.bool true) {}, {}⟩ ∈ fields) :
    ¬(Pattern.record fields span).Matches (.record [("on", .bool false)]) := by
  intro matching
  cases matching with
  | record present matching =>
    have accepted := accepts_lower_of_matches (matching _ h (.bool false) rfl)
    exact absurd accepted (by decide)

/-- `{ on: true, on: false }` passes the check at the type of a record with a field `on`, and no
value matches it, but without its names it is `{ on: false }`. So `{ on: true, on: false }` and
`{ on: true }` pass for exhaustive although neither matches `{ on: false }`. -/
theorem accepts_lower_without_match :
    (∃ bound q, Infer.checkPattern Prelude.env 0 onAndOff (.record [("on", .bool)]) {} =
      .ok bound q) ∧
    HasType Prelude.env (.record [("on", .bool false)]) (.record [("on", .bool)]) ∧
    (lower onAndOff).accepts (.record [("on", .bool false)]) = true ∧
    ¬onAndOff.Matches (.record [("on", .bool false)]) ∧
    missingCase? Prelude.env (.record [("on", .bool)]) [(onAndOff, false), (onlyOn, false)] = none ∧
    ¬onlyOn.Matches (.record [("on", .bool false)]) := by
  have checked : ((Infer.checkPattern Prelude.env 0 onAndOff (.record [("on", .bool)])).run' {}).any
      (fun _ => true) = true := by cbv
  obtain ⟨bound, q, run, -⟩ := Infer.exists_run_of_any checked
  have typed : HasType Prelude.env (.record [("on", .bool false)]) (.record [("on", .bool)]) := by
    have off : HasType Prelude.env (.bool false) .bool := .built rfl (.bool rfl) .nil
    have only {name : String} {t : Ty} (found : Assoc.get? [("on", Ty.bool)] name = some t) :
        "on" = name ∧ Ty.bool = t := by
      simpa [Assoc.get?] using found
    refine @HasType.record _ _ [("on", .bool)] _ rfl (fun name t found => ?_) ?_
    · obtain ⟨rfl, -⟩ := only found
      rfl
    · intro name t part found present
      obtain ⟨rfl, rfl⟩ := only found
      cases present
      exact off
  have covered : missingCase? Prelude.env (.record [("on", .bool)])
      [(onAndOff, false), (onlyOn, false)] = none := by cbv
  exact ⟨⟨bound, q, run⟩, typed, by decide, not_matches_off List.mem_cons_self, covered,
    not_matches_off List.mem_cons_self⟩

end Coverage

end Polytype
