import Mathlib.Data.List.Permutation
import Polytype.Proofs.Assoc
import Polytype.Proofs.Coverage.Covers
import Polytype.Proofs.Coverage.Value
import Polytype.Proofs.Env.Reading

/-!
# A match without a missing case covers every value

`Covers.exists_row` is the statement about matrices: if the search finds no missing case, then every
typed list of values is matched by some row. It follows the search. A column that is passed over is
matched by the rows that start with a wildcard. For a column that is split,
`exists_head_of_signature?` gives the head of the value, and `accepts_of_specialize` brings a
specialized row that matches its parts back to a row that matches the value.
-/

namespace Polytype

namespace Pat

theorem acceptsAll_cons {p : Pat} {ps : List Pat} {v : Value} {vs : List Value} :
    acceptsAll (p :: ps) (v :: vs) = true ↔ p.accepts v = true ∧ acceptsAll ps vs = true := by
  simp [acceptsAll]

theorem acceptsAll_append {ps qs : List Pat} {vs ws : List Value}
    (h : ps.length = vs.length) :
    acceptsAll (ps ++ qs) (vs ++ ws) = true ↔
      acceptsAll ps vs = true ∧ acceptsAll qs ws = true := by
  induction ps generalizing vs with
  | nil =>
    cases vs with
    | nil => simp [acceptsAll]
    | cons v vs => simp at h
  | cons p ps ih =>
    cases vs with
    | nil => simp at h
    | cons v vs =>
      have := @ih vs (by simpa using h)
      rw [List.cons_append, List.cons_append, acceptsAll_cons, acceptsAll_cons, this, and_assoc]

theorem acceptsFields_of {fields : List (String × Pat)} {parts : List (String × Value)}
    (h : ∀ field ∈ fields, ∃ v, Assoc.get? parts field.1 = some v ∧ field.2.accepts v = true) :
    acceptsFields fields parts = true := by
  induction fields with
  | nil => rfl
  | cons field rest ih =>
    obtain ⟨name, p⟩ := field
    obtain ⟨v, hv, hp⟩ := h (name, p) List.mem_cons_self
    have := ih fun other ho => h other (List.mem_cons_of_mem _ ho)
    simp only [acceptsFields, hv, hp, this, Bool.and_self]

/-! ## Choices -/

mutual

theorem accepts_of_mem_choices {c : Pat} {v : Value} :
    ∀ p : Pat, c ∈ p.choices → c.accepts v = true → p.accepts v = true
  | any, hc, h => by
    rw [choices, List.mem_singleton] at hc
    exact hc ▸ h
  | node head args, hc, h => by
    rw [choices, List.mem_singleton] at hc
    exact hc ▸ h
  | record fields, hc, h => by
    rw [choices, List.mem_singleton] at hc
    exact hc ▸ h
  | either alternatives, hc, h => by
    rw [accepts]
    exact acceptsSome_of_mem_choicesList alternatives hc h

theorem acceptsSome_of_mem_choicesList {c : Pat} {v : Value} :
    ∀ ps : List Pat, c ∈ choicesList ps → c.accepts v = true → acceptsSome ps v = true
  | [], hc, _ => by simp [choicesList] at hc
  | p :: ps, hc, h => by
    rw [acceptsSome, Bool.or_eq_true]
    rcases List.mem_append.1 hc with hc | hc
    · exact .inl (accepts_of_mem_choices p hc h)
    · exact .inr (acceptsSome_of_mem_choicesList ps hc h)

end

end Pat

namespace Coverage

open Pat

mutual

theorem wellTyped_of_mem_choices {env : Env} {t : Ty} {c : Pat} :
    ∀ p : Pat, WellTyped env p t → c ∈ p.choices → WellTyped env c t
  | any, h, hc => by
    rw [choices, List.mem_singleton] at hc
    exact hc ▸ h
  | node head args, h, hc => by
    rw [choices, List.mem_singleton] at hc
    exact hc ▸ h
  | record fields, h, hc => by
    rw [choices, List.mem_singleton] at hc
    exact hc ▸ h
  | either alternatives, h, hc => by
    cases h with
    | either typed => exact wellTyped_of_mem_choicesList alternatives typed hc

theorem wellTyped_of_mem_choicesList {env : Env} {t : Ty} {c : Pat} :
    ∀ ps : List Pat, (∀ p ∈ ps, WellTyped env p t) → c ∈ choicesList ps → WellTyped env c t
  | [], _, hc => by simp [choicesList] at hc
  | p :: ps, h, hc => by
    rcases List.mem_append.1 hc with hc | hc
    · exact wellTyped_of_mem_choices p (h p List.mem_cons_self) hc
    · exact wellTyped_of_mem_choicesList ps (fun q hq => h q (List.mem_cons_of_mem _ hq)) hc

end

abbrev RowsTyped (env : Env) (rows : List Row) (columns : List Ty) : Prop :=
  ∀ row ∈ rows, List.Forall₂ (WellTyped env) row columns

theorem rowsTyped_arms {env : Env} {scrutinee : Ty} {arms : List (Pattern × Bool)}
    (typed : ∀ arm ∈ arms, WellTyped env (Pat.lower arm.1) scrutinee) :
    RowsTyped env ((arms.filter fun arm => !arm.2).map fun arm => [Pat.lower arm.1])
      [scrutinee] := by
  intro row hrow
  obtain ⟨arm, harm, rfl⟩ := List.mem_map.1 hrow
  exact .cons (typed arm (List.mem_filter.1 harm).1) .nil

theorem rowsTyped_splitRows {env : Env} {rows : List Row} {columns : List Ty}
    (h : RowsTyped env rows columns) : RowsTyped env (splitRows rows) columns := by
  intro row hrow
  obtain ⟨given, hgiven, hrow⟩ := List.mem_flatMap.1 hrow
  have typed := h given hgiven
  cases given with
  | nil =>
    rw [splitRow, List.mem_singleton] at hrow
    exact hrow ▸ typed
  | cons p rest =>
    obtain ⟨c, hc, rfl⟩ := List.mem_map.1 hrow
    cases typed with
    | cons hp hrest => exact .cons (wellTyped_of_mem_choices p hp hc) hrest

theorem exists_row_of_splitRows {rows : List Row} {row : Row} {vs : List Value}
    (hrow : row ∈ splitRows rows) (h : acceptsAll row vs = true) :
    ∃ row ∈ rows, acceptsAll row vs = true := by
  obtain ⟨given, hgiven, hrow⟩ := List.mem_flatMap.1 hrow
  refine ⟨given, hgiven, ?_⟩
  cases given with
  | nil =>
    rw [splitRow, List.mem_singleton] at hrow
    exact hrow ▸ h
  | cons p rest =>
    obtain ⟨c, hc, rfl⟩ := List.mem_map.1 hrow
    cases vs with
    | nil => simp [acceptsAll] at h
    | cons v vs =>
      rw [acceptsAll_cons] at h ⊢
      exact ⟨accepts_of_mem_choices p hc h.1, h.2⟩

/-! ## Heads of values -/

theorem Regular.bodiless {env : Env} (regular : Regular env) {t : Ty} {name : String}
    (mem : name ∈ ["Int", "Float", "String", "Bool", "Unit", "List"]) (h : t.isNamed name) :
    env.Bodiless t := by
  have builtin := regular.builtin
  simp only [Prelude.definitions, List.forall_mem_cons] at builtin
  obtain ⟨hInt, hFloat, hString, hBool, hUnit, hList, -⟩ := builtin
  simp only [List.mem_cons, List.not_mem_nil, or_false] at mem
  rcases mem with rfl | rfl | rfl | rfl | rfl | rfl
  · exact Env.bodiless_of_named hInt h
  · exact Env.bodiless_of_named hFloat h
  · exact Env.bodiless_of_named hString h
  · exact Env.bodiless_of_named hBool h
  · exact Env.bodiless_of_named hUnit h
  · exact Env.bodiless_of_named hList h

theorem Built.origin {env : Env} {t : Ty} {head : Head} {types : List Ty}
    (h : Built env t head types) :
    (∃ name ∈ ["Int", "Float", "String", "Bool", "Unit", "List"], t.isNamed name) ∨
      (∃ elements, t = .tuple elements ∧ head = .tuple elements.length) ∨
      ∃ alternatives, env.alternatives t = some alternatives ∧
        head ∈ alternatives.map fun a => Head.variant a.name := by
  cases h with
  | int named => exact .inl ⟨_, by simp, named⟩
  | float named => exact .inl ⟨_, by simp, named⟩
  | string named => exact .inl ⟨_, by simp, named⟩
  | bool named => exact .inl ⟨_, by simp, named⟩
  | unit named => exact .inl ⟨_, by simp, named⟩
  | nil named => exact .inl ⟨_, by simp, named⟩
  | cons named => exact .inl ⟨_, by simp, named⟩
  | tuple ht => exact .inr (.inl ⟨_, ht, rfl⟩)
  | variant halts mem =>
    exact .inr (.inr ⟨_, halts, List.mem_map_of_mem (f := fun a => Head.variant a.name) mem⟩)

theorem Built.recordFields {env : Env} (regular : Regular env) {t : Ty} {head : Head}
    {types : List Ty} (h : Built env t head types) : env.recordFields t = none := by
  rcases h.origin with ⟨name, mem, named⟩ | ⟨elements, rfl, -⟩ | ⟨alternatives, halts, -⟩
  · exact (regular.bodiless mem named).recordFields
  · exact (Env.bodiless_tuple env elements).recordFields
  · exact Env.recordFields_of_alternatives halts

theorem Regular.alternatives_nodup {env : Env} (regular : Regular env) {t : Ty}
    {alternatives : List Alternative} (h : env.alternatives t = some alternatives) :
    (alternatives.map (·.name)).Nodup := by
  obtain ⟨name, d, defined, hd, hb, hnames⟩ := Env.alternatives_variant h
  rw [hnames]
  exact regular.distinct name d defined hd hb

theorem find?_name {alternatives : List Alternative} {a : Alternative}
    (nodup : (alternatives.map (·.name)).Nodup) (mem : a ∈ alternatives) :
    alternatives.find? (fun other => other.name == a.name) = some a := by
  induction alternatives with
  | nil => simp at mem
  | cons first rest ih =>
    obtain ⟨fresh, nodup⟩ := List.nodup_cons.1 nodup
    rcases List.mem_cons.1 mem with rfl | mem
    · simp
    · have : first.name ≠ a.name := fun heq =>
        fresh (List.mem_map.2 ⟨a, mem, heq.symm⟩)
      rw [List.find?_cons_of_neg (by simpa using this)]
      exact ih nodup mem

theorem Built.partTypes {env : Env} (regular : Regular env) {t : Ty} {head : Head}
    {types : List Ty} (h : Built env t head types) : partTypes env t head = types := by
  cases h with
  | cons named he => simp [Coverage.partTypes, he]
  | tuple ht => simp [Coverage.partTypes, ht]
  | variant halts mem =>
    simp [Coverage.partTypes, halts, find?_name (regular.alternatives_nodup halts) mem]
  | _ => rfl

/-- The head and the parts a value shows in a column. Of a record, a column shows the fields that
its patterns mention. -/
def Shows (v : Value) : Head → List Value → Prop
  | .record names, parts => ∃ fields, v = .record fields ∧
      List.Forall₂ (fun name part => Assoc.get? fields name = some part) names parts
  | head, parts => v.view = some (head, parts)

theorem view_ne_record {v : Value} {names : List String} {parts : List Value} :
    v.view ≠ some (.record names, parts) := by
  cases v <;> simp [Value.view]

theorem shows_of_view {v : Value} {head : Head} {parts : List Value}
    (h : v.view = some (head, parts)) : Shows v head parts := by
  cases head with
  | record names => exact absurd h view_ne_record
  | _ => exact h

/-! ## The heads of a column are the heads of its values -/

theorem mem_nameSet {name : String} {names : List String} :
    name ∈ nameSet names ↔ name ∈ names := by
  suffices general : ∀ set : List String,
      name ∈ names.foldl (fun set name => if name ∈ set then set else insertName name set) set ↔
        name ∈ set ∨ name ∈ names by
    simpa [nameSet] using general []
  induction names with
  | nil => simp
  | cons first rest ih =>
    intro set
    rw [List.foldl_cons, ih]
    split
    · rename_i mem
      simp only [List.mem_cons]
      constructor
      · rintro (h | h)
        · exact .inl h
        · exact .inr (.inr h)
      · rintro (h | rfl | h)
        · exact .inl h
        · exact .inl mem
        · exact .inr h
    · rw [mem_insertName, List.mem_cons]
      exact ⟨fun h => by rcases h with (h | h) | h <;> simp [h],
        fun h => by rcases h with h | h | h <;> simp [h]⟩

theorem columnFields?_eq_some {rows : List Row} {names : List String}
    (h : columnFields? rows = some names) :
    (∃ fields rest, .record fields :: rest ∈ rows) ∧
      ∀ name, name ∈ names ↔ ∃ fields rest, .record fields :: rest ∈ rows ∧
        name ∈ Assoc.keys fields := by
  have recorded {keys : List String} : keys ∈ rows.filterMap firstFields? ↔
      ∃ fields rest, .record fields :: rest ∈ rows ∧ Assoc.keys fields = keys := by
    rw [List.mem_filterMap]
    constructor
    · rintro ⟨row, hrow, hkeys⟩
      unfold firstFields? at hkeys
      split at hkeys
      · exact ⟨_, _, hrow, Option.some.inj hkeys⟩
      · simp at hkeys
    · rintro ⟨fields, rest, hrow, rfl⟩
      exact ⟨_, hrow, rfl⟩
  simp only [columnFields?] at h
  split at h
  · simp at h
  rename_i nonempty
  obtain rfl := Option.some.inj h
  constructor
  · obtain ⟨keys, hkeys⟩ := List.exists_mem_of_ne_nil _ (mt List.isEmpty_iff.2 nonempty)
    obtain ⟨fields, rest, hrow, -⟩ := recorded.1 hkeys
    exact ⟨fields, rest, hrow⟩
  · intro name
    rw [mem_nameSet, List.mem_flatten]
    constructor
    · rintro ⟨keys, hkeys, hname⟩
      obtain ⟨fields, rest, hrow, rfl⟩ := recorded.1 hkeys
      exact ⟨fields, rest, hrow, hname⟩
    · rintro ⟨fields, rest, hrow, hname⟩
      exact ⟨_, recorded.2 ⟨fields, rest, hrow, rfl⟩, hname⟩

theorem tupleArity?_eq_some {rows : List Row} {arity : Nat}
    (h : tupleArity? (rows.filterMap firstHead?) = some arity) :
    ∃ args rest, .node (.tuple arity) args :: rest ∈ rows := by
  obtain ⟨head, hhead, harity⟩ := List.exists_of_findSome?_eq_some h
  obtain ⟨row, hrow, hfirst⟩ := List.mem_filterMap.1 hhead
  unfold firstHead? at hfirst
  split at hfirst
  · obtain rfl := Option.some.inj hfirst
    split at harity
    · obtain rfl := Option.some.inj harity
      exact ⟨_, _, hrow⟩
    · simp at harity
  · simp at hfirst

theorem isNamed_unique {t : Ty} {a b : String} (ha : t.isNamed a) (hb : t.isNamed b) : a = b := by
  simp only [Ty.isNamed, beq_iff_eq] at ha hb
  rw [ha] at hb
  exact Option.some.inj hb

theorem Built.of_named {env : Env} (regular : Regular env) {t : Ty} {head : Head}
    {types : List Ty} {name : String} (h : Built env t head types)
    (mem : name ∈ ["Int", "Float", "String", "Bool", "Unit", "List"]) (hn : t.isNamed name) :
    match head with
    | .int _ => name = "Int"
    | .float _ => name = "Float"
    | .string _ => name = "String"
    | .bool _ => name = "Bool"
    | .unit => name = "Unit"
    | .nil => name = "List"
    | .cons => name = "List"
    | _ => False := by
  cases h with
  | tuple ht =>
    subst ht
    simp [Ty.isNamed, Ty.headName?] at hn
  | variant halts => simp [(regular.bodiless mem hn).alternatives] at halts
  | _ => exact isNamed_unique hn ‹_›

theorem Built.of_tuple {env : Env} {elements types : List Ty} {head : Head}
    (h : Built env (.tuple elements) head types) : head = .tuple elements.length := by
  rcases h.origin with ⟨name, mem, named⟩ | ⟨others, heq, hhead⟩ | ⟨alternatives, halts, -⟩
  · simp [Ty.isNamed, Ty.headName?] at named
  · rw [hhead, Ty.tuple.inj heq]
  · simp [(Env.bodiless_tuple env elements).alternatives] at halts

theorem Built.of_alternatives {env : Env} (regular : Regular env) {t : Ty} {head : Head}
    {types : List Ty} {alternatives : List Alternative} (h : Built env t head types)
    (ha : env.alternatives t = some alternatives) :
    head ∈ alternatives.map fun a => Head.variant a.name := by
  rcases h.origin with ⟨name, mem, named⟩ | ⟨elements, rfl, -⟩ | ⟨others, halts, hhead⟩
  · simp [(regular.bodiless mem named).alternatives] at ha
  · simp [(Env.bodiless_tuple env elements).alternatives] at ha
  · rw [ha] at halts
    obtain rfl := Option.some.inj halts
    exact hhead

/-- The heads of a column are those of a record type, or they are all heads that values of the
type can have. -/
theorem signature?_cases {env : Env} (regular : Regular env) {t : Ty} {rows : List Row}
    {rest : List Ty} {all : List Head} (typed : RowsTyped env rows (t :: rest))
    (h : signature? env (env.unfold t) rows = some all) :
    (∃ names declared, columnFields? rows = some names ∧ all = [.record names] ∧
      env.recordFields (env.unfold t) = some declared ∧
      ∀ name ∈ names, (Assoc.get? declared name).isSome) ∨
    (env.recordFields (env.unfold t) = none ∧ Transparent env (env.unfold t) ∧
      ∀ head types, Built env (env.unfold t) head types → head ∈ all) := by
  unfold signature? at h
  split at h
  · -- Some row starts with a record pattern, so the type is a record type.
    rename_i names hnames
    obtain ⟨⟨fields, others, hrow⟩, hmem⟩ := columnFields?_eq_some hnames
    cases typed _ hrow with
    | cons first =>
      cases first with
      | @record _ declared _ hdeclared distinct present =>
        refine .inl ⟨names, declared, hnames, (Option.some.inj h).symm, hdeclared, ?_⟩
        intro name hname
        obtain ⟨fields', others', hrow', hkey⟩ := (hmem name).1 hname
        obtain ⟨field, hfield, rfl⟩ := List.mem_map.1 hkey
        cases typed _ hrow' with
        | cons first' =>
          cases first' with
          | record hdeclared' _ present' =>
            rw [hdeclared] at hdeclared'
            obtain rfl := Option.some.inj hdeclared'
            exact present' field hfield
  · -- Some row starts with a tuple pattern, so the type is a tuple type.
    rename_i arity harity
    obtain ⟨args, others, hrow⟩ := tupleArity?_eq_some harity
    obtain rfl := Option.some.inj h
    cases typed _ hrow with
    | cons first =>
      cases first with
      | node built =>
        cases built with
        | tuple ht =>
          refine .inr ⟨ht ▸ (Env.bodiless_tuple env _).recordFields, .inl ⟨_, ht⟩, ?_⟩
          intro head types hbuilt
          rw [ht] at hbuilt
          simp [hbuilt.of_tuple]
  · rename_i elements ht
    obtain rfl := Option.some.inj h
    rw [ht]
    refine .inr ⟨(Env.bodiless_tuple env _).recordFields, .inl ⟨_, rfl⟩, ?_⟩
    intro head types hbuilt
    simp [hbuilt.of_tuple]
  · -- What is left is told by the name of the type.
    have named {name : String} (mem : name ∈ ["Int", "Float", "String", "Bool", "Unit", "List"])
        (hn : (env.unfold t).isNamed name)
        (hall : ∀ head types, Built env (env.unfold t) head types → head ∈ all) :
        env.recordFields (env.unfold t) = none ∧ Transparent env (env.unfold t) ∧
          ∀ head types, Built env (env.unfold t) head types → head ∈ all :=
      ⟨(regular.bodiless mem hn).recordFields, .inr (.inr (.inr ⟨name, mem, hn⟩)), hall⟩
    refine .inr ?_
    split at h
    · rename_i hn
      obtain rfl := Option.some.inj h
      refine named (by simp) hn fun head types hbuilt => ?_
      have := hbuilt.of_named regular (by simp) hn
      cases head with
      | bool value => cases value <;> simp
      | _ => simp at this
    split at h
    · rename_i hn
      obtain rfl := Option.some.inj h
      refine named (by simp) hn fun head types hbuilt => ?_
      have := hbuilt.of_named regular (by simp) hn
      cases head with
      | unit => simp
      | _ => simp at this
    split at h
    · rename_i hn
      obtain rfl := Option.some.inj h
      refine named (by simp) hn fun head types hbuilt => ?_
      have := hbuilt.of_named regular (by simp) hn
      cases head with
      | nil => simp
      | cons => simp
      | _ => simp at this
    · obtain ⟨alternatives, halts, rfl⟩ := Option.map_eq_some_iff.1 h
      refine ⟨Env.recordFields_of_alternatives halts, .inr (.inr (.inl (by simp [halts]))), ?_⟩
      exact fun head types hbuilt => hbuilt.of_alternatives regular halts

theorem shows_record {env : Env} {t : Ty} {fields : List (String × Value)}
    {declared : List (String × Ty)} {names : List String}
    (hdeclared : env.recordFields t = some declared)
    (hnames : ∀ name ∈ names, (Assoc.get? declared name).isSome)
    (present : ∀ name type, Assoc.get? declared name = some type →
      (Assoc.get? fields name).isSome)
    (typed : ∀ name type part, Assoc.get? declared name = some type →
      Assoc.get? fields name = some part → HasType env part type) :
    ∃ parts, Shows (.record fields) (.record names) parts ∧
      List.Forall₂ (HasType env) parts (partTypes env t (.record names)) := by
  have general : ∃ parts,
      List.Forall₂ (fun name part => Assoc.get? fields name = some part) names parts ∧
        List.Forall₂ (HasType env) parts
          (names.map fun name => (Assoc.get? declared name).getD unknown) := by
    induction names with
    | nil => exact ⟨[], .nil, .nil⟩
    | cons name names ih =>
      obtain ⟨parts, hparts, htyped⟩ := ih fun other ho => hnames other (List.mem_cons_of_mem _ ho)
      obtain ⟨type, htype⟩ := Option.isSome_iff_exists.1 (hnames name List.mem_cons_self)
      obtain ⟨part, hpart⟩ := Option.isSome_iff_exists.1 (present name type htype)
      refine ⟨part :: parts, .cons hpart hparts, ?_⟩
      rw [List.map_cons, htype]
      exact .cons (typed name type part htype hpart) htyped
  obtain ⟨parts, hparts, htyped⟩ := general
  refine ⟨parts, ⟨fields, rfl, hparts⟩, ?_⟩
  simpa [partTypes, hdeclared] using htyped

def Declared (env : Env) (t : Ty) (rows : List Row) : Head → Prop
  | .record names => columnFields? rows = some names ∧
      ∃ declared, env.recordFields t = some declared ∧
        ∀ name ∈ names, (Assoc.get? declared name).isSome
  | _ => True

/-- A value in a column that has a signature shows one of its heads, with parts of the right
types. -/
theorem exists_head_of_signature? {env : Env} (regular : Regular env) {t : Ty} {rows : List Row}
    {rest : List Ty} {all : List Head} {v : Value} (typed : RowsTyped env rows (t :: rest))
    (h : signature? env (env.unfold t) rows = some all) (hv : HasType env v t) :
    ∃ head ∈ all, Declared env (env.unfold t) rows head ∧ ∃ parts, Shows v head parts ∧
      List.Forall₂ (HasType env) parts (partTypes env (env.unfold t) head) := by
  rcases signature?_cases regular typed h with
    ⟨names, declared, hcolumn, rfl, hdeclared, hnames⟩ | ⟨hnone, transparent, hall⟩
  · cases hv with
    | built view built => simp [built.recordFields regular] at hdeclared
    | atom opacity =>
      exact absurd (.inr (.inl (by simp [hdeclared]))) opacity
    | record hfields present typed =>
      rw [hdeclared] at hfields
      obtain rfl := Option.some.inj hfields
      obtain ⟨parts, hshows, htyped⟩ := shows_record hdeclared hnames present typed
      exact ⟨_, List.mem_singleton.2 rfl, ⟨hcolumn, declared, hdeclared, hnames⟩, parts, hshows,
        htyped⟩
  · cases hv with
    | @built _ _ head parts types view built typed =>
      refine ⟨head, hall head types built, ?_, parts, shows_of_view view, ?_⟩
      · cases head with
        | record names => exact absurd view view_ne_record
        | _ => trivial
      · rwa [built.partTypes regular]
    | atom opacity => exact absurd transparent opacity
    | record hfields => simp [hnone] at hfields

/-! ## Specialized rows -/

theorem resize_of_length {arity : Nat} {args : List Pat} (h : args.length = arity) :
    resize arity args = args := by
  simp [resize, ← h]

theorem wellTyped_replicate_any (env : Env) (types : List Ty) :
    List.Forall₂ (WellTyped env) (List.replicate types.length .any) types := by
  induction types with
  | nil => exact .nil
  | cons t types ih => exact .cons .any ih

theorem wellTyped_lookup {env : Env} {fields : List (String × Pat)}
    {declared : List (String × Ty)} (names : List String)
    (typed : ∀ field ∈ fields, ∀ type, Assoc.get? declared field.1 = some type →
      WellTyped env field.2 type)
    (hnames : ∀ name ∈ names, (Assoc.get? declared name).isSome) :
    List.Forall₂ (WellTyped env) (names.map fun name => (Assoc.get? fields name).getD .any)
      (names.map fun name => (Assoc.get? declared name).getD unknown) := by
  rw [List.forall₂_map_left_iff, List.forall₂_map_right_iff, List.forall₂_same]
  intro name mem
  obtain ⟨type, htype⟩ := Option.isSome_iff_exists.1 (hnames name mem)
  cases hp : Assoc.get? fields name with
  | none => exact .any
  | some p =>
    rw [htype]
    exact typed (name, p) (Assoc.mem_of_get? hp) type htype

theorem wellTyped_specialize {env : Env} (regular : Regular env) {t : Ty} {rest : List Ty}
    {head : Head} {rows : List Row} {row out : Row} (hd : Declared env (env.unfold t) rows head)
    (typed : List.Forall₂ (WellTyped env) row (t :: rest))
    (h : specialize head (partTypes env (env.unfold t) head).length row = some out) :
    List.Forall₂ (WellTyped env) out (partTypes env (env.unfold t) head ++ rest) := by
  cases typed with
  | @cons p _ others _ first hothers =>
    cases first with
    | any =>
      obtain rfl := Option.some.inj h
      exact List.rel_append (wellTyped_replicate_any env _) hothers
    | either => simp [specialize] at h
    | node built typed =>
      simp only [specialize] at h
      split at h
      · rename_i heq
        obtain rfl := Option.some.inj h
        subst heq
        rw [built.partTypes regular, resize_of_length typed.length_eq]
        exact List.rel_append typed hothers
      · simp at h
    | record hfields _ _ typed =>
      simp only [specialize] at h
      split at h
      · rename_i names
        obtain rfl := Option.some.inj h
        obtain ⟨-, declared, hdeclared, hnames⟩ := hd
        rw [hdeclared] at hfields
        obtain rfl := Option.some.inj hfields
        simp only [partTypes, hdeclared, Option.getD_some, List.length_map]
        rw [resize_of_length (List.length_map _)]
        exact List.rel_append (wellTyped_lookup names typed hnames) hothers
      · simp at h

theorem accepts_lookup {fields : List (String × Pat)} {parts : List (String × Value)}
    {names : List String} {values : List Value} (distinct : (Assoc.keys fields).Nodup)
    (hkeys : ∀ name ∈ Assoc.keys fields, name ∈ names)
    (hvalues : List.Forall₂ (fun name v => Assoc.get? parts name = some v) names values)
    (h : acceptsAll (names.map fun name => (Assoc.get? fields name).getD .any) values = true) :
    acceptsFields fields parts = true := by
  have looked {name : String} (mem : name ∈ names) : ∃ v, Assoc.get? parts name = some v ∧
      ((Assoc.get? fields name).getD .any).accepts v = true := by
    clear hkeys
    induction hvalues with
    | nil => simp at mem
    | cons hv _ ih =>
      rw [List.map_cons, acceptsAll_cons] at h
      rcases List.mem_cons.1 mem with rfl | mem
      · exact ⟨_, hv, h.1⟩
      · exact ih h.2 mem
  refine acceptsFields_of fun field hfield => ?_
  obtain ⟨v, hv, hp⟩ := looked (hkeys field.1 (List.mem_map_of_mem hfield))
  refine ⟨v, hv, ?_⟩
  rwa [Assoc.get?_of_mem distinct hfield] at hp

theorem accepts_of_specialize {env : Env} (regular : Regular env) {t : Ty} {rest : List Ty}
    {head : Head} {rows : List Row} {row out : Row} {v : Value} {parts vs : List Value}
    (hd : Declared env (env.unfold t) rows head) (hrow : row ∈ rows)
    (typed : List.Forall₂ (WellTyped env) row (t :: rest))
    (hlength : (partTypes env (env.unfold t) head).length = parts.length)
    (h : specialize head parts.length row = some out) (shows : Shows v head parts)
    (accepted : acceptsAll out (parts ++ vs) = true) : acceptsAll row (v :: vs) = true := by
  cases typed with
  | @cons p _ others _ first hothers =>
    rw [acceptsAll_cons]
    cases first with
    | any =>
      obtain rfl := Option.some.inj h
      rw [acceptsAll_append (by simp)] at accepted
      exact ⟨rfl, accepted.2⟩
    | either => simp [specialize] at h
    | @node other args types _ built typed =>
      simp only [specialize] at h
      split at h
      · rename_i heq
        obtain rfl := Option.some.inj h
        subst heq
        have hargs : args.length = parts.length := by
          rw [typed.length_eq, ← built.partTypes regular, hlength]
        rw [resize_of_length hargs, acceptsAll_append hargs] at accepted
        have view : v.view = some (other, parts) := by
          cases other with
          | record names => cases built
          | _ => exact shows
        exact ⟨by simp [accepts, view, accepted.1], accepted.2⟩
      · simp at h
    | @record fields _ _ _ distinct =>
      simp only [specialize] at h
      split at h
      · rename_i names
        obtain rfl := Option.some.inj h
        obtain ⟨recorded, rfl, hparts⟩ := shows
        have hlookup : (names.map fun name => (Assoc.get? fields name).getD .any).length =
            parts.length := by
          rw [List.length_map, hparts.length_eq]
        rw [resize_of_length hlookup, acceptsAll_append hlookup] at accepted
        refine ⟨?_, accepted.2⟩
        rw [accepts]
        refine accepts_lookup distinct (fun name hname => ?_) hparts accepted.1
        exact ((columnFields?_eq_some hd.1).2 name).2 ⟨fields, others, hrow, hname⟩
      · simp at h

/-! ## Rows that cover all values -/

theorem Covers.exists_row {env : Env} (regular : Regular env) {rows : List Row}
    {columns : List Ty} (h : Covers env rows columns) (typed : RowsTyped env rows columns)
    {vs : List Value} (hvs : List.Forall₂ (HasType env) vs columns) :
    ∃ row ∈ rows, acceptsAll row vs = true := by
  induction h generalizing vs with
  | done nonempty =>
    cases hvs
    obtain ⟨row, hrow⟩ := List.exists_mem_of_ne_nil _ nonempty
    cases typed row hrow
    exact ⟨[], hrow, rfl⟩
  | @pass rows t rest _ ih =>
    cases hvs with
    | @cons v _ vs _ hv hvs =>
      -- Rows that start with a wildcard match whatever value the column has.
      have passed : RowsTyped env (passRows (splitRows rows)) rest := by
        intro out hout
        obtain ⟨row, hrow, hpass⟩ := List.mem_filterMap.1 hout
        have := rowsTyped_splitRows typed row hrow
        unfold passRow at hpass
        split at hpass
        · obtain rfl := Option.some.inj hpass
          cases this with
          | cons _ hrest => exact hrest
        · simp at hpass
      obtain ⟨out, hout, accepted⟩ := ih passed hvs
      obtain ⟨row, hrow, hpass⟩ := List.mem_filterMap.1 hout
      unfold passRow at hpass
      split at hpass
      · obtain rfl := Option.some.inj hpass
        exact exists_row_of_splitRows hrow (acceptsAll_cons.2 ⟨rfl, accepted⟩)
      · simp at hpass
  | @split rows t rest heads hheads _ ih =>
    cases hvs with
    | @cons v _ vs _ hv hvs =>
      have split := rowsTyped_splitRows typed
      -- The value has one of the heads that the column is split by.
      obtain ⟨head, hhead, declared, parts, shows, hparts⟩ :=
        exists_head_of_signature? regular split hheads hv
      have specialized : RowsTyped env (specializeRows head
          (partTypes env (env.unfold t) head).length (splitRows rows))
          (partTypes env (env.unfold t) head ++ rest) := by
        intro out hout
        obtain ⟨row, hrow, hs⟩ := List.mem_filterMap.1 hout
        exact wellTyped_specialize regular declared (split row hrow) hs
      obtain ⟨out, hout, accepted⟩ := ih head hhead specialized (List.rel_append hparts hvs)
      obtain ⟨row, hrow, hs⟩ := List.mem_filterMap.1 hout
      rw [← hparts.length_eq] at hs
      exact exists_row_of_splitRows hrow (accepts_of_specialize regular declared hrow
        (split row hrow) hparts.length_eq.symm hs shows accepted)

/-- If no case is missing, every value of the type of the scrutinee is matched by an arm without a
guard. -/
theorem exists_arm_of_missingCase?_eq_none {env : Env} (regular : Regular env) (scrutinee : Ty)
    (arms : List (Pattern × Bool))
    (typed : ∀ arm ∈ arms, WellTyped env (Pat.lower arm.1) scrutinee)
    (h : missingCase? env scrutinee arms = none) (v : Value) (hv : HasType env v scrutinee) :
    ∃ arm ∈ arms, arm.2 = false ∧ (Pat.lower arm.1).accepts v = true := by
  obtain ⟨row, hrow, accepted⟩ := (covers_of_missingCase?_eq_none h).exists_row regular
    (rowsTyped_arms typed) (.cons hv .nil)
  obtain ⟨arm, harm, rfl⟩ := List.mem_map.1 hrow
  obtain ⟨harm, unguarded⟩ := List.mem_filter.1 harm
  exact ⟨arm, harm, by simpa using unguarded, (acceptsAll_cons.1 accepted).1⟩

theorem mem_types_define {definitions : List Definition} {env : Env} {entry : String × Definition}
    (h : entry ∈ (definitions.foldl Env.define env).types) :
    entry.2 ∈ definitions ∨ entry ∈ env.types := by
  induction definitions generalizing env with
  | nil => exact .inr h
  | cons d rest ih =>
    rcases ih h with h | h
    · exact .inl (List.mem_cons_of_mem _ h)
    · rcases Assoc.mem_of_mem_insert h with rfl | h
      · exact .inl List.mem_cons_self
      · exact .inr h

theorem regular_prelude : Regular Prelude.env where
  builtin := by
    intro d hd
    simp only [Prelude.definitions, List.mem_cons, List.not_mem_nil, or_false] at hd
    rcases hd with rfl | rfl | rfl | rfl | rfl | rfl | rfl | rfl | rfl <;> rfl
  distinct := by
    intro name d alternatives hd hb
    rcases mem_types_define (Assoc.mem_of_get? hd) with mem | mem
    · simp only [Prelude.definitions, List.mem_cons, List.not_mem_nil, or_false] at mem
      rcases mem with rfl | rfl | rfl | rfl | rfl | rfl | rfl | rfl | rfl <;> cases hb <;> simp
    · simp [Env.empty] at mem

def optionArms : List (Pattern × Bool) :=
  [(.either [.constructor ⟨"Some", {}⟩ [.literal (.bool true) {}] {},
      .constructor ⟨"None", {}⟩ [] {}] {}, false),
    (.wild {}, true),
    (.constructor ⟨"Some", {}⟩ [.literal (.bool false) {}] {}, false)]

theorem exists_arm_optionArms :
    missingCase? Prelude.env (.app (.const "Option") [.bool]) optionArms = none ∧
      HasType Prelude.env (.constructor "Some" [.bool false]) (.app (.const "Option") [.bool]) ∧
      ∃ arm ∈ optionArms, arm.2 = false ∧
        (Pat.lower arm.1).accepts (.constructor "Some" [.bool false]) = true := by
  have covered : missingCase? Prelude.env (.app (.const "Option") [.bool]) optionArms = none := by
    cbv
  have halts : Prelude.env.alternatives (Prelude.env.unfold (.app (.const "Option") [.bool])) =
      some [⟨"Some", [.bool]⟩, ⟨"None", []⟩] := rfl
  have some (value : Bool) : WellTyped Prelude.env
      (.node (.variant "Some") [.node (.bool value) []]) (.app (.const "Option") [.bool]) :=
    .node (.variant halts (a := ⟨"Some", [.bool]⟩) (by simp))
      (.cons (.node (.bool rfl) .nil) .nil)
  have none : WellTyped Prelude.env (.node (.variant "None") []) (.app (.const "Option") [.bool]) :=
    .node (.variant halts (a := ⟨"None", []⟩) (by simp)) .nil
  have value : HasType Prelude.env (.constructor "Some" [.bool false])
      (.app (.const "Option") [.bool]) :=
    .built rfl (.variant halts (a := ⟨"Some", [.bool]⟩) (by simp))
      (.cons (.built rfl (.bool rfl) .nil) .nil)
  refine ⟨covered, value, exists_arm_of_missingCase?_eq_none regular_prelude _ _ ?_ covered _ value⟩
  simp only [optionArms, List.forall_mem_cons, Pat.lower, Pat.lowerList, Head.ofLiteral]
  refine ⟨.either ?_, .any, some false, by simp⟩
  simp only [List.forall_mem_cons]
  exact ⟨some true, none, by simp⟩

end Coverage

end Polytype
