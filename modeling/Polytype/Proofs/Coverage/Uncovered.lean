import Mathlib.Algebra.Group.Nat.Defs
import Polytype.Proofs.Coverage.Exhaustive

namespace Polytype

/-- The values that a missing case describes. -/
inductive MissingCase.Describes : MissingCase → Value → Prop
  | any {v} : Describes .any v
  | bool {value} : Describes (.bool value) (.bool value)
  | unit : Describes .unit .unit
  | constructor {name cases args} : List.Forall₂ Describes cases args →
      Describes (.constructor name cases) (.constructor name args)
  | tuple {cases elements} : List.Forall₂ Describes cases elements →
      Describes (.tuple cases) (.tuple elements)
  | record {cases fields} : (∀ field ∈ cases, (Assoc.get? fields field.1).isSome) →
      (∀ field ∈ cases, ∀ v, Assoc.get? fields field.1 = some v → Describes field.2 v) →
      Describes (.record cases) (.record fields)
  | nil : Describes .nil .nil
  | cons {head tail v vs} : Describes head v → Describes tail vs →
      Describes (.cons head tail) (.cons v vs)

/-! ## Literals -/

def Head.isLiteral : Head → Bool
  | int _ => true
  | float _ => true
  | string _ => true
  | _ => false

namespace Pat

mutual

def literals : Pat → List Head
  | any => []
  | node head args => (if head.isLiteral then [head] else []) ++ literalsList args
  | record fields => literalsFields fields
  | either alternatives => literalsList alternatives

def literalsList : List Pat → List Head
  | [] => []
  | p :: ps => p.literals ++ literalsList ps

def literalsFields : List (String × Pat) → List Head
  | [] => []
  | (_, p) :: rest => p.literals ++ literalsFields rest

end

theorem literalsList_eq (ps : List Pat) : literalsList ps = ps.flatMap literals := by
  induction ps with
  | nil => rfl
  | cons p ps ih => rw [literalsList, ih, List.flatMap_cons]

theorem literalsFields_eq (fields : List (String × Pat)) :
    literalsFields fields = fields.flatMap fun field => field.2.literals := by
  induction fields with
  | nil => rfl
  | cons field rest ih => rw [literalsFields, ih, List.flatMap_cons]

theorem literals_arg {head : Head} {args : List Pat} {p : Pat} (hp : p ∈ args) :
    p.literals ⊆ (node head args).literals := by
  intro h hh
  rw [literals, literalsList_eq]
  exact List.mem_append_right _ (List.mem_flatMap.2 ⟨p, hp, hh⟩)

theorem literals_field {fields : List (String × Pat)} {field : String × Pat}
    (hfield : field ∈ fields) : field.2.literals ⊆ (record fields).literals := by
  intro h hh
  rw [literals, literalsFields_eq]
  exact List.mem_flatMap.2 ⟨field, hfield, hh⟩

mutual

theorem literals_choices {c : Pat} : ∀ p : Pat, c ∈ p.choices → c.literals ⊆ p.literals
  | any, hc => by
    rw [choices, List.mem_singleton] at hc
    rw [hc]
    exact List.Subset.refl _
  | node head args, hc => by
    rw [choices, List.mem_singleton] at hc
    rw [hc]
    exact List.Subset.refl _
  | record fields, hc => by
    rw [choices, List.mem_singleton] at hc
    rw [hc]
    exact List.Subset.refl _
  | either alternatives, hc => by
    rw [literals]
    exact literals_choicesList alternatives hc

theorem literals_choicesList {c : Pat} :
    ∀ ps : List Pat, c ∈ choicesList ps → c.literals ⊆ literalsList ps
  | [], hc => by simp [choicesList] at hc
  | p :: ps, hc => by
    rw [literalsList]
    rcases List.mem_append.1 hc with hc | hc
    · exact List.subset_append_of_subset_left _ (literals_choices p hc)
    · exact List.subset_append_of_subset_right _ (literals_choicesList ps hc)

end

mutual

theorem exists_choice_of_accepts {v : Value} :
    ∀ p : Pat, p.accepts v = true → ∃ c ∈ p.choices, c.accepts v = true
  | any, h => ⟨any, List.mem_singleton.2 rfl, h⟩
  | node head args, h => ⟨node head args, List.mem_singleton.2 rfl, h⟩
  | record fields, h => ⟨record fields, List.mem_singleton.2 rfl, h⟩
  | either alternatives, h => by
    rw [accepts] at h
    exact exists_choice_of_acceptsSome alternatives h

theorem exists_choice_of_acceptsSome {v : Value} :
    ∀ ps : List Pat, acceptsSome ps v = true → ∃ c ∈ choicesList ps, c.accepts v = true
  | [], h => by simp [acceptsSome] at h
  | p :: ps, h => by
    rw [acceptsSome, Bool.or_eq_true] at h
    rcases h with h | h
    · obtain ⟨c, hc, h⟩ := exists_choice_of_accepts p h
      exact ⟨c, List.mem_append_left _ hc, h⟩
    · obtain ⟨c, hc, h⟩ := exists_choice_of_acceptsSome ps h
      exact ⟨c, List.mem_append_right _ hc, h⟩

end

mutual

theorem ne_either_of_mem_choices {alternatives : List Pat} :
    ∀ p : Pat, either alternatives ∉ p.choices
  | any => by simp [choices]
  | node head args => by simp [choices]
  | record fields => by simp [choices]
  | either others => ne_either_of_mem_choicesList others

theorem ne_either_of_mem_choicesList {alternatives : List Pat} :
    ∀ ps : List Pat, either alternatives ∉ choicesList ps
  | [] => by simp [choicesList]
  | p :: ps => by
    rw [choicesList, List.mem_append, not_or]
    exact ⟨ne_either_of_mem_choices p, ne_either_of_mem_choicesList ps⟩

end

end Pat

namespace Coverage

open Pat

theorem exists_fresh {f : Nat → Head} {bound : Nat}
    (inj : ∀ i < bound, ∀ j < bound, f i = f j → i = j) {used : List Head}
    (h : used.length < bound) : ∃ i < bound, f i ∉ used := by
  by_contra all
  push Not at all
  have nodup : ((List.range bound).map f).Nodup :=
    List.Nodup.map_on (fun i hi j hj => inj i (List.mem_range.1 hi) j (List.mem_range.1 hj))
      List.nodup_range
  have subset : (List.range bound).map f ⊆ used := by
    intro head hhead
    obtain ⟨i, hi, rfl⟩ := List.mem_map.1 hhead
    exact all i (List.mem_range.1 hi)
  have := (List.subperm_of_subset nodup subset).length_le
  rw [List.length_map, List.length_range] at this
  omega

theorem exists_literal {env : Env} {t : Ty} {used : List Head} (h : used.length < 2 ^ 63)
    {name : String} (mem : name ∈ ["Int", "Float", "String"]) (named : t.isNamed name) :
    ∃ head, Built env t head [] ∧ head.isLiteral = true ∧ head ∉ used ∧
      ∃ v : Value, v.view = some (head, []) := by
  simp only [List.mem_cons, List.not_mem_nil, or_false] at mem
  rcases mem with rfl | rfl | rfl
  · obtain ⟨i, hi, fresh⟩ := exists_fresh (f := fun i => .int i)
      (fun i _ j _ h => Int.ofNat.inj (Head.int.inj h)) h
    exact ⟨_, .int named (by omega) (by omega), rfl, fresh, .int i, rfl⟩
  · obtain ⟨i, hi, fresh⟩ := exists_fresh (f := fun i => .float ⟨UInt64.ofNat i⟩)
      (fun i hi j hj h => by
        have bits : UInt64.ofNat i = UInt64.ofNat j := by simpa using h
        have := congrArg UInt64.toNat bits
        rw [UInt64.toNat_ofNat', UInt64.toNat_ofNat'] at this
        omega) h
    exact ⟨_, .float named, rfl, fresh, .float _, rfl⟩
  · obtain ⟨i, hi, fresh⟩ := exists_fresh
      (f := fun i => .string (String.ofList (List.replicate i 'a')))
      (fun i _ j _ h => by simpa using congrArg String.length (Head.string.inj h)) h
    exact ⟨_, .string named, rfl, fresh, .string _, rfl⟩

/-! ## Rows -/

def Confined (used : List Head) (rows : List Row) : Prop :=
  ∀ row ∈ rows, ∀ p ∈ row, p.literals ⊆ used

section Rows

variable {env : Env} {rows : List Row} {row : Row} {t : Ty} {rest : List Ty} {used : List Head}

theorem exists_splitRow_of_accepts {vs : List Value} (hrow : row ∈ rows)
    (h : acceptsAll row vs = true) : ∃ row ∈ splitRows rows, acceptsAll row vs = true := by
  cases row with
  | nil => exact ⟨[], List.mem_flatMap.2 ⟨[], hrow, List.mem_singleton.2 rfl⟩, h⟩
  | cons p others =>
    cases vs with
    | nil => simp [acceptsAll] at h
    | cons v vs =>
      rw [acceptsAll_cons] at h
      obtain ⟨c, hc, haccepts⟩ := exists_choice_of_accepts p h.1
      refine ⟨c :: others, List.mem_flatMap.2 ⟨_, hrow, List.mem_map.2 ⟨c, hc, rfl⟩⟩, ?_⟩
      exact acceptsAll_cons.2 ⟨haccepts, h.2⟩

theorem confined_splitRows (h : Confined used rows) : Confined used (splitRows rows) := by
  intro row hrow p hp
  obtain ⟨given, hgiven, hrow⟩ := List.mem_flatMap.1 hrow
  cases given with
  | nil =>
    rw [splitRow, List.mem_singleton] at hrow
    simp [hrow] at hp
  | cons first others =>
    obtain ⟨c, hc, rfl⟩ := List.mem_map.1 hrow
    rcases List.mem_cons.1 hp with rfl | hp
    · exact List.Subset.trans (literals_choices first hc) (h _ hgiven first List.mem_cons_self)
    · exact h _ hgiven p (List.mem_cons_of_mem _ hp)

theorem not_either_of_mem_splitRows {alternatives : List Pat} {others : Row} :
    .either alternatives :: others ∉ splitRows rows := by
  intro hrow
  obtain ⟨given, -, hrow⟩ := List.mem_flatMap.1 hrow
  cases given with
  | nil => simp [splitRow] at hrow
  | cons first rest =>
    obtain ⟨c, hc, heq⟩ := List.mem_map.1 hrow
    obtain ⟨rfl, -⟩ := List.cons.inj heq
    exact ne_either_of_mem_choices first hc

theorem confined_specializeRows {head : Head} {arity : Nat} (h : Confined used rows) :
    Confined used (specializeRows head arity rows) := by
  intro out hout p hp
  obtain ⟨row, hrow, hs⟩ := List.mem_filterMap.1 hout
  have resized {args : List Pat} (hargs : ∀ q ∈ args, q.literals ⊆ used) {others : Row}
      (hothers : ∀ q ∈ others, q.literals ⊆ used) (hp : p ∈ resize arity args ++ others) :
      p.literals ⊆ used := by
    simp only [resize, List.mem_append, List.mem_replicate] at hp
    rcases hp with (hp | ⟨-, rfl⟩) | hp
    · exact hargs p (List.mem_of_mem_take hp)
    · simp [literals]
    · exact hothers p hp
  cases row with
  | nil => simp [specialize] at hs
  | cons first others =>
    have hfirst := h _ hrow first List.mem_cons_self
    have hothers : ∀ q ∈ others, q.literals ⊆ used := fun q hq =>
      h _ hrow q (List.mem_cons_of_mem _ hq)
    cases first with
    | any =>
      obtain rfl := Option.some.inj hs
      rcases List.mem_append.1 hp with hp | hp
      · rw [List.eq_of_mem_replicate hp]
        simp [literals]
      · exact hothers p hp
    | node other args =>
      simp only [specialize] at hs
      split at hs
      · obtain rfl := Option.some.inj hs
        exact resized (fun q hq => List.Subset.trans (literals_arg hq) hfirst) hothers hp
      · simp at hs
    | record fields =>
      simp only [specialize] at hs
      split at hs
      · obtain rfl := Option.some.inj hs
        refine resized (fun q hq => ?_) hothers hp
        obtain ⟨name, -, rfl⟩ := List.mem_map.1 hq
        cases hget : Assoc.get? fields name with
        | none => simp [literals]
        | some q => exact List.Subset.trans (literals_field (Assoc.mem_of_get? hget)) hfirst
      · simp at hs
    | either alternatives => simp [specialize] at hs

theorem mem_passRows {out : Row} : out ∈ passRows rows ↔ .any :: out ∈ rows := by
  rw [passRows, List.mem_filterMap]
  constructor
  · rintro ⟨row, hrow, h⟩
    unfold passRow at h
    split at h
    · exact Option.some.inj h ▸ hrow
    · simp at h
  · exact fun h => ⟨_, h, rfl⟩

end Rows

/-! ## Values with a given head -/

theorem Built.ne_record {env : Env} {t : Ty} {head : Head} {types : List Ty}
    (h : Built env t head types) (names : List String) : head ≠ .record names := by
  cases h <;> exact Head.noConfusion

theorem Built.exists_view {env : Env} {t : Ty} {head : Head} {types : List Ty}
    (h : Built env t head types) {parts : List Value} (hlength : parts.length = types.length) :
    ∃ v : Value, v.view = some (head, parts) := by
  cases h with
  | tuple ht => exact ⟨.tuple parts, by rw [Value.view, hlength]⟩
  | variant halts mem => exact ⟨.constructor _ parts, rfl⟩
  | cons named he =>
    obtain ⟨v, vs, rfl⟩ := List.length_eq_two.1 hlength
    exact ⟨.cons v vs, rfl⟩
  | int =>
    obtain rfl := List.eq_nil_of_length_eq_zero hlength
    exact ⟨.int _, rfl⟩
  | float =>
    obtain rfl := List.eq_nil_of_length_eq_zero hlength
    exact ⟨.float _, rfl⟩
  | string =>
    obtain rfl := List.eq_nil_of_length_eq_zero hlength
    exact ⟨.string _, rfl⟩
  | bool =>
    obtain rfl := List.eq_nil_of_length_eq_zero hlength
    exact ⟨.bool _, rfl⟩
  | unit =>
    obtain rfl := List.eq_nil_of_length_eq_zero hlength
    exact ⟨.unit, rfl⟩
  | nil =>
    obtain rfl := List.eq_nil_of_length_eq_zero hlength
    exact ⟨.nil, rfl⟩

theorem describes_fields {fields : List (String × Value)} {names : List String}
    {parts : List Value} {cases : List MissingCase}
    (hparts : List.Forall₂ (fun name part => Assoc.get? fields name = some part) names parts)
    (h : List.Forall₂ MissingCase.Describes cases parts) :
    ∀ field ∈ names.zip cases, ∃ v, Assoc.get? fields field.1 = some v ∧ field.2.Describes v := by
  induction hparts generalizing cases with
  | nil => simp
  | cons hget _ ih =>
    cases h with
    | cons first others =>
      simp only [List.zip_cons_cons, List.forall_mem_cons]
      exact ⟨⟨_, hget, first⟩, ih others⟩

theorem describes_caseOf {v : Value} {head : Head} {parts : List Value} {cases : List MissingCase}
    (shows : Shows v head parts) (h : List.Forall₂ MissingCase.Describes cases parts) :
    (caseOf head cases).Describes v := by
  cases head with
  | record names =>
    obtain ⟨fields, rfl, hparts⟩ := shows
    have described := describes_fields hparts h
    refine .record (fun field hfield => ?_) fun field hfield v hv => ?_
    · obtain ⟨v, hv, -⟩ := described field hfield
      simp [hv]
    · obtain ⟨w, hw, hd⟩ := described field hfield
      rw [hw] at hv
      exact Option.some.inj hv ▸ hd
  | int | float | string => exact .any
  | variant name =>
    cases v with
    | constructor other args =>
      obtain ⟨rfl, rfl⟩ : other = name ∧ args = parts := by simpa [Shows, Value.view] using shows
      exact .constructor h
    | _ => simp [Shows, Value.view] at shows
  | tuple arity =>
    cases v with
    | tuple elements =>
      obtain ⟨-, rfl⟩ : elements.length = arity ∧ elements = parts := by
        simpa [Shows, Value.view] using shows
      exact .tuple h
    | _ => simp [Shows, Value.view] at shows
  | cons =>
    cases v with
    | cons first others =>
      obtain rfl : [first, others] = parts := by simpa [Shows, Value.view] using shows
      obtain ⟨c, d, rfl⟩ := List.length_eq_two.1 h.length_eq
      simp only [List.forall₂_cons] at h
      exact .cons h.1 h.2.1
    | _ => simp [Shows, Value.view] at shows
  | bool value =>
    cases v with
    | bool other =>
      obtain ⟨rfl, -⟩ : other = value ∧ [] = parts := by simpa [Shows, Value.view] using shows
      exact .bool
    | _ => simp [Shows, Value.view] at shows
  | unit =>
    cases v with
    | unit => exact .unit
    | _ => simp [Shows, Value.view] at shows
  | nil =>
    cases v with
    | nil => exact .nil
    | _ => simp [Shows, Value.view] at shows

theorem built_of_mem_signature? {env : Env} (regular : Regular env) {t : Ty} {rows : List Row}
    {rest : List Ty} {all : List Head} (typed : RowsTyped env rows (t :: rest))
    (h : signature? env (env.unfold t) rows = some all) {head : Head} (mem : head ∈ all) :
    (∃ names, head = .record names ∧ columnFields? rows = some names) ∨
      Built env (env.unfold t) head (partTypes env (env.unfold t) head) := by
  have found {types : List Ty} (built : Built env (env.unfold t) head types) :
      Built env (env.unfold t) head (partTypes env (env.unfold t) head) :=
    built.partTypes regular ▸ built
  unfold signature? at h
  split at h
  · rename_i names hnames
    obtain rfl := Option.some.inj h
    exact .inl ⟨names, List.mem_singleton.1 mem, hnames⟩
  · rename_i arity harity
    obtain rfl := Option.some.inj h
    obtain rfl := List.mem_singleton.1 mem
    obtain ⟨args, others, hrow⟩ := tupleArity?_eq_some harity
    cases typed _ hrow with
    | cons first =>
      cases first with
      | node built => exact .inr (found built)
  · rename_i elements ht
    obtain rfl := Option.some.inj h
    obtain rfl := List.mem_singleton.1 mem
    exact .inr (found (.tuple ht))
  · refine .inr ?_
    split at h
    · rename_i named
      obtain rfl := Option.some.inj h
      simp only [List.mem_cons, List.not_mem_nil, or_false] at mem
      rcases mem with rfl | rfl
      · exact found (.bool named)
      · exact found (.bool named)
    split at h
    · rename_i named
      obtain rfl := Option.some.inj h
      obtain rfl := List.mem_singleton.1 mem
      exact found (.unit named)
    split at h
    · rename_i named
      obtain rfl := Option.some.inj h
      simp only [List.mem_cons, List.not_mem_nil, or_false] at mem
      rcases mem with rfl | rfl
      · exact found (.nil named)
      · exact found (.cons named rfl)
    · obtain ⟨alternatives, halts, rfl⟩ := Option.map_eq_some_iff.1 h
      obtain ⟨a, ha, rfl⟩ := List.mem_map.1 mem
      exact found (.variant halts ha)

/-! ## A column that is passed over -/

theorem exists_values {env : Env} {types : List Ty} (h : ∀ u ∈ types, ∃ v, HasType env v u) :
    ∃ vs, List.Forall₂ (HasType env) vs types := by
  induction types with
  | nil => exact ⟨[], .nil⟩
  | cons t types ih =>
    obtain ⟨⟨v, hv⟩, others⟩ := List.forall_mem_cons.1 h
    obtain ⟨vs, hvs⟩ := ih others
    exact ⟨v :: vs, .cons hv hvs⟩

theorem plan_eq_pass {env : Env} {t : Ty} {rows : List Row} {first : MissingCase}
    (h : plan env t rows = .pass first) :
    (signature? env t rows = none ∧ first = .any) ∨
    (rows.filterMap firstHead? = [] ∧ first = .any) ∨
    ∃ all head, signature? env t rows = some all ∧ head ∈ all ∧
      covered (rows.filterMap firstHead?) head = false ∧
      first = caseOf head ((partTypes env t head).map fun _ => .any) := by
  simp only [plan] at h
  split at h
  · rename_i hnone
    exact .inl ⟨hnone, (Plan.pass.inj h).symm⟩
  rename_i all hall
  split at h
  · simp at h
  rename_i hsplit
  split at h
  · rename_i hempty
    exact .inr (.inl ⟨List.isEmpty_iff.1 hempty, (Plan.pass.inj h).symm⟩)
  rename_i hheads
  split at h
  · rename_i head hfind
    refine .inr (.inr ⟨all, head, hall, List.mem_of_find?_eq_some hfind, ?_,
      (Plan.pass.inj h).symm⟩)
    simpa using List.find?_some hfind
  · -- All heads are covered, so all rows start with a wildcard, and there are no heads.
    rename_i hfind
    have allCovered : all.all (covered (rows.filterMap firstHead?)) = true := by
      rw [List.all_eq_true]
      intro head hhead
      simpa using List.find?_eq_none.1 hfind head hhead
    rw [allCovered, Bool.and_true, Bool.not_eq_true', Bool.not_eq_false, List.all_eq_true] at hsplit
    refine .inr (.inl ⟨List.filterMap_eq_nil_iff.2 fun row hrow => ?_, (Plan.pass.inj h).symm⟩)
    have := hsplit row hrow
    unfold startsAny at this
    split at this
    · rfl
    · rfl
    · simp at this

theorem not_record_of_pass {env : Env} {t : Ty} {rows : List Row} {first : MissingCase}
    (h : plan env t rows = .pass first) {fields : List (String × Pat)} {others : Row} :
    .record fields :: others ∉ rows := by
  intro hrow
  obtain ⟨names, hnames⟩ : ∃ names, columnFields? rows = some names := by
    have nonempty : Assoc.keys fields ∈ rows.filterMap firstFields? :=
      List.mem_filterMap.2 ⟨_, hrow, rfl⟩
    simp only [columnFields?]
    split
    · rename_i hempty
      rw [List.isEmpty_iff.1 hempty] at nonempty
      simp at nonempty
    · exact ⟨_, rfl⟩
  have signature : signature? env t rows = some [.record names] := by
    unfold signature?
    rw [hnames]
  have some : rows.all startsAny = false :=
    List.all_eq_false.2 ⟨_, hrow, by simp [startsAny]⟩
  simp [plan, signature, some, covered] at h

section Pass

variable {env : Env} {rows : List Row} {row : Row} {t : Ty} {v : Value} {vs : List Value}

theorem startsAny_of_fresh {head : Head} {parts : List Value} (view : v.view = some (head, parts))
    (fresh : head ∉ (splitRows rows).filterMap firstHead?) (hrow : row ∈ splitRows rows)
    (h : acceptsAll row (v :: vs) = true) : ∃ others, row = .any :: others := by
  cases row with
  | nil => simp [acceptsAll] at h
  | cons p others =>
    rw [acceptsAll_cons] at h
    cases p with
    | any => exact ⟨others, rfl⟩
    | node other args =>
      simp only [accepts, view, Bool.and_eq_true, decide_eq_true_eq] at h
      exact absurd (List.mem_filterMap.2 ⟨_, hrow, by rw [firstHead?, h.1.1]⟩) fresh
    | record fields =>
      cases v with
      | record => simp [Value.view] at view
      | _ => simp [accepts] at h
    | either alternatives => exact absurd hrow not_either_of_mem_splitRows

theorem startsAny_of_unheaded (heads : (splitRows rows).filterMap firstHead? = [])
    (records : ∀ fields others, .record fields :: others ∉ splitRows rows)
    (hrow : row ∈ splitRows rows) (h : acceptsAll row (v :: vs) = true) :
    ∃ others, row = .any :: others := by
  cases row with
  | nil => simp [acceptsAll] at h
  | cons p others =>
    cases p with
    | any => exact ⟨others, rfl⟩
    | node head args =>
      have : head ∈ (splitRows rows).filterMap firstHead? := List.mem_filterMap.2 ⟨_, hrow, rfl⟩
      rw [heads] at this
      simp at this
    | record fields => exact absurd hrow (records fields others)
    | either alternatives => exact absurd hrow not_either_of_mem_splitRows

theorem named_of_signature?_none {rest : List Ty} {head : Head}
    (typed : RowsTyped env rows (t :: rest)) (h : signature? env (env.unfold t) rows = none)
    (hhead : head ∈ rows.filterMap firstHead?) :
    ∃ name ∈ ["Int", "Float", "String"], (env.unfold t).isNamed name := by
  obtain ⟨row, hrow, hfirst⟩ := List.mem_filterMap.1 hhead
  unfold firstHead? at hfirst
  split at hfirst
  · rename_i other args others
    cases typed _ hrow with
    | cons first =>
      cases first with
      | node built =>
        unfold signature? at h
        split at h
        · simp at h
        · simp at h
        · simp at h
        · rename_i notTuple
          split at h
          · simp at h
          split at h
          · simp at h
          split at h
          · simp at h
          rename_i notBool notUnit notList
          rcases built.origin with ⟨name, mem, named⟩ | ⟨elements, ht, -⟩ | ⟨alternatives, halts, -⟩
          · simp only [List.mem_cons, List.not_mem_nil, or_false] at mem
            rcases mem with rfl | rfl | rfl | rfl | rfl | rfl
            · exact ⟨_, by simp, named⟩
            · exact ⟨_, by simp, named⟩
            · exact ⟨_, by simp, named⟩
            · exact absurd named notBool
            · exact absurd named notUnit
            · exact absurd named notList
          · exact absurd ht (notTuple elements)
          · simp [halts] at h
  · simp at hfirst

theorem exists_passed (regular : Regular env) {used : List Head} (hused : used.length < 2 ^ 63)
    (confined : Confined used (splitRows rows)) {rest : List Ty}
    (typed : RowsTyped env (splitRows rows) (t :: rest)) (inhabited : ∃ v, HasType env v t)
    (parts : ∀ head types, Built env (env.unfold t) head types →
      ∀ u ∈ types, ∃ v, HasType env v u)
    {first : MissingCase} (h : plan env (env.unfold t) (splitRows rows) = .pass first) :
    ∃ v, HasType env v t ∧ first.Describes v ∧ ∀ row ∈ splitRows rows, ∀ vs,
      acceptsAll row (v :: vs) = true → ∃ others, row = .any :: others := by
  have unheaded (heads : (splitRows rows).filterMap firstHead? = []) :
      ∃ v, HasType env v t ∧ MissingCase.any.Describes v ∧ ∀ row ∈ splitRows rows, ∀ vs,
        acceptsAll row (v :: vs) = true → ∃ others, row = .any :: others := by
    obtain ⟨v, hv⟩ := inhabited
    exact ⟨v, hv, .any, fun row hrow vs =>
      startsAny_of_unheaded heads (fun _ _ => not_record_of_pass h) hrow⟩
  rcases plan_eq_pass h with ⟨hnone, rfl⟩ | ⟨heads, rfl⟩ | ⟨all, head, hall, mem, hcovered, rfl⟩
  · by_cases heads : (splitRows rows).filterMap firstHead? = []
    · exact unheaded heads
    · obtain ⟨other, hother⟩ := List.exists_mem_of_ne_nil _ heads
      -- Literals: there are more of them than the rows can mention.
      obtain ⟨name, hname, named⟩ := named_of_signature?_none typed hnone hother
      obtain ⟨head, built, literal, fresh, v, view⟩ := @exists_literal env _ used hused _ hname named
      refine ⟨v, .built view built .nil, .any, fun row hrow vs => startsAny_of_fresh view ?_ hrow⟩
      intro hhead
      obtain ⟨row, hrow, hfirst⟩ := List.mem_filterMap.1 hhead
      unfold firstHead? at hfirst
      split at hfirst
      · obtain rfl := Option.some.inj hfirst
        refine fresh (confined _ hrow _ List.mem_cons_self ?_)
        simp [literals, literal]
      · simp at hfirst
  · exact unheaded heads
  · rcases built_of_mem_signature? regular typed hall mem with ⟨names, rfl, -⟩ | built
    · simp [covered] at hcovered
    · obtain ⟨vs, hvs⟩ := exists_values (parts head _ built)
      obtain ⟨v, view⟩ := built.exists_view hvs.length_eq
      refine ⟨v, .built view built hvs, describes_caseOf (shows_of_view view) ?_,
        fun row hrow vs => startsAny_of_fresh view (fun hhead => ?_) hrow⟩
      · rw [List.forall₂_map_left_iff]
        exact hvs.flip.imp fun _ _ _ => .any
      · have : covered ((splitRows rows).filterMap firstHead?) head = true := by
          cases head with
          | record names => rfl
          | _ => simpa [covered] using hhead
        rw [hcovered] at this
        exact Bool.noConfusion this

end Pass

/-! ## A column that is split -/

theorem acceptsAll_replicate_any (vs : List Value) :
    acceptsAll (List.replicate vs.length .any) vs = true := by
  induction vs with
  | nil => rfl
  | cons v vs ih => exact acceptsAll_cons.2 ⟨rfl, ih⟩

theorem length_of_acceptsAll {ps : List Pat} {vs : List Value} (h : acceptsAll ps vs = true) :
    ps.length = vs.length := by
  induction ps generalizing vs with
  | nil =>
    cases vs with
    | nil => rfl
    | cons v vs => simp [acceptsAll] at h
  | cons p ps ih =>
    cases vs with
    | nil => simp [acceptsAll] at h
    | cons v vs =>
      rw [List.length_cons, List.length_cons, ih (acceptsAll_cons.1 h).2]

theorem accepts_of_acceptsFields {fields : List (String × Pat)} {parts : List (String × Value)}
    (h : acceptsFields fields parts = true) {field : String × Pat} (hfield : field ∈ fields)
    {v : Value} (hv : Assoc.get? parts field.1 = some v) : field.2.accepts v = true := by
  induction fields with
  | nil => simp at hfield
  | cons first fields ih =>
    obtain ⟨name, p⟩ := first
    rw [acceptsFields, Bool.and_eq_true] at h
    rcases List.mem_cons.1 hfield with rfl | hfield
    · simpa [hv] using h.1
    · exact ih h.2 hfield

theorem acceptsAll_lookup {fields : List (String × Pat)} {parts : List (String × Value)}
    {names : List String} {values : List Value} (h : acceptsFields fields parts = true)
    (hvalues : List.Forall₂ (fun name v => Assoc.get? parts name = some v) names values) :
    acceptsAll (names.map fun name => (Assoc.get? fields name).getD .any) values = true := by
  induction hvalues with
  | nil => rfl
  | @cons name v _ _ hv _ ih =>
    refine acceptsAll_cons.2 ⟨?_, ih⟩
    beta_reduce
    cases hp : Assoc.get? fields name with
    | none => rfl
    | some p => exact accepts_of_acceptsFields h (Assoc.mem_of_get? hp) hv

theorem specialize_of_accepts {head : Head} {row : Row} {v : Value} {parts vs : List Value}
    (shows : Shows v head parts) (single : ∀ alternatives others, row ≠ .either alternatives :: others)
    (h : acceptsAll row (v :: vs) = true) :
    ∃ out, specialize head parts.length row = some out ∧ acceptsAll out (parts ++ vs) = true := by
  cases row with
  | nil => simp [acceptsAll] at h
  | cons p others =>
    obtain ⟨hp, hothers⟩ := acceptsAll_cons.1 h
    cases p with
    | any =>
      refine ⟨_, rfl, (acceptsAll_append (by simp)).2 ⟨acceptsAll_replicate_any parts, hothers⟩⟩
    | node other args =>
      have view : v.view = some (head, parts) := by
        cases head with
        | record names =>
          obtain ⟨fields, rfl, -⟩ := shows
          simp [accepts, Value.view] at hp
        | _ => exact shows
      simp only [accepts, view, Bool.and_eq_true, decide_eq_true_eq] at hp
      obtain ⟨rfl, hargs⟩ := hp
      have hlength := length_of_acceptsAll hargs
      refine ⟨resize parts.length args ++ others, by simp [specialize], ?_⟩
      rw [resize_of_length hlength]
      exact (acceptsAll_append hlength).2 ⟨hargs, hothers⟩
    | record fields =>
      cases v with
      | record recorded =>
        cases head with
        | record names =>
          obtain ⟨given, heq, hparts⟩ := shows
          cases heq
          refine ⟨_, rfl, ?_⟩
          have hlength : (names.map fun name => (Assoc.get? fields name).getD Pat.any).length =
              parts.length := by
            rw [List.length_map, hparts.length_eq]
          rw [resize_of_length hlength]
          exact (acceptsAll_append hlength).2 ⟨acceptsAll_lookup hp hparts, hothers⟩
        | _ => simp [Shows, Value.view] at shows
      | _ => simp [accepts] at hp
    | either alternatives => exact absurd rfl (single alternatives others)

theorem get?_append {α : Type} (entries later : List (String × α)) (name : String) :
    Assoc.get? (entries ++ later) name = (Assoc.get? entries name).or (Assoc.get? later name) := by
  induction entries with
  | nil => rfl
  | cons entry entries ih =>
    rw [List.cons_append, Assoc.get?, Assoc.get?, ih]
    split <;> rfl

theorem get?_zip {names : List String} {parts : List Value} (distinct : names.Nodup)
    (hlength : names.length = parts.length) :
    List.Forall₂ (fun name part => Assoc.get? (names.zip parts) name = some part) names parts := by
  induction names generalizing parts with
  | nil =>
    obtain rfl := List.eq_nil_of_length_eq_zero hlength.symm
    exact .nil
  | cons name names ih =>
    cases parts with
    | nil => simp at hlength
    | cons part parts =>
      obtain ⟨fresh, distinct⟩ := List.nodup_cons.1 distinct
      refine .cons (by simp [Assoc.get?]) ?_
      have others := ih distinct (by simpa using hlength)
      refine List.forall₂_iff_zip.2 ⟨others.length_eq, fun {other p} hmem => ?_⟩
      have hne : name ≠ other := fun heq => fresh (heq ▸ (List.of_mem_zip hmem).1)
      rw [List.zip_cons_cons, Assoc.get?, if_neg hne]
      exact (List.forall₂_iff_zip.1 others).2 hmem

theorem hasType_of_get?_zip {env : Env} {names : List String} {parts : List Value}
    {declared : List (String × Ty)}
    (typed : List.Forall₂ (HasType env) parts
      (names.map fun name => (Assoc.get? declared name).getD unknown))
    {name : String} {type : Ty} {part : Value} (htype : Assoc.get? declared name = some type)
    (hpart : Assoc.get? (names.zip parts) name = some part) : HasType env part type := by
  induction names generalizing parts with
  | nil => simp at hpart
  | cons first names ih =>
    cases typed with
    | @cons v _ vs _ hv hvs =>
      rw [List.zip_cons_cons, Assoc.get?] at hpart
      split at hpart
      · rename_i heq
        cases hpart
        simpa only [heq, htype, Option.getD_some] using hv
      · exact ih hvs hpart

theorem get?_map_pair {α : Type} (f : String → α) {names : List String} {name : String}
    (h : name ∈ names) : Assoc.get? (names.map fun name => (name, f name)) name = some (f name) := by
  induction names with
  | nil => simp at h
  | cons first names ih =>
    rw [List.map_cons, Assoc.get?]
    split
    · rename_i heq
      rw [heq]
    · rename_i hne
      exact ih ((List.mem_cons.1 h).resolve_left fun heq => hne heq.symm)

theorem exists_record {env : Env} {t : Ty} {declared : List (String × Ty)}
    (hdeclared : env.recordFields (env.unfold t) = some declared)
    (fields : ∀ name type, Assoc.get? declared name = some type → ∃ v, HasType env v type)
    {names : List String} (distinct : names.Nodup) {parts : List Value}
    (typed : List.Forall₂ (HasType env) parts (partTypes env (env.unfold t) (.record names))) :
    ∃ v, HasType env v t ∧ Shows v (.record names) parts := by
  simp only [partTypes, hdeclared, Option.getD_some] at typed
  have hlength : names.length = parts.length := by
    rw [typed.length_eq, List.length_map]
  have pick (name : String) :
      ∃ v, ∀ type, Assoc.get? declared name = some type → HasType env v type := by
    cases h : Assoc.get? declared name with
    | none => exact ⟨.unit, by simp⟩
    | some type =>
      obtain ⟨v, hv⟩ := fields name type h
      exact ⟨v, by simpa using hv⟩
  -- Fields that the pattern does not name get any value of their type.
  choose filler hfiller using pick
  let others := (Assoc.keys declared).map fun name => (name, filler name)
  have other {name : String} {type : Ty} (h : Assoc.get? declared name = some type) :
      Assoc.get? others name = some (filler name) :=
    get?_map_pair filler (List.mem_map.2 ⟨_, Assoc.mem_of_get? h, rfl⟩)
  refine ⟨.record (names.zip parts ++ others), .record hdeclared ?_ ?_, _, rfl, ?_⟩
  · intro name type htype
    rw [get?_append, other htype]
    cases Assoc.get? (names.zip parts) name <;> simp
  · intro name type part htype hpart
    rw [get?_append, other htype] at hpart
    cases hget : Assoc.get? (names.zip parts) name with
    | none =>
      simp only [hget, Option.none_or, Option.some.injEq] at hpart
      exact hpart ▸ hfiller name type htype
    | some v =>
      simp only [hget, Option.some_or, Option.some.injEq] at hpart
      exact hasType_of_get?_zip typed htype (hpart ▸ hget)
  · exact (get?_zip distinct hlength).imp fun name part h => by rw [get?_append, h, Option.some_or]

/-- The types of the parts that values of a type can have, at any depth. -/
inductive Part (env : Env) (t : Ty) : Ty → Prop
  | self : Part env t t
  | built {u part : Ty} {head : Head} {types : List Ty} (whole : Part env t u)
    (built : Built env (env.unfold u) head types) (mem : part ∈ types) : Part env t part
  | field {u part : Ty} {declared : List (String × Ty)} {name : String} (whole : Part env t u)
    (hdeclared : env.recordFields (env.unfold u) = some declared)
    (hpart : Assoc.get? declared name = some part) : Part env t part

theorem Part.trans {env : Env} {t u part : Ty} (h : Part env t u) (hpart : Part env u part) :
    Part env t part := by
  induction hpart with
  | self => exact h
  | built _ built mem ih => exact .built ih built mem
  | field _ hdeclared hpart ih => exact .field ih hdeclared hpart

section Split

variable {env : Env} {t : Ty} {rows : List Row} {rest : List Ty} {all : List Head} {head : Head}

theorem declared_of_mem_signature? (regular : Regular env) (typed : RowsTyped env rows (t :: rest))
    (h : signature? env (env.unfold t) rows = some all) (mem : head ∈ all) :
    Declared env (env.unfold t) rows head := by
  rcases signature?_cases regular typed h with
    ⟨names, declared, hcolumn, rfl, hdeclared, hnames⟩ | ⟨hnone, -, -⟩
  · obtain rfl := List.mem_singleton.1 mem
    exact ⟨hcolumn, declared, hdeclared, hnames⟩
  · rcases built_of_mem_signature? regular typed h mem with ⟨names, rfl, hnames⟩ | built
    · obtain ⟨⟨fields, others, hrow⟩, -⟩ := columnFields?_eq_some hnames
      cases typed _ hrow with
      | cons first =>
        cases first with
        | record hdeclared => simp [hnone] at hdeclared
    · cases head with
      | record names => exact absurd rfl (built.ne_record names)
      | _ => trivial

theorem part_of_mem_partTypes (regular : Regular env) (typed : RowsTyped env rows (t :: rest))
    (h : signature? env (env.unfold t) rows = some all) (mem : head ∈ all) :
    ∀ u ∈ partTypes env (env.unfold t) head, Part env t u := by
  intro u hu
  rcases built_of_mem_signature? regular typed h mem with ⟨names, rfl, -⟩ | built
  · obtain ⟨-, declared, hdeclared, hnames⟩ := declared_of_mem_signature? regular typed h mem
    simp only [partTypes, hdeclared, Option.getD_some] at hu
    obtain ⟨name, hname, rfl⟩ := List.mem_map.1 hu
    obtain ⟨type, htype⟩ := Option.isSome_iff_exists.1 (hnames name hname)
    rw [htype]
    exact .field .self hdeclared htype
  · exact .built .self built hu

theorem exists_shows (regular : Regular env) (typed : RowsTyped env rows (t :: rest))
    (h : signature? env (env.unfold t) rows = some all) (mem : head ∈ all)
    (inhabited : ∀ u, Part env t u → ∃ v, HasType env v u) {parts : List Value}
    (hparts : List.Forall₂ (HasType env) parts (partTypes env (env.unfold t) head)) :
    ∃ v, HasType env v t ∧ Shows v head parts := by
  rcases built_of_mem_signature? regular typed h mem with ⟨names, rfl, -⟩ | built
  · obtain ⟨-, declared, hdeclared, -⟩ := declared_of_mem_signature? regular typed h mem
    exact exists_record hdeclared
      (fun name type htype => inhabited type (.field .self hdeclared htype))
      (distinct_of_signature? h _ mem) hparts
  · obtain ⟨v, view⟩ := built.exists_view hparts.length_eq
    exact ⟨v, .built view built hparts, shows_of_view view⟩

end Split

/-! ## The search -/

theorem missing_split_eq_some {env : Env} {rows : List Row} {t : Ty} {rest : List Ty}
    {heads : List (Head × List Ty)} {cases : List MissingCase}
    (hplan : plan env (env.unfold t) (splitRows rows) = .split heads)
    (h : missing env rows (t :: rest) = some cases) :
    ∃ head parts found, (head, parts) ∈ heads ∧
      missing env (specializeRows head parts.length (splitRows rows)) (parts ++ rest) =
        some found ∧ cases = rebuild head parts.length found := by
  rw [missing] at h
  split at h
  · rename_i others hothers
    rw [hplan] at hothers
    obtain rfl := Plan.split.inj hothers
    obtain ⟨⟨⟨head, parts⟩, mem⟩, -, hmap⟩ := List.exists_of_findSome?_eq_some h
    obtain ⟨found, hfound, heq⟩ := Option.map_eq_some_iff.1 hmap
    exact ⟨head, parts, found, mem, hfound, heq.symm⟩
  · rename_i first hfirst
    simp [hplan] at hfirst

theorem missing_pass_eq_some {env : Env} {rows : List Row} {t : Ty} {rest : List Ty}
    {first : MissingCase} {cases : List MissingCase}
    (hplan : plan env (env.unfold t) (splitRows rows) = .pass first)
    (h : missing env rows (t :: rest) = some cases) :
    ∃ found, missing env (passRows (splitRows rows)) rest = some found ∧ cases = first :: found := by
  rw [missing] at h
  split at h
  · rename_i heads hheads
    simp [hplan] at hheads
  · rename_i other hother
    rw [hplan] at hother
    obtain rfl := Plan.pass.inj hother
    obtain ⟨found, hfound, rfl⟩ := Option.map_eq_some_iff.1 h
    exact ⟨found, hfound, rfl⟩

theorem exists_append_of_forall₂ {env : Env} {values : List Value} {types rest : List Ty}
    (h : List.Forall₂ (HasType env) values (types ++ rest)) :
    ∃ parts vs, List.Forall₂ (HasType env) parts types ∧ List.Forall₂ (HasType env) vs rest ∧
      values = parts ++ vs := by
  refine ⟨values.take types.length, values.drop types.length, ?_, ?_,
    (List.take_append_drop _ _).symm⟩
  · simpa using List.forall₂_take types.length h
  · simpa using List.forall₂_drop types.length h

theorem forall_part_append {env : Env} {t : Ty} {types rest : List Ty}
    (h : ∀ u ∈ t :: rest, ∀ part, Part env u part → ∃ v, HasType env v part)
    (htypes : ∀ u ∈ types, Part env t u) :
    ∀ u ∈ types ++ rest, ∀ part, Part env u part → ∃ v, HasType env v part := by
  intro u hu part hpart
  rcases List.mem_append.1 hu with hu | hu
  · exact h t List.mem_cons_self part ((htypes u hu).trans hpart)
  · exact h u (List.mem_cons_of_mem _ hu) part hpart

/-- If the search finds a missing case, it describes values of the types of the columns that no row
matches. -/
theorem exists_values_of_missing {env : Env} (regular : Regular env) {used : List Head}
    (hused : used.length < 2 ^ 63) (rows : List Row) (columns : List Ty)
    (typed : RowsTyped env rows columns) (confined : Confined used rows)
    (inhabited : ∀ t ∈ columns, ∀ u, Part env t u → ∃ v, HasType env v u)
    {found : List MissingCase} (h : missing env rows columns = some found) :
    ∃ vs, List.Forall₂ (HasType env) vs columns ∧ List.Forall₂ MissingCase.Describes found vs ∧
      ∀ row ∈ rows, acceptsAll row vs = false := by
  induction rows, columns using missing.induct env generalizing found with
  | case1 rows empty =>
    simp only [missing, empty, if_true, Option.some.injEq] at h
    subst h
    exact ⟨[], .nil, .nil, by simp [List.isEmpty_iff.1 empty]⟩
  | case2 rows nonempty => simp [missing, nonempty] at h
  | case4 rows t rest first hplan ih =>
    obtain ⟨others, hothers, rfl⟩ := missing_pass_eq_some hplan h
    have split := rowsTyped_splitRows typed
    have confined' := confined_splitRows confined
    obtain ⟨here, later⟩ := List.forall_mem_cons.1 inhabited
    obtain ⟨v, hv, described, wild⟩ := exists_passed regular hused confined' split (here t .self)
      (fun head types built u hu => here u (.built .self built hu)) hplan
    have passed {out : Row} (hout : out ∈ passRows (splitRows rows)) :
        .any :: out ∈ splitRows rows := mem_passRows.1 hout
    obtain ⟨vs, hvs, hdescribed, unmatched⟩ := ih
      (fun out hout => by
        cases split _ (passed hout) with
        | cons _ hrest => exact hrest)
      (fun out hout p hp => confined' _ (passed hout) p (List.mem_cons_of_mem _ hp)) later hothers
    refine ⟨v :: vs, .cons hv hvs, .cons described hdescribed, fun row hrow => ?_⟩
    by_contra accepted
    obtain ⟨row, hrow, accepted⟩ :=
      exists_splitRow_of_accepts hrow (Bool.not_eq_false _ ▸ accepted)
    obtain ⟨out, rfl⟩ := wild row hrow vs accepted
    have := unmatched out (mem_passRows.2 hrow)
    rw [(acceptsAll_cons.1 accepted).2] at this
    exact Bool.noConfusion this
  | case3 rows t rest heads hplan ih =>
    obtain ⟨_, types, others, mem, hothers, rfl⟩ := missing_split_eq_some hplan h
    have split := rowsTyped_splitRows typed
    obtain ⟨all, hall, rfl⟩ := plan_eq_split hplan
    obtain ⟨head, hhead, heq⟩ := List.mem_map.1 mem
    obtain ⟨rfl, rfl⟩ := Prod.mk.inj heq
    have declared := declared_of_mem_signature? regular split hall hhead
    obtain ⟨found, hfound, hdescribed, unmatched⟩ := ih head _ mem
      (fun out hout => by
        obtain ⟨row, hrow, hs⟩ := List.mem_filterMap.1 hout
        exact wellTyped_specialize regular declared (split row hrow) hs)
      (confined_specializeRows (confined_splitRows confined))
      (forall_part_append inhabited (part_of_mem_partTypes regular split hall hhead)) hothers
    -- The first of the values found are the parts of the value of the column.
    obtain ⟨parts, vs, hparts, hvs, rfl⟩ := exists_append_of_forall₂ hfound
    obtain ⟨v, hv, shows⟩ := exists_shows regular split hall hhead
      (inhabited t List.mem_cons_self) hparts
    rw [← hparts.length_eq]
    refine ⟨v :: vs, .cons hv hvs, .cons (describes_caseOf shows ?_) ?_, fun row hrow => ?_⟩
    · simpa using List.forall₂_take parts.length hdescribed
    · simpa using List.forall₂_drop parts.length hdescribed
    · by_contra accepted
      obtain ⟨row, hrow, accepted⟩ :=
        exists_splitRow_of_accepts hrow (Bool.not_eq_false _ ▸ accepted)
      obtain ⟨out, hout, haccepts⟩ := specialize_of_accepts shows
        (fun alternatives rest heq => not_either_of_mem_splitRows (heq ▸ hrow)) accepted
      rw [hparts.length_eq] at hout
      have := unmatched out (List.mem_filterMap.2 ⟨row, hrow, hout⟩)
      rw [haccepts] at this
      exact Bool.noConfusion this

/-- A missing case is one case, and describes a value of the type of the scrutinee that no arm
without a guard matches. -/
theorem exists_unmatched_of_missingCase? {env : Env} (regular : Regular env) (scrutinee : Ty)
    (inhabited : ∀ t, Part env scrutinee t → ∃ v, HasType env v t) (arms : List (Pattern × Bool))
    (typed : ∀ arm ∈ arms, WellTyped env (Pat.lower arm.1) scrutinee)
    (few : (arms.flatMap fun arm => (Pat.lower arm.1).literals).length < 2 ^ 63)
    {found : MissingCase} (h : missingCase? env scrutinee arms = some found) :
    missing env ((arms.filter fun arm => !arm.2).map fun arm => [Pat.lower arm.1]) [scrutinee] =
        some [found] ∧
      ∃ v, HasType env v scrutinee ∧ found.Describes v ∧
        ∀ arm ∈ arms, arm.2 = false → (Pat.lower arm.1).accepts v = false := by
  obtain ⟨cases, hcases, hfirst⟩ := Option.bind_eq_some_iff.1 h
  have confined : Confined (arms.flatMap fun arm => (Pat.lower arm.1).literals)
      ((arms.filter fun arm => !arm.2).map fun arm => [Pat.lower arm.1]) := by
    intro row hrow p hp
    obtain ⟨arm, harm, rfl⟩ := List.mem_map.1 hrow
    obtain rfl := List.mem_singleton.1 hp
    exact fun head hhead => List.mem_flatMap.2 ⟨arm, (List.mem_filter.1 harm).1, hhead⟩
  obtain ⟨vs, hvs, described, unmatched⟩ := exists_values_of_missing regular few _ _
    (rowsTyped_arms typed) confined (List.forall_mem_singleton.2 inhabited) hcases
  cases hvs with
  | @cons v _ _ _ hv hnone =>
    cases hnone
    cases described with
    | @cons first _ _ _ described hnone =>
      cases hnone
      obtain rfl := Option.some.inj hfirst
      refine ⟨hcases, v, hv, described, fun arm harm unguarded => ?_⟩
      have := unmatched [Pat.lower arm.1]
        (List.mem_map.2 ⟨arm, List.mem_filter.2 ⟨harm, by simp [unguarded]⟩, rfl⟩)
      simpa [acceptsAll] using this

def guardedArms : List (Pattern × Bool) :=
  [(.either [.constructor ⟨"Some", {}⟩ [.literal (.int 1) {}] {},
      .constructor ⟨"None", {}⟩ [] {}] {}, false),
    (.constructor ⟨"Some", {}⟩ [.wild {}] {}, true)]

theorem exists_unmatched_guardedArms :
    missingCase? Prelude.env (.app (.const "Option") [.int]) guardedArms =
        some (.constructor "Some" [.any]) ∧
      ∃ v, HasType Prelude.env v (.app (.const "Option") [.int]) ∧
        (MissingCase.constructor "Some" [.any]).Describes v ∧
        ∀ arm ∈ guardedArms, arm.2 = false → (Pat.lower arm.1).accepts v = false := by
  have missed : missingCase? Prelude.env (.app (.const "Option") [.int]) guardedArms =
      some (.constructor "Some" [.any]) := by
    cbv
  have halts : Prelude.env.alternatives (Prelude.env.unfold (.app (.const "Option") [.int])) =
      some [⟨"Some", [.int]⟩, ⟨"None", []⟩] := rfl
  have int : Built Prelude.env (Prelude.env.unfold .int) (.int 1) [] :=
    .int rfl (by decide) (by decide)
  have some {p : Pat} (hp : WellTyped Prelude.env p .int) : WellTyped Prelude.env
      (.node (.variant "Some") [p]) (.app (.const "Option") [.int]) :=
    .node (.variant halts (a := ⟨"Some", [.int]⟩) (by simp)) (.cons hp .nil)
  have none : WellTyped Prelude.env (.node (.variant "None") []) (.app (.const "Option") [.int]) :=
    .node (.variant halts (a := ⟨"None", []⟩) (by simp)) .nil
  have parts : ∀ t, Part Prelude.env (.app (.const "Option") [.int]) t →
      t = .app (.const "Option") [.int] ∨ t = .int := by
    intro t ht
    induction ht with
    | self => exact .inl rfl
    | built _ built mem ih =>
      rcases ih with rfl | rfl
      · have := built.of_alternatives regular_prelude halts
        rw [← built.partTypes regular_prelude] at mem
        simp only [List.map_cons, List.map_nil, List.mem_cons, List.not_mem_nil, or_false] at this
        rcases this with rfl | rfl
        · exact .inr (List.mem_singleton.1 mem)
        · exact absurd mem (List.not_mem_nil)
      · have named : (Prelude.env.unfold .int).isNamed "Int" := rfl
        have := built.of_named regular_prelude (by simp) named
        cases built with
        | int => simp at mem
        | _ => simp at this
    | field _ hdeclared _ ih =>
      rcases ih with rfl | rfl <;> cases hdeclared
  refine ⟨missed, (exists_unmatched_of_missingCase? regular_prelude _ ?_ guardedArms ?_ ?_ missed).2⟩
  · intro t ht
    rcases parts t ht with rfl | rfl
    · exact ⟨.constructor "None" [], .built rfl
        (.variant halts (a := ⟨"None", []⟩) (by simp)) .nil⟩
    · exact ⟨.int 1, .built rfl int .nil⟩
  · simp only [guardedArms, List.forall_mem_cons, Pat.lower, Pat.lowerList, Head.ofLiteral]
    refine ⟨.either ?_, some .any, by simp⟩
    simp only [List.forall_mem_cons]
    exact ⟨some (.node int .nil), none, by simp⟩
  · decide

end Coverage

end Polytype
