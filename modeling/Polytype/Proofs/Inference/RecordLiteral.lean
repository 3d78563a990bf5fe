import Mathlib
import Polytype.Env.Prelude
import Polytype.Proofs.Assoc
import Polytype.Proofs.Inference.Run

namespace Polytype

theorem Assoc.get?_insertAll {κ α : Type} [DecidableEq κ] [LT κ] [DecidableLT κ]
    (entries : Assoc κ α) (later : List (κ × α)) (key : κ) :
    get? (insertAll entries later) key = (get? (ofList later) key).or (get? entries key) := by
  induction later generalizing entries with
  | nil => rfl
  | cons entry later ih =>
    have first : get? (ofList (entry :: later)) key =
        (get? (ofList later) key).or (get? (insert [] entry.1 entry.2) key) := ih _
    calc get? (insertAll entries (entry :: later)) key
        = (get? (ofList later) key).or (get? (insert entries entry.1 entry.2) key) := ih _
      _ = (get? (ofList (entry :: later)) key).or (get? entries key) := by
          rw [first, get?_insert, get?_insert]
          by_cases h : entry.1 = key <;> simp [h]

namespace Infer

/-- What a part of a literal gives: a field, or the fields of a base. -/
inductive Part
  | field (name : String) (t : Ty)
  | spread (fields : List (String × Ty))

def Part.pairs : Part → List (String × Ty)
  | field name t => [(name, t)]
  | spread fields => fields

/-- The same part in another context, where a base may have further fields. -/
inductive Part.Wider : Part → Part → Prop
  | field {name : String} {t t' : Ty} : t.same t' = true → Wider (field name t) (field name t')
  | spread {narrow wide : List (String × Ty)} :
      (∀ name t, Assoc.get? (.ofList narrow) name = some t →
        ∃ t', Assoc.get? (.ofList wide) name = some t' ∧ t.same t' = true) →
      Wider (spread narrow) (spread wide)

/-- The parts of a literal as they are inferred. -/
inductive Infers (env : Env) (level : Nat) : List Entry → Progress → List Part → Progress → Prop
  | nil {p : Progress} : Infers env level [] p [] p
  | field {name : String} {value : Expr} {span : Span} {rest : List Entry} {parts : List Part}
      {t : Ty} {p q r : Progress} :
      expr env level value p = .ok t q → Infers env level rest q parts r →
      Infers env level (.field ⟨name, value, span⟩ :: rest) p (.field name t :: parts) r
  | spread {base : Expr} {rest : List Entry} {parts : List Part} {t : Ty}
      {fields : List (String × Ty)} {p q r : Progress} :
      expr env level base p = .ok t q → env.recordFields (q.subst.apply t) = some fields →
      Infers env level rest q parts r →
      Infers env level (.spread base :: rest) p (.spread fields :: parts) r

/-- The fields of a literal with the given parts. -/
def literal (parts : List Part) : Assoc String Ty :=
  .ofList (parts.flatMap Part.pairs)

/-- A base has a field that it lacks in the other context, after a part that gives the field and
before none that does. -/
inductive Overridden (name : String) (t t' : Ty) : List Part → List Part → Prop
  | intro {before before' after after' : List Part} {narrow wide : List (String × Ty)} :
      before.length = before'.length → Assoc.get? (literal before) name = some t →
      Assoc.get? (.ofList narrow) name = none → Assoc.get? (.ofList wide) name = some t' →
      Assoc.get? (literal after') name = none →
      Overridden name t t' (before ++ .spread narrow :: after) (before' ++ .spread wide :: after')

section Run

variable {env : Env} {level : Nat} {given : List Entry}

theorem run_spreadFields {span : Span} {t : Ty} {fields : List (String × Ty)} {p : Progress}
    (h : env.recordFields t = some fields) : spreadFields env span t p = .ok fields p := by
  simp only [spreadFields, h]
  rfl

theorem recordFields_of_spreadFields {span : Span} {t : Ty} {fields : List (String × Ty)}
    {p q : Progress} (h : spreadFields env span t p = .ok fields q) :
    env.recordFields t = some fields ∧ p = q := by
  cases found : env.recordFields t with
  | some given =>
    rw [run_spreadFields found] at h
    obtain ⟨rfl, rfl⟩ := EStateM.Result.ok.inj h
    exact ⟨rfl, rfl⟩
  | none =>
    unfold spreadFields at h
    rw [found] at h
    cases t <;> cases h

theorem Infers.entries_ok {parts : List Part} {p q : Progress} (h : Infers env level given p parts q)
    (fields : List (String × Ty)) : entries env level given fields p =
      .ok (Assoc.insertAll fields (parts.flatMap Part.pairs)) q := by
  induction h generalizing fields with
  | nil => rw [entries]; rfl
  | field value _ ih =>
    rw [entries, run_bind_ok value, ih]
    rfl
  | spread base hfields _ ih =>
    rw [entries, run_bind_ok base, run_resolved_bind, run_bind_ok (run_spreadFields hfields), ih,
      List.flatMap_cons, Assoc.insertAll, Assoc.insertAll, Assoc.insertAll, List.foldl_append]
    rfl

theorem exists_infers {fields result : List (String × Ty)} {p r : Progress}
    (h : entries env level given fields p = .ok result r) :
    ∃ parts, Infers env level given p parts r := by
  induction given generalizing fields p with
  | nil =>
    rw [entries] at h
    cases h
    exact ⟨[], .nil⟩
  | cons entry given ih =>
    cases entry with
    | field init =>
      obtain ⟨name, value, span⟩ := init
      rw [entries] at h
      obtain ⟨t, q, hvalue, h⟩ := exists_of_bind h
      obtain ⟨parts, rest⟩ := ih h
      exact ⟨_, .field hvalue rest⟩
    | spread base =>
      rw [entries] at h
      obtain ⟨t, q, hbase, h⟩ := exists_of_bind h
      rw [run_resolved_bind] at h
      obtain ⟨spread, q', hspread, h⟩ := exists_of_bind h
      obtain ⟨hfields, rfl⟩ := recordFields_of_spreadFields hspread
      obtain ⟨parts, rest⟩ := ih h
      exact ⟨_, .spread hbase hfields rest⟩

theorem expr_record_iff {span : Span} {t : Ty} {p q : Progress} :
    expr env level (.record given span) p = .ok t q ↔
      ∃ parts, Infers env level given p parts q ∧ t = .record (literal parts) := by
  rw [expr]
  constructor
  · intro h
    obtain ⟨fields, r, run, h⟩ := exists_of_bind h
    obtain ⟨parts, inferred⟩ := exists_infers run
    rw [inferred.entries_ok] at run
    cases run
    cases h
    exact ⟨parts, inferred, rfl⟩
  · rintro ⟨parts, inferred, rfl⟩
    rw [run_bind_ok (inferred.entries_ok [])]
    rfl

end Run

/-! ## Which part gives a field -/

section Parts

variable {name : String} {t t' : Ty} {part : Part} {parts parts' : List Part}

theorem get?_literal_append (before after : List Part) (name : String) :
    Assoc.get? (literal (before ++ after)) name =
      (Assoc.get? (literal after) name).or (Assoc.get? (literal before) name) := by
  unfold literal
  rw [List.flatMap_append, ← Assoc.get?_insertAll, Assoc.ofList, Assoc.insertAll, List.foldl_append]
  rfl

theorem get?_literal_cons (part : Part) (parts : List Part) (name : String) :
    Assoc.get? (literal (part :: parts)) name =
      (Assoc.get? (literal parts) name).or (Assoc.get? (.ofList part.pairs) name) := by
  have append := get?_literal_append [part] parts name
  rwa [literal.eq_1 [part], List.flatMap_singleton] at append

theorem exists_last (h : Assoc.get? (literal parts) name = some t) :
    ∃ before part after, parts = before ++ part :: after ∧
      Assoc.get? (.ofList part.pairs) name = some t ∧ Assoc.get? (literal after) name = none := by
  induction parts with
  | nil => cases h
  | cons part parts ih =>
    rw [get?_literal_cons] at h
    cases later : Assoc.get? (literal parts) name with
    | none =>
      rw [later, Option.none_or] at h
      exact ⟨[], part, parts, rfl, h, later⟩
    | some u =>
      rw [later, Option.some_or] at h
      obtain ⟨before, last, after, rfl, gives⟩ := ih (later.trans h)
      exact ⟨part :: before, last, after, rfl, gives⟩

theorem Part.get?_field (other : String) (u : Ty) (name : String) :
    Assoc.get? (.ofList (field other u).pairs) name = if other = name then some u else none :=
  Assoc.get?_insert [] other name u

theorem Part.Wider.gives {part' : Part} (wider : part.Wider part')
    (h : Assoc.get? (.ofList part.pairs) name = some t) :
    ∃ t', Assoc.get? (.ofList part'.pairs) name = some t' ∧ t.same t' = true := by
  cases wider with
  | field same =>
    rw [get?_field] at h ⊢
    obtain ⟨rfl, heq⟩ := Option.ite_none_right_eq_some.1 h
    obtain rfl := Option.some.inj heq
    exact ⟨_, if_pos rfl, same⟩
  | spread wide => exact wide name t h

theorem Part.Wider.spread_of_lacks {part' : Part} (wider : part.Wider part')
    (lacks : Assoc.get? (.ofList part.pairs) name = none)
    (gives : Assoc.get? (.ofList part'.pairs) name = some t') :
    ∃ narrow wide, part = .spread narrow ∧ part' = .spread wide := by
  cases wider with
  | field same =>
    rw [get?_field] at lacks gives
    exact absurd (Option.ite_none_right_eq_some.1 gives).1 (by simpa using lacks)
  | @spread narrow wide => exact ⟨narrow, wide, rfl, rfl⟩

theorem Overridden.cons {part' : Part} (h : Overridden name t t' parts parts') :
    Overridden name t t' (part :: parts) (part' :: parts') := by
  obtain @⟨before, before', after, after', narrow, wide, hlength, earlier, lacks, gives, later⟩ := h
  refine @Overridden.intro name t t' (part :: before) (part' :: before') after after' narrow wide
    (by simp [hlength]) ?_ lacks gives later
  rw [get?_literal_cons, earlier, Option.some_or]

theorem overridden_of_first {part' : Part} (wider : List.Forall₂ Part.Wider parts parts')
    (first : Assoc.get? (.ofList part.pairs) name = some t)
    (lacks : Assoc.get? (literal parts) name = none)
    (gives : Assoc.get? (literal parts') name = some t') :
    Overridden name t t' (part :: parts) (part' :: parts') := by
  obtain ⟨before', last', after', rfl, gives, later⟩ := exists_last gives
  have earlier := List.forall₂_take_append parts before' (last' :: after') wider
  have rest := List.forall₂_drop_append parts before' (last' :: after') wider
  rw [← List.take_append_drop before'.length parts] at lacks ⊢
  generalize List.take before'.length parts = before, List.drop before'.length parts = others
    at earlier rest lacks ⊢
  cases rest with
  | @cons last _ after _ head tail =>
    rw [get?_literal_append, get?_literal_cons, Option.or_eq_none_iff, Option.or_eq_none_iff] at lacks
    obtain ⟨⟨-, lacks⟩, before_lacks⟩ := lacks
    obtain ⟨narrow, wide, rfl, rfl⟩ := head.spread_of_lacks lacks gives
    refine @Overridden.intro name t t' (part :: before) (part' :: before') after after' narrow wide
      (by simp [earlier.length_eq]) ?_ lacks gives later
    rw [get?_literal_cons, before_lacks, Option.none_or, first]

theorem get?_literal_of_wider (wider : List.Forall₂ Part.Wider parts parts')
    (h : Assoc.get? (literal parts) name = some t) :
    ∃ t', Assoc.get? (literal parts') name = some t' ∧
      (t.same t' = true ∨ Overridden name t t' parts parts') := by
  induction wider with
  | nil => cases h
  | @cons part part' parts parts' head tail ih =>
    rw [get?_literal_cons] at h ⊢
    -- The first part only counts if no later one gives the field. In the second context a later
    -- part may give it nevertheless, and that part overrides the first.
    cases later : Assoc.get? (literal parts) name with
    | some u =>
      rw [later, Option.some_or] at h
      obtain ⟨t', found, same | overridden⟩ := ih (later.trans h)
      · exact ⟨t', by rw [found, Option.some_or], .inl same⟩
      · exact ⟨t', by rw [found, Option.some_or], .inr overridden.cons⟩
    | none =>
      rw [later, Option.none_or] at h
      cases later' : Assoc.get? (literal parts') name with
      | none =>
        obtain ⟨t', found, same⟩ := head.gives h
        exact ⟨t', by rw [Option.none_or, found], .inl same⟩
      | some t' => exact ⟨t', rfl, .inr (overridden_of_first tail h later later')⟩

end Parts

/-- In a context where the bases have further fields, a literal has all the fields it had. Their
types are the same unless a further field of a base takes the place of one that was given before. -/
theorem record_of_wider {given : List Entry} {parts parts' : List Part} {env env' : Env}
    {level level' : Nat} {p p' q q' : Progress} (inferred : Infers env level given p parts q)
    (inferred' : Infers env' level' given p' parts' q')
    (wider : List.Forall₂ Part.Wider parts parts') (span : Span) :
    ∃ fields fields', expr env level (.record given span) p = .ok (.record fields) q ∧
      expr env' level' (.record given span) p' = .ok (.record fields') q' ∧
      ∀ name t, Assoc.get? fields name = some t →
        ∃ t', Assoc.get? fields' name = some t' ∧
          (t.same t' = true ∨ Overridden name t t' parts parts') :=
  ⟨literal parts, literal parts', expr_record_iff.2 ⟨parts, inferred, rfl⟩,
    expr_record_iff.2 ⟨parts', inferred', rfl⟩, fun _ _ h => get?_literal_of_wider wider h⟩

namespace RecordLiteral

def narrow : List (String × Ty) := [("y", .int)]

def wide : List (String × Ty) := [("x", .string), ("y", .int)]

def scope (fields : List (String × Ty)) : Env := Prelude.env.extendMono [("base", .record fields)]

def start : Progress := { subst := {}, next := Prelude.size }

/-- The parts of `{ x: 1, ...base }`. -/
def given : List Entry :=
  [.field ⟨"x", .literal (.int 1) {}, {}⟩, .spread (.var ⟨"base", {}⟩)]

theorem infers_given {fields : List (String × Ty)} {q : Progress}
    (h : expr (scope fields) 0 (.var ⟨"base", {}⟩) start = .ok (.record fields) q)
    (ground : q.subst.apply (.record fields) = .record fields) :
    Infers (scope fields) 0 given start [.field "x" .int, .spread fields] q :=
  .field rfl (.spread h (by rw [ground]; rfl) .nil)

theorem infers_narrow : ∃ q,
    Infers (scope narrow) 0 given start [.field "x" .int, .spread narrow] q := by
  have var : expr (scope narrow) 0 (.var ⟨"base", {}⟩) start = .ok (.record narrow)
      { start with events := #[.instantiated (.mono (.record narrow)) (.record narrow)] } := by
    cbv
  exact ⟨_, infers_given var rfl⟩

theorem infers_wide : ∃ q, Infers (scope wide) 0 given start [.field "x" .int, .spread wide] q := by
  have var : expr (scope wide) 0 (.var ⟨"base", {}⟩) start = .ok (.record wide)
      { start with events := #[.instantiated (.mono (.record wide)) (.record wide)] } := by
    cbv
  exact ⟨_, infers_given var rfl⟩

theorem wider_wide :
    List.Forall₂ Part.Wider [.field "x" .int, .spread narrow] [.field "x" .int, .spread wide] := by
  refine .cons (.field rfl) (.cons (.spread fun name t h => ?_) .nil)
  obtain ⟨rfl, rfl⟩ : "y" = name ∧ Ty.int = t := by
    simpa [narrow, Assoc.ofList, Assoc.insertAll, Assoc.get?_insert] using h
  exact ⟨.int, rfl, rfl⟩

end RecordLiteral

open RecordLiteral in
theorem record_of_wider_base : ∃ fields fields' q q',
    expr (scope narrow) 0 (.record given {}) start = .ok (.record fields) q ∧
      expr (scope wide) 0 (.record given {}) start = .ok (.record fields') q' ∧
      ∀ name t, Assoc.get? fields name = some t →
        ∃ t', Assoc.get? fields' name = some t' ∧ (t.same t' = true ∨ Overridden name t t'
          [.field "x" .int, .spread narrow] [.field "x" .int, .spread wide]) := by
  obtain ⟨q, inferred⟩ := infers_narrow
  obtain ⟨q', inferred'⟩ := infers_wide
  obtain ⟨fields, fields', run, run', kept⟩ := record_of_wider inferred inferred' wider_wide {}
  exact ⟨fields, fields', q, q', run, run', kept⟩

open RecordLiteral in
/-- The field `x` is an integer as long as the base has no such field. -/
theorem record_changes_type : ∃ parts parts' q q',
    Infers (scope narrow) 0 given start parts q ∧ Infers (scope wide) 0 given start parts' q' ∧
      List.Forall₂ Part.Wider parts parts' ∧
      expr (scope narrow) 0 (.record given {}) start =
        .ok (.record [("x", .int), ("y", .int)]) q ∧
      expr (scope wide) 0 (.record given {}) start =
        .ok (.record [("x", .string), ("y", .int)]) q' := by
  obtain ⟨q, inferred⟩ := infers_narrow
  obtain ⟨q', inferred'⟩ := infers_wide
  exact ⟨_, _, q, q', inferred, inferred', wider_wide, expr_record_iff.2 ⟨_, inferred, by cbv⟩,
    expr_record_iff.2 ⟨_, inferred', by cbv⟩⟩

end Infer

end Polytype
