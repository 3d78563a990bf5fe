import Mathlib
import Polytype.Env.Prelude
import Polytype.Inference.Expr
import Polytype.Proofs.Inference.Run
import Polytype.Proofs.Inference.Values

/-!
# The value restriction

A value that gets a scheme with quantified variables is non-expansive: its evaluation calls no
function and creates no reference cell. This is decided in the environment around the `let` or the
group, where a name may be a constructor that the `let` or group itself binds anew. Inside, such a
name is called like any function, so there the value is non-expansive if and only if it applies none
of the names bound with it.
-/

namespace Polytype

namespace Infer

/-! ## Schemes of values -/

variable (env : Env) (level : Nat)

theorem returns_schemeOf (t : Ty) :
    Returns (schemeOf env level t false) fun σ => σ.vars = [] :=
  .after fun _ => .pure rfl

theorem returns_quantify (name : Ident) (bound : Ty) :
    Returns (do
      let σ ← schemeOf env level bound false
      if !σ.isPolymorphic then
        lower level bound
      log (.inferred name.name σ)
      return σ) fun σ => σ.vars = [] := by
  refine .bind (returns_schemeOf env level bound) fun σ hσ => ?_
  split
  · exact .after fun _ => .after fun _ => .pure hσ
  · exact .after fun _ => .pure hσ

theorem returns_letScheme (name : Ident) (expected : Option Ty) {value : Expr} (t : Ty)
    (h : value.isValue env = false) :
    Returns (letScheme env level name expected value t) fun σ => σ.vars = [] := by
  unfold letScheme
  rw [h]
  cases expected with
  | none => exact returns_quantify env level name t
  | some u => exact .after fun _ => returns_quantify env level name u

theorem returns_groupSchemes (members : List GroupBinding) (types : List Ty) :
    Returns (groupSchemes env level false members types) fun schemes =>
      ∀ entry ∈ schemes, entry.2.vars = [] := by
  fun_induction groupSchemes env level false members types with
  | case1 member members t ts ih =>
    refine .bind (returns_schemeOf env level t) fun σ hσ => .after fun _ => ?_
    refine .bind ih fun schemes hschemes => .pure ?_
    exact List.forall_mem_cons.2 ⟨hσ, hschemes⟩
  | case2 => exact .pure (by simp)

theorem returns_finishGroup {members : List GroupBinding} (types : List Ty)
    (h : (members.all fun member => member.value.isValue env) = false) :
    Returns (finishGroup env level members types) fun schemes =>
      ∀ entry ∈ schemes, entry.2.vars = [] := by
  unfold finishGroup
  rw [h]
  exact .bind (returns_groupSchemes env level members types) fun schemes hschemes =>
    .after fun _ => .pure hschemes

/-! ## The restriction -/

theorem returns_letScope (name : Ident) (written : Option TypeExpr) (recursive : Bool) :
    Returns (letScope env level name written recursive) fun result =>
      ∀ other, result.2.constructor? other =
        if other ∈ (if recursive then [name.name] else []) then none
        else env.constructor? other := by
  have self (t : Ty) (other : String) : (env.extendValue name.name (.mono t)).constructor? other =
      if other ∈ [name.name] then none else env.constructor? other := by
    simp only [Env.constructor?_extendValue, List.mem_singleton, eq_comm]
  refine .after fun declared => ?_
  cases recursive with
  | false => exact .pure fun other => by simp
  | true =>
    cases declared with
    | some t => exact .after fun t => .pure (self t)
    | none => exact .after fun t => .pure (self t)

theorem constructor?_groupScope {members : List GroupBinding} {types : List Ty}
    (h : types.length = members.length) (name : String) :
    (groupScope env members types).constructor? name =
      if name ∈ members.map (·.name.name) then none else env.constructor? name := by
  rw [groupScope, Env.constructor?_extendMono, List.map_fst_zip (by simp [h])]

/-- If the scheme of a `let`, or any scheme of a group, has a quantified variable, then the value,
or every value of the group, is restricted in the scope that it was inferred in. -/
theorem restricted_of_isPolymorphic (env : Env) (level : Nat) (p p' : Progress) :
    (∀ name written value recursive σ,
      letBinding env level name written value recursive p = .ok σ p' → σ.isPolymorphic = true →
      ∃ expected scope t q q',
        letScope env level name written recursive p = .ok (expected, scope) q ∧
        expr scope (level + 1) value q = .ok t q' ∧
        Restricted env scope (if recursive then [name.name] else []) value) ∧
    (∀ bindings schemes, group env level bindings p = .ok schemes p' →
      (∃ entry ∈ schemes, entry.2.isPolymorphic = true) →
      ∃ types q q', groupTypes env level bindings p = .ok types q ∧
        members (groupScope env bindings types) level bindings types q = .ok () q' ∧
        ∀ member ∈ bindings, Restricted env (groupScope env bindings types)
          (bindings.map (·.name.name)) member.value) := by
  constructor
  · intro name written value recursive σ h hσ
    rw [letBinding, drawnSoFar_bind] at h
    obtain ⟨⟨expected, scope⟩, q, hscope, h⟩ := exists_of_bind h
    obtain ⟨t, q', ht, h⟩ := exists_of_bind h
    obtain ⟨σ', q'', hscheme, h⟩ := exists_of_bind h
    obtain rfl : σ' = σ := Returns.after (fun _ => .pure rfl) q'' σ p' h
    refine ⟨expected, scope, t, q, q', hscope, ht, ?_⟩
    refine restricted_of_isValue ?_ (returns_letScope env level name written recursive p _ q hscope)
    -- A scheme that is no value's quantifies nothing.
    by_contra hvalue
    have mono := returns_letScheme env level name expected t (Bool.eq_false_iff.2 hvalue)
      q' _ q'' hscheme
    simp [Scheme.isPolymorphic, mono] at hσ
  · intro bindings schemes h hpoly
    rw [group, drawnSoFar_bind] at h
    obtain ⟨types, q, htypes, h⟩ := exists_of_bind h
    obtain ⟨⟨⟩, q', hmembers, h⟩ := exists_of_bind h
    obtain ⟨schemes', q'', hschemes, h⟩ := exists_of_bind h
    obtain rfl : schemes' = schemes := Returns.after (fun _ => .pure rfl) q'' schemes p' h
    refine ⟨types, q, q', htypes, hmembers, fun member hmember => ?_⟩
    have hlength := returns_groupTypes env level bindings p types q htypes
    refine restricted_of_isValue ?_ (constructor?_groupScope env hlength)
    by_contra hvalue
    have mono := returns_finishGroup env level types
      (List.all_eq_false.2 ⟨member, hmember, hvalue⟩) q' _ q'' hschemes
    obtain ⟨entry, hentry, hσ⟩ := hpoly
    simp [Scheme.isPolymorphic, mono entry hentry] at hσ

def pairGroup : List GroupBinding :=
  -- let rec pair = (Some(None), []) and first = (x) => pair
  [⟨⟨"pair", {}⟩, none,
    .tuple [.apply (.var ⟨"Some", {}⟩) [.var ⟨"None", {}⟩] {}, .list [] {}] {}, {}⟩,
   ⟨⟨"first", {}⟩, none, .lambda [⟨⟨"x", {}⟩, none⟩] (.var ⟨"pair", {}⟩) {}, {}⟩]

theorem restricted_pairGroup : ∃ schemes p',
    group Prelude.env 0 pairGroup { next := Prelude.size } = .ok schemes p' ∧
      (∃ entry ∈ schemes, entry.2.isPolymorphic = true) ∧
      ∃ types, ∀ member ∈ pairGroup,
        Restricted Prelude.env (groupScope Prelude.env pairGroup types) ["pair", "first"]
          member.value := by
  have found : ((group Prelude.env 0 pairGroup).run' { next := Prelude.size }).any
      (fun schemes => schemes.any fun entry => entry.2.isPolymorphic) = true := by cbv
  obtain ⟨schemes, p', hrun, hpoly⟩ := exists_run_of_any found
  rw [List.any_eq_true] at hpoly
  obtain ⟨types, -, -, -, -, restricted⟩ :=
    (restricted_of_isPolymorphic Prelude.env 0 _ p').2 pairGroup schemes hrun hpoly
  exact ⟨schemes, p', hrun, hpoly, types, restricted⟩

/-- `let rec Some = (x) => ref [] and cell = Some(1)` -/
def cellGroup : List GroupBinding :=
  [⟨⟨"Some", {}⟩, none, .lambda [⟨⟨"x", {}⟩, none⟩] (.makeRef (.list [] {}) {}) {}, {}⟩,
   ⟨⟨"cell", {}⟩, none, .apply (.var ⟨"Some", {}⟩) [.literal (.int 1) {}] {}, {}⟩]

/-- The reference cell that `Some(1)` creates has a quantified type, since outside of the group
`Some` is a constructor. -/
theorem not_nonExpansive_cellGroup : ∃ schemes p' types q,
    group Prelude.env 0 cellGroup { next := Prelude.size } = .ok schemes p' ∧
      (∃ entry ∈ schemes, entry.1 = "cell" ∧ entry.2.isPolymorphic = true) ∧
      groupTypes Prelude.env 0 cellGroup { next := Prelude.size } = .ok types q ∧
      ∃ member ∈ cellGroup,
        ¬member.value.NonExpansive (groupScope Prelude.env cellGroup types) := by
  have found : ((group Prelude.env 0 cellGroup).run' { next := Prelude.size }).any
      (fun schemes => schemes.any fun entry =>
        entry.1 == "cell" && entry.2.isPolymorphic) = true := by cbv
  obtain ⟨schemes, p', hrun, hpoly⟩ := exists_run_of_any found
  simp only [List.any_eq_true, Bool.and_eq_true, beq_iff_eq] at hpoly
  refine ⟨schemes, p', _, _, hrun, hpoly, rfl, _, List.mem_cons_of_mem _ List.mem_cons_self, ?_⟩
  rintro (_ | _ | _ | ⟨hc, _⟩)
  rw [constructor?_groupScope _ rfl] at hc
  simp [cellGroup] at hc

end Infer

end Polytype
