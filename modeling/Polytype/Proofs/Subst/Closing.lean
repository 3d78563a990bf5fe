import Mathlib.Data.List.Permutation
import Mathlib.Logic.Relation
import Polytype.Proofs.Subst.Absorption
import Polytype.Proofs.Unification.Termination

/-!
# Closed records are what is displayed

Closing the records of a type takes its open variables one after the other. Binding one to its
record carries over what the type reaches: the same variables but this one, at levels that sink no
further than its own (`Closable.reaches_of_closed`, `Closable.reaches_closed`). So closing goes on
until no reachable variable has recorded fields. It fails exactly if one of them leads back to
itself, and otherwise the closed type is the one that `applyShapes` displays.
-/

namespace Polytype.Subst

open Ty Relation

/-- A type reaches the variables that occur in it, and those in the fields recorded for a variable
that it reaches. One variable may be reached at several levels. -/
inductive Reaches (s : Subst) (t : Ty) : TypeVar → Prop
  | occurs {v} : v ∈ (s.apply t).vars → Reaches s t v
  | field {v w fields field} : Reaches s t v → s.records.get? v.id = some fields → field ∈ fields →
      w ∈ (s.apply field.2).vars → Reaches s t w

/-- A reachable variable leads back to itself through recorded fields. -/
def Cyclic (s : Subst) (t : Ty) : Prop := ∃ v, s.Reaches t v ∧ TransGen s.Link v.id v.id

/-- All open records that a type reaches are above a level. -/
def OpenAbove (s : Subst) (t : Ty) (level : Nat) : Prop :=
  ∀ v, s.Reaches t v → (s.records.get? v.id).isSome = true → level < v.level

section Reaches

variable {s : Subst} {t : Ty}

theorem Resolved.unbound_of_reaches (hs : s.Resolved) {v : TypeVar} (h : s.Reaches t v) :
    s.isBound v.id = false := by
  cases h with
  | occurs hv => exact within_iff.1 (hs.settled_apply t) v hv
  | field _ _ _ hv => exact within_iff.1 (hs.settled_apply _) v hv

theorem Resolved.relevel_of_reaches (hs : s.Resolved) {v : TypeVar} (h : s.Reaches t v) :
    s.relevel v = v := by
  have current {u : Ty} (hv : v ∈ (s.apply u).vars) : s.relevel v = v := by
    obtain ⟨x, rfl, -⟩ := hs.mem_vars_apply hv
    exact relevel_relevel s x
  cases h with
  | occurs hv => exact current hv
  | field _ _ _ hv => exact current hv

theorem Reaches.link {v : TypeVar} {id : Nat} (h : s.Reaches t v) (link : s.Link v.id id) :
    ∃ w, s.Reaches t w ∧ w.id = id := by
  obtain ⟨fields, recorded, field, hf, mentions⟩ := link
  obtain ⟨w, hw, rfl⟩ := mentions_iff.1 mentions
  exact ⟨w, h.field recorded hf hw, rfl⟩

theorem recordShape_eq_some {v : TypeVar} {shape : List (String × Ty)} :
    s.recordShape v = some shape ↔ s.isBound v.id = false ∧
      ∃ fields, s.records.get? v.id = some fields ∧ s.applyFields fields = shape := by
  unfold recordShape
  cases s.isBound v.id <;> simp

theorem mem_vars_shape {fields : List (String × Ty)} {w : TypeVar} :
    w ∈ (Ty.record (s.applyFields fields)).vars ↔ ∃ field ∈ fields, w ∈ (s.apply field.2).vars := by
  simp [vars, varsFields_eq, applyFields, Assoc.mapValues]

end Reaches

/-! ## Binding an open variable to its record -/

/-- The substitution in which a variable has become the record of its fields. -/
abbrev closed (s : Subst) (v : TypeVar) (fields : List (String × Ty)) : Subst :=
  s.bind v (.record (s.applyFields fields))

/-- A variable that can become the record of its fields: it is open, and they do not mention it. -/
structure Closable (s : Subst) (v : TypeVar) (fields : List (String × Ty)) : Prop where
  resolved : s.Resolved
  unbound : s.isBound v.id = false
  recorded : s.records.get? v.id = some fields
  fresh : (Ty.record (s.applyFields fields)).mentions v.id = false

theorem exists_records_of_closed {s : Subst} {v : TypeVar} {fields known : List (String × Ty)}
    {id : Nat} (h : (s.closed v fields).records.get? id = some known) :
    ∃ given, s.records.get? id = some given ∧
      known = (s.binding v (.record (s.applyFields fields))).applyFields given := by
  rw [get?_records_bind] at h
  split at h
  · simp at h
  · obtain ⟨given, hgiven, rfl⟩ := Option.map_eq_some_iff.1 h
    exact ⟨given, hgiven, rfl⟩

theorem get?_records_closed {s : Subst} {v : TypeVar} {fields given : List (String × Ty)} {id : Nat}
    (apart : id ≠ v.id) (free : s.isBound id = false) (h : s.records.get? id = some given) :
    (s.closed v fields).records.get? id =
      some ((s.binding v (.record (s.applyFields fields))).applyFields given) := by
  rw [get?_records_bind, if_neg (by simpa [free] using fun heq => apart heq.symm), h]
  rfl

section Closable

variable {s : Subst} {v : TypeVar} {fields : List (String × Ty)} (c : s.Closable v fields)

include c

theorem Closable.settled : s.Settled (.record (s.applyFields fields)) := by
  rw [← apply_record]
  exact c.resolved.settled_apply _

theorem Closable.resolved_closed : (s.closed v fields).Resolved :=
  resolved_bind c.resolved c.settled c.fresh

theorem Closable.apply_binding (t : Ty) :
    (s.closed v fields).apply ((s.binding v (.record (s.applyFields fields))).apply t) =
      (s.closed v fields).apply t :=
  c.resolved.absorbs_binding c.settled c.fresh t

theorem Closable.apply_closed (t : Ty) :
    (s.closed v fields).apply (s.apply t) = (s.closed v fields).apply t :=
  c.resolved.absorbs_bind c.settled c.fresh c.unbound t

/-- The variables of a type after the binding: its other variables, and those of the record in
the place of the variable. -/
theorem Closable.mem_vars_apply {t : Ty} {w : TypeVar} :
    w ∈ ((s.closed v fields).apply t).vars ↔
      ∃ x, w = (s.closed v fields).relevel x ∧
        (x.id ≠ v.id ∧ x ∈ (s.apply t).vars ∨
          (s.apply t).mentions v.id = true ∧ ∃ field ∈ fields, x ∈ (s.apply field.2).vars) := by
  have resolved := c.resolved_closed
  have bound {x : TypeVar} (h : x.id = v.id) :
      (s.closed v fields).types.get? x.id = some (.record (s.applyFields fields)) := by
    rw [get?_types_bind, if_pos h.symm]
  have free {x : TypeVar} (hx : x ∈ (s.apply t).vars) (h : x.id ≠ v.id) :
      (s.closed v fields).types.get? x.id = none := by
    rw [← isBound_eq_false]
    simpa [within_iff.1 (c.resolved.settled_apply t) x hx] using fun heq => h heq.symm
  rw [← c.apply_closed, apply, mem_vars_mapVars]
  constructor
  · rintro ⟨x, hx, hw⟩
    rw [resolved.resolve] at hw
    by_cases h : x.id = v.id
    · simp only [bound h] at hw
      obtain ⟨y, hy, hw⟩ := mem_vars_mapVars.1 hw
      exact ⟨y, by simpa [vars] using hw, .inr ⟨mentions_iff.2 ⟨x, hx, h⟩, mem_vars_shape.1 hy⟩⟩
    · simp only [free hx h] at hw
      exact ⟨x, by simpa [vars] using hw, .inl ⟨h, hx⟩⟩
  · rintro ⟨x, rfl, ⟨h, hx⟩ | ⟨mentions, inside⟩⟩
    · refine ⟨x, hx, ?_⟩
      rw [resolved.resolve, free hx h]
      simp [vars]
    · obtain ⟨y, hy, h⟩ := mentions_iff.1 mentions
      refine ⟨y, hy, ?_⟩
      rw [resolved.resolve, bound h]
      exact mem_vars_mapVars.2 ⟨x, mem_vars_shape.2 inside, by simp [vars]⟩

theorem Closable.reaches_of_closed {t : Ty} {w : TypeVar} (h : (s.closed v fields).Reaches t w) :
    ∃ x, s.Reaches t x ∧ w = (s.closed v fields).relevel x := by
  have source {u : Ty} {w : TypeVar} (before : ∀ x ∈ (s.apply u).vars, s.Reaches t x)
      (hw : w ∈ ((s.closed v fields).apply u).vars) :
      ∃ x, s.Reaches t x ∧ w = (s.closed v fields).relevel x := by
    obtain ⟨x, rfl, ⟨-, hx⟩ | ⟨mentions, field, hf, hx⟩⟩ := c.mem_vars_apply.1 hw
    · exact ⟨x, before x hx, rfl⟩
    · obtain ⟨y, hy, hid⟩ := mentions_iff.1 mentions
      exact ⟨x, (before y hy).field (hid ▸ c.recorded) hf hx, rfl⟩
  induction h with
  | occurs hw => exact source (fun x hx => .occurs hx) hw
  | field _ known hf hw ih =>
    obtain ⟨x, hx, rfl⟩ := ih
    obtain ⟨given, hgiven, rfl⟩ := exists_records_of_closed known
    obtain ⟨member, hm, rfl⟩ := List.mem_map.1 hf
    rw [c.apply_binding] at hw
    exact source (fun y hy => hx.field (by simpa using hgiven) hm hy) hw

theorem Closable.link_of_closed {id other : Nat} (h : (s.closed v fields).Link id other) :
    TransGen s.Link id other := by
  obtain ⟨known, hknown, field, hf, mentions⟩ := h
  obtain ⟨given, hgiven, rfl⟩ := exists_records_of_closed hknown
  obtain ⟨member, hm, rfl⟩ := List.mem_map.1 hf
  obtain ⟨w, hw, rfl⟩ := mentions_iff.1 mentions
  rw [c.apply_binding] at hw
  obtain ⟨x, rfl, ⟨-, hx⟩ | ⟨through, inside, hi, hx⟩⟩ := c.mem_vars_apply.1 hw
  · rw [relevel_id]
    exact .single ⟨given, hgiven, member, hm, mentions_iff.2 ⟨x, hx, rfl⟩⟩
  · have first : s.Link id v.id := ⟨given, hgiven, member, hm, through⟩
    rw [relevel_id]
    exact .tail (.single first) ⟨fields, c.recorded, inside, hi, mentions_iff.2 ⟨x, hx, rfl⟩⟩

/-- What a type reached before the binding of a variable in it, it reaches after, but for the
variable itself. -/
theorem Closable.reaches_closed {t : Ty} (hv : v ∈ (s.apply t).vars) {x : TypeVar}
    (h : s.Reaches t x) (apart : x.id ≠ v.id) :
    (s.closed v fields).Reaches t ((s.closed v fields).relevel x) := by
  induction h with
  | occurs hx => exact .occurs (c.mem_vars_apply.2 ⟨_, rfl, .inl ⟨apart, hx⟩⟩)
  | @field y x given member hy hgiven hm hx ih =>
    by_cases hid : y.id = v.id
    · -- The fields of the variable have become a part of the type.
      rw [hid, c.recorded] at hgiven
      cases hgiven
      have mentions : (s.apply t).mentions v.id = true := mentions_iff.2 ⟨v, hv, rfl⟩
      exact .occurs (c.mem_vars_apply.2 ⟨x, rfl, .inr ⟨mentions, member, hm, hx⟩⟩)
    · have known : (s.closed v fields).records.get? y.id = some _ :=
        get?_records_closed hid (c.resolved.unbound_of_reaches hy) hgiven
      rw [← relevel_id (s.closed v fields) y] at known
      refine .field (ih hid) known (List.mem_map_of_mem hm) ?_
      rw [c.apply_binding]
      exact c.mem_vars_apply.2 ⟨x, rfl, .inl ⟨apart, hx⟩⟩

omit c in
theorem lt_level_closed {x : TypeVar} {level : Nat} (current : s.relevel x = x)
    (hx : level < x.level) (hv : level < v.level) :
    level < ((s.closed v fields).relevel x).level := by
  cases h : (s.closed v fields).levels.get? x.id with
  | none => simpa [relevel, h] using hx
  | some l =>
    have above : level < l := by
      rcases lowest_origin h with old | new
      · have lower : x.level ≤ l := by
          have := congrArg TypeVar.level current
          simp only [relevel, old] at this
          omega
        omega
      · have : l = v.level := (mem_loweredLevels new).1
        omega
    simp only [relevel, h]
    omega

theorem Closable.openAbove {t : Ty} {level : Nat} (hv : level < v.level)
    (above : s.OpenAbove t level) : (s.closed v fields).OpenAbove t level := by
  intro w hw isOpen
  obtain ⟨x, hx, rfl⟩ := c.reaches_of_closed hw
  obtain ⟨known, hknown⟩ := Option.isSome_iff_exists.1 isOpen
  obtain ⟨given, hgiven, -⟩ := exists_records_of_closed hknown
  rw [relevel_id] at hgiven
  exact lt_level_closed (c.resolved.relevel_of_reaches hx) (above x hx (by simp [hgiven])) hv

end Closable

/-! ## The whole loop -/

/-- All open records that a type reached in the first substitution are closed in the second one. -/
structure Closes (t : Ty) (s s' : Subst) : Prop where
  resolved : s'.Resolved
  solves : Solves s'.image s
  free : ∀ {v}, s.Reaches t v → s.records.get? v.id = none → s'.image v.id = ofId v.id
  record : ∀ {v fields}, s.Reaches t v → s.records.get? v.id = some fields →
    s'.image v.id = (Ty.record fields).subst s'.image
  done : ∀ v ∈ (s'.apply t).vars, s'.records.get? v.id = none

theorem closes_self {s : Subst} {t : Ty} (hs : s.Resolved)
    (done : ∀ v ∈ (s.apply t).vars, s.records.get? v.id = none) : Closes t s s := by
  have none {v : TypeVar} (h : s.Reaches t v) : s.records.get? v.id = none := by
    induction h with
    | occurs hv => exact done _ hv
    | field _ known _ _ ih => simp [ih] at known
  refine ⟨hs, hs.image_idem, fun h _ => image_unbound (hs.unbound_of_reaches h), fun h known => ?_,
    done⟩
  simp [none h] at known

theorem Closable.closes {s s' : Subst} {t : Ty} {v : TypeVar} {fields : List (String × Ty)}
    (c : s.Closable v fields) (hv : v ∈ (s.apply t).vars) (h : Closes t (s.closed v fields) s') :
    Closes t s s' := by
  have solves : Solves s'.image s := h.solves.trans (c.resolved.solves_bind c.fresh c.unbound)
  have closing : s'.image v.id = (Ty.record fields).subst s'.image := by
    rw [h.solves.bound, ← apply_record, solves.subst_apply c.resolved]
  have binding : Solves s'.image (s.binding v (.record (s.applyFields fields))) := by
    intro id
    rw [image_binding, replace]
    split
    · rename_i hid
      rw [subst_erase, ← h.solves.bound, hid]
    · simp
  refine ⟨h.resolved, solves, fun {x} hx known => ?_, fun {x given} hx known => ?_, h.done⟩
  · have apart : x.id ≠ v.id := fun heq => by simp [heq, c.recorded] at known
    refine relevel_id (s.closed v fields) x ▸ h.free (c.reaches_closed hv hx apart) ?_
    rw [relevel_id, get?_records_bind, known]
    simp
  · by_cases heq : x.id = v.id
    · rw [heq, c.recorded] at known
      cases known
      rw [heq, closing]
    · have bound := h.record (c.reaches_closed hv hx heq) <| by
        rw [relevel_id]
        exact get?_records_closed heq (c.resolved.unbound_of_reaches hx) known
      rw [relevel_id, ← apply_record, binding.subst_apply (resolved_binding c.fresh)] at bound
      exact bound

theorem openRecord?_eq_none {s : Subst} {t : Ty} {level : Nat} (hs : s.Resolved)
    (above : s.OpenAbove t level) (h : s.openRecord? t level = none) :
    ∀ v ∈ (s.apply t).vars, s.records.get? v.id = none := by
  intro v hv
  obtain ⟨w, hw, hid⟩ := exists_mem_freeVars hv
  have occurs := mem_vars_of_mem_freeVars hw
  have unbound : s.isBound w.id = false := within_iff.1 (hs.settled_apply t) w occurs
  rw [← hid]
  by_contra isOpen
  have inner : level < w.level := above w (.occurs occurs) (Option.isSome_iff_ne_none.2 isOpen)
  have found := List.findSome?_eq_none_iff.1 h w (List.mem_filter.2 ⟨hw, by simpa using inner⟩)
  simp [recordShape, unbound, isOpen] at found

theorem openRecord?_eq_some {s : Subst} {t : Ty} {level : Nat} {v : TypeVar}
    {shape : List (String × Ty)} (h : s.openRecord? t level = some (v, shape)) :
    v ∈ (s.apply t).vars ∧ level < v.level ∧ s.isBound v.id = false ∧
      ∃ fields, s.records.get? v.id = some fields ∧ s.applyFields fields = shape := by
  obtain ⟨hv, hshape⟩ := openRecord?_spec h
  obtain ⟨w, hw, found⟩ := List.exists_of_findSome?_eq_some h
  obtain ⟨given, -, heq⟩ := Option.map_eq_some_iff.1 found
  obtain ⟨rfl, rfl⟩ := Prod.mk.inj heq
  exact ⟨hv, by simpa using (List.mem_filter.1 hw).2, recordShape_eq_some.1 hshape⟩

theorem closes_closeRecords {s s' : Subst} {t : Ty} {level : Nat} (hs : s.Resolved)
    (above : s.OpenAbove t level) (h : (s.closeRecords t level).2 = .ok s') : Closes t s s' := by
  fun_induction closeRecords s t level with
  | case1 s hopen =>
    cases h
    exact closes_self hs (openRecord?_eq_none hs above hopen)
  | case2 => simp at h
  | case3 s v shape hopen mentions closed result hrec ih =>
    obtain ⟨hv, hlevel, unbound, fields, recorded, rfl⟩ := openRecord?_eq_some hopen
    have c : s.Closable v fields := ⟨hs, unbound, recorded, Bool.eq_false_iff.2 mentions⟩
    have later := ih c.resolved_closed (c.openAbove hlevel above) (by simpa [hrec] using h)
    exact c.closes hv later

theorem cyclic_of_closeRecords {s : Subst} {t : Ty} {level : Nat} {clash : Clash} (hs : s.Resolved)
    (h : (s.closeRecords t level).2 = .error clash) :
    s.Cyclic t ∧ ∃ v record, clash = .infinite v record := by
  fun_induction closeRecords s t level with
  | case1 => simp at h
  | case2 s v shape hopen mentions =>
    obtain ⟨hv, -, -, fields, recorded, rfl⟩ := openRecord?_eq_some hopen
    obtain ⟨w, hw, hid⟩ := mentions_iff.1 mentions
    obtain ⟨field, hf, hw⟩ := mem_vars_shape.1 hw
    have self : s.Link v.id v.id := ⟨fields, recorded, field, hf, mentions_iff.2 ⟨w, hw, hid⟩⟩
    cases h
    exact ⟨⟨v, .occurs hv, .single self⟩, v, _, rfl⟩
  | case3 s v shape hopen mentions closed result hrec ih =>
    obtain ⟨-, -, unbound, fields, recorded, rfl⟩ := openRecord?_eq_some hopen
    have c : s.Closable v fields := ⟨hs, unbound, recorded, Bool.eq_false_iff.2 mentions⟩
    obtain ⟨⟨w, hw, cycle⟩, found⟩ := ih c.resolved_closed (by simpa [hrec] using h)
    obtain ⟨x, hx, rfl⟩ := c.reaches_of_closed hw
    rw [relevel_id] at cycle
    have back : TransGen s.Link x.id x.id :=
      TransGen.closed (fun _ _ link => c.link_of_closed link) _ _ cycle
    exact ⟨⟨x, hx, back⟩, found⟩

/-- The rounds of closing. In each of them bindings are followed to their end, wherever the
substitution is applied and where the one that binds the variable is. -/
inductive Closings (t : Ty) (level : Nat) : Subst → List Closing → Except Clash Subst → Prop
  | done {s : Subst} : (∀ u, s.Applicable u) → s.openRecord? t level = none →
      Closings t level s [] (.ok s)
  | cyclic {s : Subst} {v : TypeVar} {shape : List (String × Ty)} : (∀ u, s.Applicable u) →
      s.openRecord? t level = some (v, shape) → (Ty.record shape).mentions v.id = true →
      Closings t level s [] (.error (.infinite v (.record shape)))
  | close {s : Subst} {v : TypeVar} {shape : List (String × Ty)} {later : List Closing}
      {result : Except Clash Subst} : (∀ u, s.Applicable u) →
      s.openRecord? t level = some (v, shape) → (Ty.record shape).mentions v.id = false →
      (∀ u, (s.binding v (.record shape)).Applicable u) →
      Closings t level (s.bind v (.record shape)) later result →
      Closings t level s (⟨v, .record shape⟩ :: later) result

theorem closings_closeRecords {s : Subst} (hs : s.Resolved) (t : Ty) (level : Nat) :
    Closings t level s (s.closeRecords t level).1 (s.closeRecords t level).2 := by
  fun_induction closeRecords s t level with
  | case1 s hopen => exact .done hs.applicable hopen
  | case2 s v shape hopen mentions => exact .cyclic hs.applicable hopen mentions
  | case3 s v shape hopen mentions closed result hrec ih =>
    obtain ⟨-, -, unbound, fields, recorded, rfl⟩ := openRecord?_eq_some hopen
    have fresh := Bool.eq_false_iff.2 mentions
    have c : s.Closable v fields := ⟨hs, unbound, recorded, fresh⟩
    have later := ih c.resolved_closed
    rw [hrec] at later
    exact .close hs.applicable hopen fresh (resolved_binding fresh).applicable later

theorem closings_iff {s : Subst} (hs : s.Resolved) {t : Ty} {level : Nat} {closed : List Closing}
    {result : Except Clash Subst} :
    Closings t level s closed result ↔ s.closeRecords t level = (closed, result) := by
  refine ⟨fun h => ?_, fun h => ?_⟩
  · clear hs
    induction h with
    | done _ hopen =>
      rw [closeRecords]
      split
      · rfl
      · rename_i found
        simp [hopen] at found
    | cyclic _ hopen mentions =>
      rw [closeRecords]
      split
      · rename_i none
        simp [hopen] at none
      · rename_i found
        obtain ⟨rfl, rfl⟩ := Prod.mk.inj (Option.some.inj (hopen.symm.trans found))
        rw [if_pos mentions]
    | close _ hopen fresh _ _ ih =>
      rw [closeRecords]
      split
      · rename_i none
        simp [hopen] at none
      · rename_i found
        obtain ⟨rfl, rfl⟩ := Prod.mk.inj (Option.some.inj (hopen.symm.trans found))
        rw [if_neg (Bool.eq_false_iff.1 fresh), ih]
  · have rounds := closings_closeRecords hs t level
    rwa [h] at rounds

theorem length_closeRecords_le (s : Subst) (t : Ty) (level : Nat) :
    (s.closeRecords t level).1.length ≤ s.records.length := by
  fun_induction closeRecords s t level with
  | case1 => simp
  | case2 => simp
  | case3 s v shape hopen mentions closed result hrec ih =>
    obtain ⟨fields, recorded⟩ := records_of_openRecord? hopen
    have fewer := @length_records_bind_lt s v (.record shape) fields recorded
    simp only [hrec] at ih
    simp only [List.length_cons]
    omega

/-! ## Closed and displayed types -/

section Closes

variable {s s' : Subst} {t : Ty} (h : Closes t s s') (hs : s.Resolved)

include h hs in
theorem Closes.size_lt {v : TypeVar} (hv : s.Reaches t v) {id : Nat} (link : s.Link v.id id) :
    (s'.image id).size < (s'.image v.id).size := by
  obtain ⟨fields, recorded, field, hf, mentions⟩ := link
  obtain ⟨w, hw, rfl⟩ := mentions_iff.1 mentions
  have part : (s'.image w.id).size ≤ (field.2.subst s'.image).size := by
    rw [← h.solves.subst_apply hs]
    exact size_replaced_le hw
  have whole : (field.2.subst s'.image).size ≤ _ := size_le_sizeFields
    (List.mem_map_of_mem (f := fun field : String × Ty => (field.1, field.2.subst s'.image)) hf)
  rw [h.record hv recorded, subst_record, Ty.size]
  omega

include h hs in
theorem Closes.acyclic : ¬s.Cyclic t := by
  rintro ⟨v, hv, cycle⟩
  have smaller {id : Nat} (path : TransGen s.Link v.id id) :
      (∃ w, s.Reaches t w ∧ w.id = id) ∧ (s'.image id).size < (s'.image v.id).size := by
    induction path with
    | single link => exact ⟨hv.link link, h.size_lt hs hv link⟩
    | tail _ link ih =>
      obtain ⟨⟨w, hw, rfl⟩, less⟩ := ih
      exact ⟨hw.link link, Nat.lt_trans (h.size_lt hs hw link) less⟩
  exact Nat.lt_irrefl _ (smaller cycle).2

include h hs in
/-- Displaying by shapes, with the fields of some variables left out that the type does not lead
to. -/
theorem Closes.erase_expandShapes (records : Assoc Nat (List (String × Ty))) {u : Ty}
    (reached : ∀ v ∈ u.vars, s.Reaches t v)
    (kept : ∀ v ∈ u.vars, ∀ id, ReflTransGen s.Link v.id id →
      records.get? id = s.records.get? id) :
    (s.expandShapes records u).erase = u.subst s'.image := by
  induction hlength : records.length using Nat.strongRecOn generalizing records u with
  | _ n ih =>
  subst hlength
  rw [expandShapes, erase, subst_mapVars]
  refine mapVars_congr fun v hv => ?_
  have known := kept v hv v.id .refl
  split
  · rename_i hnone
    exact (h.free (reached v hv) (known.symm.trans hnone)).symm
  · rename_i fields hfields
    have recorded := known.symm.trans hfields
    rw [h.record (reached v hv) recorded, subst_record, subst_record, List.map_map]
    congr 1
    refine List.map_congr_left fun field hf => ?_
    have link {w : TypeVar} (hw : w ∈ (s.apply field.2).vars) : s.Link v.id w.id :=
      ⟨fields, recorded, field, hf, mentions_iff.2 ⟨w, hw, rfl⟩⟩
    have inner := ih _ (Assoc.length_erase_lt hfields) (records.erase v.id)
      (fun w hw => (reached v hv).field recorded hf hw)
      (fun w hw id path => by
        -- The variable being displayed cannot come up in its own fields.
        have apart : v.id ≠ id := fun heq =>
          h.acyclic hs ⟨v, reached v hv, .head' (link hw) (heq ▸ path)⟩
        rw [Assoc.get?_erase, if_neg apart]
        exact kept v hv id (.head (link hw) path)) rfl
    simp only [Function.comp_apply]
    exact congrArg (Prod.mk field.1) (inner.trans (h.solves.subst_apply hs field.2))

include h hs in
theorem Closes.same_applyShapes : (s'.apply t).same (s.applyShapes t) = true := by
  rw [same_iff, h.resolved.erase_apply, applyShapes,
    h.erase_expandShapes hs s.records (fun v hv => .occurs hv) fun _ _ _ _ => rfl]
  exact (h.solves.subst_apply hs t).symm

end Closes

/-- Closing the records of a type comes to an end, after at most as many rounds as variables have
recorded fields, and so does all that the rounds compute. If all open records that the type reaches
are above the level, it fails exactly if one of them leads back to itself, and otherwise it gives the
type that is displayed and leaves none of them open. -/
theorem closeRecords_agrees {s : Subst} (hs : s.Resolved) (t : Ty) (level : Nat) :
    (∀ closed result, Closings t level s closed result ↔
      s.closeRecords t level = (closed, result)) ∧
    (s.closeRecords t level).1.length ≤ s.records.length ∧
    (s.OpenAbove t level →
      ((∃ v record, (s.closeRecords t level).2 = .error (.infinite v record)) ↔ s.Cyclic t) ∧
      (¬s.Cyclic t → ∃ s', (s.closeRecords t level).2 = .ok s' ∧
        (s'.apply t).same (s.applyShapes t) = true ∧
        ∀ v ∈ (s'.apply t).freeVars, s'.records.get? v.id = none)) := by
  refine ⟨fun _ _ => closings_iff hs, length_closeRecords_le s t level, fun above => ?_⟩
  cases outcome : (s.closeRecords t level).2 with
  | error clash =>
    obtain ⟨cyclic, v, record, rfl⟩ := cyclic_of_closeRecords hs outcome
    exact ⟨iff_of_true ⟨v, record, rfl⟩ cyclic, fun acyclic => absurd cyclic acyclic⟩
  | ok s' =>
    have closes := closes_closeRecords hs above outcome
    refine ⟨iff_of_false (by simp) (closes.acyclic hs), fun _ => ⟨s', rfl, ?_, fun v hv => ?_⟩⟩
    · exact closes.same_applyShapes hs
    · exact closes.done v (mem_vars_of_mem_freeVars hv)

namespace Closing

def files : Subst where
  records := [(0, [("owner", .var ⟨1, 1⟩)]), (1, [("name", .const "String")])]

def file : Ty := .var ⟨0, 1⟩

theorem reaches_files {v : TypeVar} (h : files.Reaches file v) : v = ⟨0, 1⟩ ∨ v = ⟨1, 1⟩ := by
  induction h with
  | occurs hv =>
    exact .inl (by simpa [files, file, apply, mapVars, resolve, size, relevel, vars] using hv)
  | field _ recorded hf hw ih =>
    rcases ih with rfl | rfl
    · cases recorded
      obtain rfl := List.mem_singleton.1 hf
      exact .inr (by simpa [files, apply, mapVars, resolve, size, relevel, vars] using hw)
    · cases recorded
      obtain rfl := List.mem_singleton.1 hf
      simp [apply, mapVars, vars] at hw

theorem applyShapes_files : files.applyShapes file =
    .record [("owner", .record [("name", .const "String")])] := by
  cbv

theorem acyclic_files : ¬files.Cyclic file := by
  have link {id other : Nat} (h : files.Link id other) : id = 0 ∧ other = 1 := by
    obtain ⟨fields, recorded, field, hf, mentions⟩ := h
    simp only [files, Assoc.get?_cons] at recorded
    split at recorded
    · cases recorded
      obtain rfl := List.mem_singleton.1 hf
      have : 1 = other := by
        simpa [files, apply, mapVars, resolve, size, relevel, mentions_var] using mentions
      omega
    · split at recorded
      · cases recorded
        obtain rfl := List.mem_singleton.1 hf
        simp [apply, mapVars, Ty.mentions, vars] at mentions
      · simp at recorded
  rintro ⟨v, -, cycle⟩
  obtain ⟨mid, first, -⟩ := TransGen.head'_iff.1 cycle
  obtain ⟨last, -, final⟩ := TransGen.tail'_iff.1 cycle
  have := (link first).1
  have := (link final).2
  omega

theorem closeRecords_agrees_files : files.Resolved ∧ files.OpenAbove file 0 ∧
    ∃ s', (files.closeRecords file 0).2 = .ok s' ∧
      (s'.apply file).same (.record [("owner", .record [("name", .const "String")])]) = true ∧
      ∀ v ∈ (s'.apply file).freeVars, s'.records.get? v.id = none := by
  have resolved : files.Resolved := fun _ _ h => by simp [files] at h
  have above : files.OpenAbove file 0 := fun v hv _ => by
    rcases reaches_files hv with rfl | rfl <;> decide
  refine ⟨resolved, above, ?_⟩
  rw [← applyShapes_files]
  exact ((closeRecords_agrees resolved file 0).2.2 above).2 acyclic_files

end Closing

end Polytype.Subst
