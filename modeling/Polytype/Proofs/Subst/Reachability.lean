import Mathlib.Order.Bounds.Defs
import Polytype.Proofs.Subst.Closing
import Polytype.Proofs.Unification.Termination

/-!
# Exactly what is reachable is lowered

The search for the variables that a type reaches goes in rounds. Each takes up one pending variable;
a cycle of recorded fields makes a variable pending again, but its fields are looked at once only, so
the search comes to an end. No round leaves what the type reaches, and in the end nothing leads out of
what has been seen. So the search finds the least set of variables that has those of the type and,
with each variable, those of its fields (`Resolved.isLeast_reachable`).

Lowering puts these variables to a level or below it and no others (`level_lower`). Up to levels,
types and recorded fields stay as they are.
-/

namespace Polytype.Subst

open Ty Relation

/-! ## Rounds of the search -/

structure Search where
  seen : List TypeVar
  pending : List TypeVar

def Search.start (s : Subst) (t : Ty) : Search := ⟨[], (s.apply t).freeVars.reverse⟩

/-- A round takes up the next variable. If it has not been seen, the variables of its fields become
pending; to get them, bindings are followed to their end. -/
inductive Search.Round (s : Subst) : Search → Search → Prop
  | again {seen rest : List TypeVar} {v : TypeVar} : v.id ∈ seen.map (·.id) →
      Round s ⟨seen, v :: rest⟩ ⟨seen, rest⟩
  | plain {seen rest : List TypeVar} {v : TypeVar} : v.id ∉ seen.map (·.id) →
      s.records.get? v.id = none → Round s ⟨seen, v :: rest⟩ ⟨v :: seen, rest⟩
  | recorded {seen rest : List TypeVar} {v : TypeVar} {fields : List (String × Ty)} :
      v.id ∉ seen.map (·.id) → s.records.get? v.id = some fields →
      (∀ field ∈ fields, s.Applicable field.2) →
      Round s ⟨seen, v :: rest⟩ ⟨v :: seen, (s.fieldVars fields).reverse ++ rest⟩

/-- The search cannot go on forever, and wherever it cannot go on it has this result. -/
structure Search.Ends (s : Subst) (w : Search) (result : List TypeVar) : Prop where
  finite : Acc (fun next now => Round s now next) w
  last : ∀ w', ReflTransGen (Round s) w w' → (∀ next, ¬Round s w' next) → w' = ⟨result, []⟩

def unseenRecords (s : Subst) (seen : List TypeVar) : Assoc Nat (List (String × Ty)) :=
  s.records.filterKeys fun id => !seen.any (·.id == id)

def Search.result (s : Subst) (w : Search) : List TypeVar :=
  s.visit (s.unseenRecords w.seen) w.seen w.pending

section Visit

variable {s : Subst} {records : Assoc Nat (List (String × Ty))} {seen rest : List TypeVar}
  {v : TypeVar}

theorem visit_again (known : v.id ∈ seen.map (·.id)) :
    s.visit records seen (v :: rest) = s.visit records seen rest := by
  have old : seen.any (·.id == v.id) = true := by simpa using known
  rw [visit]
  simp only [old, if_true]

theorem visit_plain (new : v.id ∉ seen.map (·.id)) (h : records.get? v.id = none) :
    s.visit records seen (v :: rest) = s.visit records (v :: seen) rest := by
  have unseen : seen.any (·.id == v.id) = false := by simpa using new
  rw [visit]
  simp only [unseen, Bool.false_eq_true, if_false]
  split
  · rfl
  · simp_all

theorem visit_recorded {fields : List (String × Ty)} (new : v.id ∉ seen.map (·.id))
    (h : records.get? v.id = some fields) :
    s.visit records seen (v :: rest) =
      s.visit (records.erase v.id) (v :: seen) ((s.fieldVars fields).reverse ++ rest) := by
  have unseen : seen.any (·.id == v.id) = false := by simpa using new
  rw [visit]
  simp only [unseen, Bool.false_eq_true, if_false]
  split <;> simp_all

theorem get?_unseenRecords (new : v.id ∉ seen.map (·.id)) :
    (s.unseenRecords seen).get? v.id = s.records.get? v.id := by
  have unseen : seen.any (·.id == v.id) = false := by simpa using new
  simp [unseenRecords, Assoc.get?_filterKeys, unseen]

theorem unseenRecords_cons :
    s.unseenRecords (v :: seen) = (s.unseenRecords seen).erase v.id := by
  unfold unseenRecords Assoc.erase Assoc.filterKeys
  rw [List.filter_filter]
  refine List.filter_congr fun entry _ => ?_
  by_cases h : v.id = entry.1
  · simp [h]
  · simp [h, Ne.symm h]

theorem unseenRecords_plain (h : s.records.get? v.id = none) :
    s.unseenRecords (v :: seen) = s.unseenRecords seen := by
  rw [unseenRecords_cons]
  refine List.filter_eq_self.2 fun entry he => ?_
  have recorded : entry.1 ∈ s.records.map (·.1) := List.mem_map_of_mem (List.mem_filter.1 he).1
  have apart : entry.1 ≠ v.id := fun heq => Assoc.get?_eq_none.1 h (heq ▸ recorded)
  simpa using apart

end Visit

namespace Search

variable {s : Subst} {t : Ty} {w w' : Search}

theorem result_start (s : Subst) (t : Ty) : (start s t).result s = s.reachable t := by
  simp [start, result, reachable, unseenRecords, Assoc.filterKeys]

theorem result_done (s : Subst) (seen : List TypeVar) : result s ⟨seen, []⟩ = seen := by
  rw [result, visit]

theorem Round.result_eq (h : Round s w w') : w'.result s = w.result s := by
  cases h with
  | again known => exact (visit_again known).symm
  | plain new unrecorded =>
    simp only [result, unseenRecords_plain unrecorded]
    exact (visit_plain new ((get?_unseenRecords new).trans unrecorded)).symm
  | recorded new recorded _ =>
    simp only [result, unseenRecords_cons]
    exact (visit_recorded new ((get?_unseenRecords new).trans recorded)).symm

theorem Round.decreases (h : Round s w w') :
    Prod.Lex (· < ·) (· < ·) ((s.unseenRecords w'.seen).length, w'.pending.length)
      ((s.unseenRecords w.seen).length, w.pending.length) := by
  -- Only fields that are looked at for the first time can make the list of pending variables longer.
  cases h with
  | again known => exact .right _ (Nat.lt_succ_self _)
  | plain new unrecorded =>
    simp only [unseenRecords_plain unrecorded]
    exact .right _ (Nat.lt_succ_self _)
  | recorded new recorded _ =>
    simp only [unseenRecords_cons]
    exact .left _ _ (Assoc.length_erase_lt ((get?_unseenRecords new).trans recorded))

theorem wellFounded_round (s : Subst) : WellFounded fun next now => Round s now next :=
  Subrelation.wf Round.decreases
    (InvImage.wf (fun w : Search => ((s.unseenRecords w.seen).length, w.pending.length))
      (Prod.lex Nat.lt_wfRel Nat.lt_wfRel).wf)

theorem exists_round (hs : s.Resolved) (h : w.pending ≠ []) : ∃ next, Round s w next := by
  obtain ⟨seen, pending⟩ := w
  obtain ⟨v, rest, rfl⟩ := List.exists_cons_of_ne_nil h
  by_cases known : v.id ∈ seen.map (·.id)
  · exact ⟨_, .again known⟩
  · cases recorded : s.records.get? v.id with
    | none => exact ⟨_, .plain known recorded⟩
    | some fields => exact ⟨_, .recorded known recorded fun field _ => hs.applicable field.2⟩

theorem result_eq_of_run (h : ReflTransGen (Round s) w w') : w'.result s = w.result s := by
  induction h with
  | refl => rfl
  | tail _ round ih => exact round.result_eq.trans ih

theorem run_result (hs : s.Resolved) (w : Search) : ReflTransGen (Round s) w ⟨w.result s, []⟩ := by
  induction w using (wellFounded_round s).induction with
  | _ w ih =>
  by_cases done : w.pending = []
  · obtain ⟨seen, pending⟩ := w
    obtain rfl : pending = [] := done
    rw [result_done]
  · obtain ⟨next, round⟩ := exists_round hs done
    exact .head round (round.result_eq ▸ ih next round)

theorem ends_start (hs : s.Resolved) (t : Ty) : (start s t).Ends s (s.reachable t) := by
  refine ⟨(wellFounded_round s).apply _, fun w run stuck => ?_⟩
  -- Nothing but the end of the pending variables stops the search.
  have done : w.pending = [] := by
    by_contra more
    obtain ⟨next, round⟩ := exists_round hs more
    exact stuck next round
  obtain ⟨seen, pending⟩ := w
  obtain rfl : pending = [] := done
  have final : seen = s.reachable t := by
    rw [← result_done s seen, result_eq_of_run run, result_start]
  rw [final]

/-! ## What is found -/

structure Sound (s : Subst) (t : Ty) (w : Search) : Prop where
  seen : ∀ v ∈ w.seen, s.Reaches t v
  pending : ∀ v ∈ w.pending, s.Reaches t v
  distinct : (w.seen.map (·.id)).Nodup

theorem sound_start (s : Subst) (t : Ty) : (start s t).Sound s t where
  seen _ hv := by simp [start] at hv
  pending _ hv := .occurs (mem_vars_of_mem_freeVars (List.mem_reverse.1 hv))
  distinct := .nil

theorem Round.sound (h : Round s w w') (hw : w.Sound s t) : w'.Sound s t := by
  obtain ⟨seen, pending, distinct⟩ := hw
  cases h with
  | again known => exact ⟨seen, (List.forall_mem_cons.1 pending).2, distinct⟩
  | plain new _ =>
    obtain ⟨hv, hrest⟩ := List.forall_mem_cons.1 pending
    exact ⟨List.forall_mem_cons.2 ⟨hv, seen⟩, hrest, List.nodup_cons.2 ⟨new, distinct⟩⟩
  | recorded new recorded _ =>
    obtain ⟨hv, hrest⟩ := List.forall_mem_cons.1 pending
    refine ⟨List.forall_mem_cons.2 ⟨hv, seen⟩, List.forall_mem_append.2 ⟨fun x hx => ?_, hrest⟩,
      List.nodup_cons.2 ⟨new, distinct⟩⟩
    obtain ⟨field, hf, hx⟩ := List.mem_flatMap.1 (List.mem_reverse.1 hx)
    exact hv.field recorded hf (mem_vars_of_mem_freeVars hx)

theorem Sound.run (hw : w.Sound s t) (h : ReflTransGen (Round s) w w') : w'.Sound s t := by
  induction h with
  | refl => exact hw
  | tail _ round ih => exact round.sound ih

theorem sound_reachable (hs : s.Resolved) (t : Ty) : Sound s t ⟨s.reachable t, []⟩ :=
  (sound_start s t).run (result_start s t ▸ run_result hs (start s t))

end Search

structure ClosedSet (s : Subst) (t : Ty) (C : Set Nat) : Prop where
  occurs : ∀ v ∈ (s.apply t).freeVars, v.id ∈ C
  field : ∀ id ∈ C, ∀ fields, s.records.get? id = some fields → ∀ field ∈ fields,
    ∀ v ∈ (s.apply field.2).freeVars, v.id ∈ C

section Reachable

variable {s : Subst} {t : Ty}

theorem Reaches.mem_closedSet {C : Set Nat} (hC : s.ClosedSet t C) {v : TypeVar}
    (h : s.Reaches t v) : v.id ∈ C := by
  induction h with
  | occurs hv =>
    obtain ⟨u, hu, hid⟩ := exists_mem_freeVars hv
    exact hid ▸ hC.occurs u hu
  | field _ recorded hf hw ih =>
    obtain ⟨u, hu, hid⟩ := exists_mem_freeVars hw
    exact hid ▸ hC.field _ ih _ recorded _ hf u hu

theorem closedSet_reachable (s : Subst) (t : Ty) :
    s.ClosedSet t {id | id ∈ (s.reachable t).map (·.id)} where
  occurs v hv := reachable_closed.1 v.id (mentions_iff.2 ⟨v, mem_vars_of_mem_freeVars hv, rfl⟩)
  field id hid fields recorded field hf v hv := reachable_closed.2 id hid v.id
    ⟨fields, recorded, field, hf, mentions_iff.2 ⟨v, mem_vars_of_mem_freeVars hv, rfl⟩⟩

theorem Resolved.isLeast_reachable (hs : s.Resolved) (t : Ty) :
    IsLeast {C : Set Nat | s.ClosedSet t C} {id | id ∈ (s.reachable t).map (·.id)} := by
  refine ⟨closedSet_reachable s t, fun C hC id hid => ?_⟩
  obtain ⟨v, hv, rfl⟩ := List.mem_map.1 hid
  exact ((Search.sound_reachable hs t).seen v hv).mem_closedSet hC

end Reachable

/-! ## What lowering changes -/

section Lower

variable {birth : Nat → Nat} {s : Subst} {t : Ty} {n : Nat}

theorem level_lower (hs : s.Resolved) (keeps : s.Keeps anyId (AllVars (s.Between birth)))
    (ht : AllVars (s.Between birth) t) (id : Nat) :
    (s.lower t n).level birth id =
      if id ∈ (s.reachable t).map (·.id) then min (s.level birth id) n else s.level birth id := by
  have hlevels := lower_levels s t n
  have le : (s.lower t n).level birth id ≤ s.level birth id := level_le_of_lowest hlevels
  have cases := @level_cases birth s (s.lower t n) t n id hlevels
  split
  · rename_i reached
    have low : (s.lower t n).level birth id ≤ n := level_le_of_reachable hlevels hs keeps ht reached
    omega
  · rename_i apart
    exact cases.resolve_right fun h => apart h.1

theorem Resolved.same_lower (hs : s.Resolved) (t : Ty) (n : Nat) (u : Ty) :
    ((s.lower t n).apply u).same (s.apply u) = true := by
  rw [same_iff, (resolved_lower hs t n).erase_apply, hs.erase_apply, image_lower]

theorem Resolved.recordShape_lower (hs : s.Resolved) (t : Ty) (n : Nat) {v : TypeVar}
    (unbound : s.isBound v.id = false) :
    Option.Rel (fun fields given => sameFields fields given = true)
      ((s.lower t n).recordShape v) (s.recordShape v) := by
  obtain ⟨levels, -, h⟩ := exists_lower s t n
  have lowering : Resolved { levels } := fun _ _ h => by simp at h
  have leveled : Solves s.image { levels } := fun id => by rw [image_unbound rfl, subst_var]
  simp only [recordShape, isBound_lower, unbound, (h v.id).2.1 unbound, Bool.false_eq_true, if_false]
  cases s.records.get? v.id with
  | none => exact .none
  | some fields =>
    have same : ((s.lower t n).apply (apply { levels } (.record fields))).same
        (s.apply (.record fields)) = true := by
      rw [same_iff, (resolved_lower hs t n).erase_apply, image_lower, leveled.subst_apply lowering,
        hs.erase_apply]
    exact .some (by simpa [apply_record, Ty.same] using same)

def capped (ids : List Nat) (n : Nat) (v : TypeVar) : TypeVar :=
  if v.id ∈ ids then ⟨v.id, min v.level n⟩ else v

theorem apply_lower (hs : s.Resolved) (keeps : s.Keeps anyId (AllVars (s.Between birth)))
    (ht : AllVars (s.Between birth) t) {u : Ty} (hu : AllVars (s.Between birth) u) :
    (s.lower t n).apply u =
      (s.apply u).mapVars fun v => .var (capped ((s.reachable t).map (·.id)) n v) := by
  rw [← hs.absorbs_lower t n u]
  refine mapVars_congr fun v hv => ?_
  have current : s.Current birth (s.apply u) := hs.current_apply keeps hu
  have unbound : (s.lower t n).isBound v.id = false := by
    rw [isBound_lower]
    exact within_iff.1 current.2 v hv
  have between : (s.lower t n).Between birth v :=
    (allVars_iff.1 current.between v hv).lowered (level_le_of_lowest (lower_levels s t n))
  rw [resolve_unbound unbound, between.relevel, level_lower hs keeps ht, capped,
    ← allVars_iff.1 current.1 v hv]
  split <;> rfl

end Lower

/-- The search for what a type reaches comes to an end, whatever the recorded fields lead back to. It
finds the least set of variables that has those of the type and, with each variable, those of its
fields. Lowering leaves types and recorded fields as they are, up to levels. If every variable was
created at one level, and occurs at this one or at one to which it was lowered since, then each
variable of the set gets the lower of its level and `n`, and every other stays at its level. -/
theorem lowers_reachable_exactly {s : Subst} (hs : s.Resolved) (t : Ty) (n : Nat) :
    let reached := (s.reachable t).map (·.id)
    let lowered := s.lower t n
    s.Applicable t ∧ (Search.start s t).Ends s (s.reachable t) ∧ reached.Nodup ∧
    IsLeast {C : Set Nat | s.ClosedSet t C} {id | id ∈ reached} ∧
    (∀ u, (lowered.apply u).same (s.apply u) = true) ∧
    (∀ v, s.isBound v.id = false →
      Option.Rel (fun fields given => sameFields fields given = true)
        (lowered.recordShape v) (s.recordShape v)) ∧
    ∀ birth, s.Keeps anyId (AllVars (s.Between birth)) → AllVars (s.Between birth) t →
      (∀ id, lowered.level birth id =
        if id ∈ reached then min (s.level birth id) n else s.level birth id) ∧
      ∀ u, AllVars (s.Between birth) u →
        lowered.apply u = (s.apply u).mapVars fun v => .var (capped reached n v) := by
  intro reached lowered
  exact ⟨hs.applicable t, Search.ends_start hs t, (Search.sound_reachable hs t).distinct,
    hs.isLeast_reachable t, hs.same_lower t n, fun v => hs.recordShape_lower t n,
    fun birth keeps ht => ⟨level_lower hs keeps ht, fun u => apply_lower hs keeps ht⟩⟩

namespace Reachability

def tasks : Subst where
  types := [(2, .list (.var ⟨0, 3⟩))]
  levels := [(1, 1)]
  records := [(0, [("owner", .var ⟨1, 4⟩)]), (1, [("tasks", .var ⟨2, 3⟩)])]

def task : Ty := .var ⟨0, 3⟩

def birth (id : Nat) : Nat := [3, 4, 3, 5].getD id 0

theorem reachable_task : tasks.reachable task = [⟨1, 1⟩, ⟨0, 3⟩] := by
  cbv

theorem lowers_reachable_exactly_task : tasks.Resolved ∧
    tasks.Keeps anyId (AllVars (tasks.Between birth)) ∧ AllVars (tasks.Between birth) task ∧
    (Search.start tasks task).Ends tasks [⟨1, 1⟩, ⟨0, 3⟩] ∧
    IsLeast {C : Set Nat | tasks.ClosedSet task C} {id | id ∈ [1, 0]} ∧
    (tasks.lower task 2).level birth 0 = 2 ∧ (tasks.lower task 2).level birth 1 = 1 ∧
    (tasks.lower task 2).level birth 3 = 5 := by
  have bound {id : Nat} {t : Ty} (h : tasks.types.get? id = some t) : t = .list (.var ⟨0, 3⟩) := by
    have mem : (id, t) ∈ tasks.types := Assoc.mem_of_get? h
    exact (Prod.mk.inj (List.mem_singleton.1 mem)).2
  have resolved : tasks.Resolved := fun id t h => by
    obtain rfl := bound h
    exact within_iff.2 (by decide)
  have between : ∀ v ∈ [⟨0, 3⟩, ⟨1, 4⟩, ⟨2, 3⟩], tasks.Between birth v := by
    unfold Between
    decide
  have keeps : tasks.Keeps anyId (AllVars (tasks.Between birth)) := by
    refine ⟨fun _ h => ?_, fun {id fields} _ _ h => allVars_iff.2 fun v hv => ?_⟩
    · obtain rfl := bound h
      exact allVars_iff.2 fun v hv => between v (by simp_all [vars, varsList])
    · have mem : (id, fields) ∈ tasks.records := Assoc.mem_of_get? h
      simp only [tasks, List.mem_cons, Prod.mk.injEq, List.not_mem_nil, or_false] at mem
      rcases mem with ⟨-, rfl⟩ | ⟨-, rfl⟩ <;> exact between v (by simp_all [vars, varsFields])
  have ht : AllVars (tasks.Between birth) task := .var (between _ List.mem_cons_self)
  obtain ⟨-, ends, -, least, -, -, lowers⟩ := lowers_reachable_exactly resolved task 2
  have level := (lowers birth keeps ht).1
  rw [reachable_task] at ends least level
  exact ⟨resolved, keeps, ht, ends, least, (level 0).trans rfl, (level 1).trans rfl,
    (level 3).trans rfl⟩

end Reachability

end Polytype.Subst
