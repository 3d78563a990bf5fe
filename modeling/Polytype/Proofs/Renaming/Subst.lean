import Polytype.Proofs.Renaming.Ty
import Polytype.Subst.Closing

namespace Polytype

instance : Renamable Subst where
  rename ρ s :=
    { types := s.types.relabel ρ (rename ρ)
      levels := s.levels.relabel ρ id
      records := s.records.relabel ρ (rename ρ) }

instance : Renamable Clash where
  rename ρ
    | .mismatch expected actual => .mismatch (rename ρ expected) (rename ρ actual)
    | .infinite v t => .infinite (rename ρ v) (rename ρ t)
    | .arity expected actual expectedArity actualArity =>
      .arity (rename ρ expected) (rename ρ actual) expectedArity actualArity
    | .missingField field expected actual =>
      .missingField field (rename ρ expected) (rename ρ actual)

instance : Renamable Closing where
  rename ρ closing := ⟨rename ρ closing.v, rename ρ closing.record⟩

namespace Subst

variable (ρ : Renaming) (s : Subst)

@[simp] theorem rename_types : (rename ρ s).types = s.types.relabel ρ (rename ρ) := rfl

@[simp] theorem rename_levels : (rename ρ s).levels = s.levels.relabel ρ id := rfl

@[simp] theorem rename_records : (rename ρ s).records = s.records.relabel ρ (rename ρ) := rfl

@[simp] theorem rename_empty : rename ρ empty = empty := rfl

@[simp] theorem isVar_rename (t : Ty) (id : Nat) : isVar (rename ρ t) (ρ id) = isVar t id := by
  cases t <;> simp [isVar]

@[simp] theorem ofPairs_rename (pairs : List (TypeVar × Ty)) :
    ofPairs (pairs.map (rename ρ)) = rename ρ (ofPairs pairs) := by
  have types : (ofPairs (pairs.map (rename ρ))).types =
      Assoc.ofList (Assoc.relabel ρ (rename ρ)
        ((pairs.filter fun pair => !isVar pair.2 pair.1.id).map fun pair => (pair.1.id, pair.2))) := by
    simp [ofPairs, Assoc.relabel, List.filter_map, Function.comp_def]
  calc ofPairs (pairs.map (rename ρ))
      = { types := (ofPairs (pairs.map (rename ρ))).types } := rfl
    _ = rename ρ (ofPairs pairs) := by rw [types, Assoc.ofList_relabel]; rfl

@[simp] theorem size_rename : (rename ρ s).size = s.size := by
  simp [size]

@[simp] theorem isBound_rename (id : Nat) : (rename ρ s).isBound (ρ id) = s.isBound id := by
  simp [isBound]

/-! ## Application -/

@[simp] theorem relevel_rename (v : TypeVar) :
    (rename ρ s).relevel (rename ρ v) = rename ρ (s.relevel v) := by
  simp only [relevel, rename_levels, rename_id, Assoc.get?_relabel]
  cases s.levels.get? v.id <;> rfl

theorem resolve_rename (steps : Nat) (v : TypeVar) :
    (rename ρ s).resolve steps (rename ρ v) = rename ρ (s.resolve steps v) := by
  induction steps generalizing v with
  | zero => simp [resolve]
  | succ steps ih =>
    simp only [resolve, rename_types, rename_id, Assoc.get?_relabel]
    cases s.types.get? v.id with
    | none => simp
    | some t => exact Ty.mapVars_rename ρ ih t

@[simp] theorem apply_rename (t : Ty) : (rename ρ s).apply (rename ρ t) = rename ρ (s.apply t) := by
  rw [apply, size_rename]
  exact Ty.mapVars_rename ρ (resolve_rename ρ s s.size) t

@[simp] theorem map_apply_rename (ts : List Ty) :
    (ts.map (rename ρ)).map (rename ρ s).apply = (ts.map s.apply).map (rename ρ) := by
  simp [Function.comp_def]

@[simp] theorem applyFields_rename (fields : List (String × Ty)) :
    (rename ρ s).applyFields (fields.map (rename ρ)) = (s.applyFields fields).map (rename ρ) :=
  Assoc.mapValues_rename fields (apply_rename ρ s)

@[simp] theorem applyScheme_rename (σ : Scheme) :
    (rename ρ s).applyScheme (rename ρ σ) = rename ρ (s.applyScheme σ) := by
  have unquantified : (rename ρ s).types.filterKeys (fun id => !(rename ρ σ).binds id) =
      (s.types.filterKeys fun id => !σ.binds id).relabel ρ (rename ρ) :=
    Assoc.filterKeys_relabel ρ _ _ fun i => by simp
  simp only [applyScheme, unquantified]
  exact congrArg (Scheme.mk _)
    (apply_rename ρ { s with types := s.types.filterKeys fun id => !σ.binds id } σ.ty)

/-! ## Composition -/

theorem lowest_rename (levels newer : Assoc Nat Nat) :
    lowest (levels.relabel ρ id) (newer.relabel ρ id) = (lowest levels newer).relabel ρ id := by
  refine Assoc.foldl_relabel ρ id levels id (fun acc entry => ?_) newer
  rw [← Assoc.insert_relabel, Assoc.get?_relabel, Option.map_id_fun]
  rfl

theorem mergeRecords_rename (records newer : Assoc Nat (List (String × Ty))) :
    mergeRecords (records.relabel ρ (rename ρ)) (newer.relabel ρ (rename ρ)) =
      (mergeRecords records newer).relabel ρ (rename ρ) := by
  refine Assoc.foldl_relabel ρ (rename ρ) records (rename ρ) (fun acc entry => ?_) newer
  rw [← Assoc.insert_relabel, Assoc.get?_relabel]
  congr 1
  cases acc.get? entry.1 with
  | none => exact Assoc.insertAll_rename ρ [] entry.2
  | some fields => exact Assoc.insertAll_rename ρ fields entry.2

@[simp] theorem compose_rename (newer older : Subst) :
    compose (rename ρ newer) (rename ρ older) = rename ρ (newer.compose older) := by
  have types : (compose (rename ρ newer) (rename ρ older)).types =
      (newer.compose older).types.relabel ρ (rename ρ) := by
    simp only [compose, rename_types]
    rw [Assoc.mapValues_relabel ρ (rename ρ) older.types (apply_rename ρ newer),
      Assoc.insertAll_relabel]
  have records : (compose (rename ρ newer) (rename ρ older)).records =
      (newer.compose older).records.relabel ρ (rename ρ) := by
    have kept : (rename ρ older).records.filterKeys
          (fun id => !(compose (rename ρ newer) (rename ρ older)).types.contains id) =
        (older.records.filterKeys fun id => !(newer.compose older).types.contains id).relabel ρ
          (rename ρ) := by
      rw [types]
      exact Assoc.filterKeys_relabel ρ _ _ fun i => by simp
    calc (compose (rename ρ newer) (rename ρ older)).records
        = mergeRecords (((rename ρ older).records.filterKeys
            (fun id => !(compose (rename ρ newer) (rename ρ older)).types.contains id)).mapValues
            (rename ρ newer).applyFields) (rename ρ newer).records := rfl
      _ = (newer.compose older).records.relabel ρ (rename ρ) := by
          rw [kept, Assoc.mapValues_relabel ρ (rename ρ) _ (applyFields_rename ρ newer),
            rename_records, mergeRecords_rename]
          rfl
  have levels := lowest_rename ρ older.levels newer.levels
  exact (congr (congr (congrArg Subst.mk types) levels) records : Subst.mk _ _ _ = Subst.mk _ _ _)

/-! ## Reachable variables and levels -/

theorem fieldVars_rename (fields : List (String × Ty)) :
    (rename ρ s).fieldVars (fields.map (rename ρ)) = (s.fieldVars fields).map (rename ρ) := by
  simp [fieldVars, List.flatMap_map, List.map_flatMap]

theorem visit_rename (records : Assoc Nat (List (String × Ty))) (seen pending : List TypeVar) :
    (rename ρ s).visit (records.relabel ρ (rename ρ)) (seen.map (rename ρ))
      (pending.map (rename ρ)) = (s.visit records seen pending).map (rename ρ) := by
  fun_induction visit s records seen pending with
  | case1 records seen => rw [List.map_nil, visit]
  | case2 records seen v rest old ih =>
    rw [List.map_cons, visit, if_pos (by simpa [Function.comp_def] using old), ih]
  | case3 records seen v rest new absent ih =>
    rw [List.map_cons, visit, if_neg (by simpa [Function.comp_def] using new)]
    split
    · exact ih
    · rename_i present
      simp [absent] at present
  | case4 records seen v rest new fields present ih =>
    rw [List.map_cons, visit, if_neg (by simpa [Function.comp_def] using new)]
    split
    · rename_i absent
      simp [present] at absent
    · rename_i fields' present'
      obtain rfl : fields.map (rename ρ) = fields' := by simpa [present] using present'
      rw [rename_id, Assoc.erase_relabel, fieldVars_rename, ← ih]
      simp

@[simp] theorem reachable_rename (t : Ty) :
    (rename ρ s).reachable (rename ρ t) = (s.reachable t).map (rename ρ) := by
  have start : ((rename ρ s).apply (rename ρ t)).freeVars.reverse =
      (s.apply t).freeVars.reverse.map (rename ρ) := by simp
  rw [reachable, start]
  exact visit_rename ρ s s.records [] _

@[simp] theorem loweredLevels_rename (t : Ty) (level : Nat) :
    (rename ρ s).loweredLevels (rename ρ t) level = (s.loweredLevels t level).relabel ρ id := by
  rw [loweredLevels, loweredLevels, ← Assoc.ofList_relabel]
  simp [Assoc.relabel, List.filter_map, Function.comp_def]

@[simp] theorem bind_rename (v : TypeVar) (t : Ty) :
    (rename ρ s).bind (rename ρ v) (rename ρ t) = rename ρ (s.bind v t) := by
  let binding : Subst := { types := [(v.id, t)], levels := s.loweredLevels t v.level }
  have renamed : rename ρ binding =
      { types := [((rename ρ v).id, rename ρ t)]
        levels := (rename ρ s).loweredLevels (rename ρ t) (rename ρ v).level } := by
    rw [loweredLevels_rename]
    rfl
  simp only [bind]
  rw [← renamed, compose_rename, rename_records, rename_id, Assoc.erase_relabel]
  rfl

@[simp] theorem lower_rename (t : Ty) (level : Nat) :
    (rename ρ s).lower (rename ρ t) level = rename ρ (s.lower t level) := by
  have none_iff : ((s.loweredLevels t level).relabel ρ id).isEmpty =
      (s.loweredLevels t level).isEmpty := by simp [Assoc.relabel]
  simp only [lower, loweredLevels_rename, none_iff]
  split
  · rfl
  · exact compose_rename ρ { levels := s.loweredLevels t level } s

/-! ## Open records -/

@[simp] theorem recordShape_rename (v : TypeVar) :
    (rename ρ s).recordShape (rename ρ v) = (s.recordShape v).map (rename ρ) := by
  simp only [recordShape, rename_id, isBound_rename, rename_records, Assoc.get?_relabel]
  split
  · rfl
  · cases s.records.get? v.id with
    | none => rfl
    | some fields => exact congrArg some (applyFields_rename ρ s fields)

@[simp] theorem knownField_rename (v : TypeVar) (field : String) :
    (rename ρ s).knownField (rename ρ v) field = (s.knownField v field).map (rename ρ) := by
  simp only [knownField, rename_id, rename_records, Assoc.get?_relabel]
  cases s.records.get? v.id with
  | none => rfl
  | some fields => cases h : Assoc.get? fields field <;> simp [h]

@[simp] theorem requireField_rename (v : TypeVar) (field : String) (t : Ty) :
    (rename ρ s).requireField (rename ρ v) field (rename ρ t) =
      rename ρ (s.requireField v field t) := by
  have recorded (lowered : Subst) :
      (rename ρ lowered).records.insert (rename ρ v).id (Assoc.insert
        (((rename ρ lowered).records.get? (rename ρ v).id).getD []) field (rename ρ t)) =
      (lowered.records.insert v.id (Assoc.insert ((lowered.records.get? v.id).getD [])
        field t)).relabel ρ (rename ρ) := by
    rw [← Assoc.insert_relabel, rename_records, rename_id, Assoc.get?_relabel]
    congr 1
    cases lowered.records.get? v.id with
    | none => rfl
    | some fields => exact Assoc.insert_rename ρ fields field t
  simp only [requireField, ← Ty.rename_var, apply_rename]
  cases s.apply (.var v) <;>
    simp only [Ty.rename_var, Ty.rename_const, Ty.rename_app, Ty.rename_func, Ty.rename_record,
      Ty.rename_tuple, rename_level, lower_rename, recorded] <;>
    rfl

theorem expandShapes_rename (records : Assoc Nat (List (String × Ty))) (t : Ty) :
    (rename ρ s).expandShapes (records.relabel ρ (rename ρ)) (rename ρ t) =
      rename ρ (s.expandShapes records t) := by
  induction hn : records.length using Nat.strong_induction_on generalizing records t with
  | h n ih =>
  rw [expandShapes, expandShapes]
  refine Ty.mapVars_rename ρ (fun v => ?_) t
  split
  · rename_i absent
    have absent : records.get? v.id = none := by simpa using absent
    split
    · rfl
    · rename_i present
      simp [absent] at present
  · rename_i fields' present'
    obtain ⟨fields, present, rfl⟩ : ∃ fields, records.get? v.id = some fields ∧
        fields.map (rename ρ) = fields' := by simpa using present'
    split
    · rename_i absent
      simp [present] at absent
    · rename_i fields' present'
      obtain rfl : fields = fields' := by simpa [present] using present'
      have smaller := Assoc.length_erase_lt present
      simp only [rename_id, Assoc.erase_relabel, Ty.rename_record, List.map_map]
      congr 1
      refine List.map_congr_left fun field _ => ?_
      simp [ih _ (hn ▸ smaller) (records.erase v.id) (s.apply field.2) rfl]

@[simp] theorem applyShapes_rename (t : Ty) :
    (rename ρ s).applyShapes (rename ρ t) = rename ρ (s.applyShapes t) := by
  rw [applyShapes, apply_rename]
  exact expandShapes_rename ρ s s.records (s.apply t)

@[simp] theorem openRecord?_rename (t : Ty) (level : Nat) :
    (rename ρ s).openRecord? (rename ρ t) level = (s.openRecord? t level).map (rename ρ) := by
  simp [openRecord?, List.filter_map, List.findSome?_map, List.map_findSome?, Function.comp_def]

theorem closeRecords_rename (t : Ty) (level : Nat) :
    (rename ρ s).closeRecords (rename ρ t) level = rename ρ (s.closeRecords t level) := by
  fun_induction closeRecords s t level with
  | case1 s closed =>
    rw [closeRecords]
    split
    · rfl
    · rename_i found
      simp [closed] at found
  | case2 s v fields found cyclic =>
    rw [closeRecords]
    split
    · rename_i closed
      simp [found] at closed
    · rename_i v' fields' found'
      obtain ⟨rfl, rfl⟩ : rename ρ v = v' ∧ fields.map (rename ρ) = fields' := by
        simpa [found] using found'
      rw [← Ty.rename_record, rename_id, Ty.mentions_rename, if_pos cyclic]
      rfl
  | case3 s v fields found acyclic closed result run ih =>
    rw [closeRecords]
    split
    · rename_i closed
      simp [found] at closed
    · rename_i v' fields' found'
      obtain ⟨rfl, rfl⟩ : rename ρ v = v' ∧ fields.map (rename ρ) = fields' := by
        simpa [found] using found'
      rw [← Ty.rename_record, rename_id, Ty.mentions_rename, if_neg acyclic, bind_rename, ih, run]
      rfl

end Subst

end Polytype
