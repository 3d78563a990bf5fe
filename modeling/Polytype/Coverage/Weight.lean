import Polytype.Coverage.Matrix

/-!
# Splitting a column makes a matrix lighter

The weight of a matrix is the sum over its rows of the product of the weights of their patterns. A
head weighs one more than its arguments together, a choice more than all its alternatives. So
spreading choices over rows and passing over a column keep the weight from growing, and splitting
a column in which some row does not start with a wildcard lowers it
(`weight_specializeRows_lt`).
-/

namespace Polytype

namespace Pat

mutual

def weight : Pat → Nat
  | any => 1
  | node _ args => 1 + weightList args
  | record fields => 1 + weightFields fields
  | either alternatives => 1 + weightSum alternatives

def weightList : List Pat → Nat
  | [] => 1
  | p :: ps => p.weight * weightList ps

def weightFields : List (String × Pat) → Nat
  | [] => 1
  | (_, p) :: rest => p.weight * weightFields rest

def weightSum : List Pat → Nat
  | [] => 0
  | p :: ps => p.weight + weightSum ps

end

theorem weight_pos (p : Pat) : 0 < p.weight := by
  cases p <;> simp only [weight] <;> omega

theorem weightList_pos (ps : List Pat) : 0 < weightList ps := by
  induction ps with
  | nil => exact Nat.one_pos
  | cons p ps ih => exact Nat.mul_pos p.weight_pos ih

theorem weightList_append (ps qs : List Pat) :
    weightList (ps ++ qs) = weightList ps * weightList qs := by
  induction ps with
  | nil => simp [weightList]
  | cons p ps ih => simp [weightList, ih, Nat.mul_assoc]

theorem weightSum_append (ps qs : List Pat) :
    weightSum (ps ++ qs) = weightSum ps + weightSum qs := by
  induction ps with
  | nil => simp [weightSum]
  | cons p ps ih => simp [weightSum, ih, Nat.add_assoc]

theorem weightList_replicate_any (n : Nat) : weightList (List.replicate n any) = 1 := by
  induction n with
  | zero => rfl
  | succ n ih => simp [List.replicate_succ, weightList, weight, ih]

theorem weightList_take_le (n : Nat) (ps : List Pat) :
    weightList (ps.take n) ≤ weightList ps := by
  induction ps generalizing n with
  | nil => simp
  | cons p ps ih =>
    cases n with
    | zero => exact weightList_pos _
    | succ n => exact Nat.mul_le_mul_left _ (ih n)

mutual

theorem weightSum_choices_le : ∀ p : Pat, weightSum p.choices ≤ p.weight
  | any => by simp [choices, weightSum, weight]
  | node head args => by simp [choices, weightSum]
  | record fields => by simp [choices, weightSum]
  | either alternatives => by
    have := weightSum_choicesList_le alternatives
    simp only [choices, weight]
    omega

theorem weightSum_choicesList_le : ∀ ps : List Pat, weightSum (choicesList ps) ≤ weightSum ps
  | [] => by simp [choicesList, weightSum]
  | p :: ps => by
    have := weightSum_choices_le p
    have := weightSum_choicesList_le ps
    simp only [choicesList, weightSum_append, weightSum]
    omega

end

theorem weightList_lookup_le (fields : List (String × Pat)) {names : List String}
    (h : names.Nodup) :
    weightList (names.map fun name => (Assoc.get? fields name).getD any) ≤
      weightFields fields := by
  induction fields generalizing names with
  | nil =>
    simp only [Assoc.get?_nil, Option.getD_none, List.map_const']
    exact Nat.le_of_eq (weightList_replicate_any _)
  | cons field rest ih =>
    obtain ⟨key, p⟩ := field
    -- Of distinct names, at most one is the key of the field in front.
    have front : ∀ names : List String, names.Nodup →
        weightList (names.map fun name => (Assoc.get? ((key, p) :: rest) name).getD any) ≤
          p.weight *
            weightList ((names.filter (· ≠ key)).map fun name =>
              (Assoc.get? rest name).getD any) := by
      intro names
      induction names with
      | nil => exact fun _ => Nat.mul_pos p.weight_pos Nat.one_pos
      | cons name names ihNames =>
        intro nodup
        obtain ⟨fresh, nodup⟩ := List.nodup_cons.1 nodup
        by_cases hname : name = key
        · subst hname
          have others : names.filter (· ≠ name) = names :=
            List.filter_eq_self.2 fun other hother =>
              decide_eq_true fun heq => fresh (heq ▸ hother)
          have lookup : names.map (fun other => (Assoc.get? ((name, p) :: rest) other).getD any) =
              names.map fun other => (Assoc.get? rest other).getD any :=
            List.map_congr_left fun other hother => by
              rw [Assoc.get?_cons, if_neg fun heq : name = other => fresh (heq ▸ hother)]
          rw [List.map_cons, weightList, lookup, List.filter_cons_of_neg (by simp), others,
            Assoc.get?_cons, if_pos rfl]
          exact Nat.le_refl _
        · have := Nat.mul_le_mul_left ((Assoc.get? rest name).getD any).weight (ihNames nodup)
          rw [List.map_cons, weightList, List.filter_cons_of_pos (by simpa using hname),
            List.map_cons, weightList, Assoc.get?_cons, if_neg fun heq => hname heq.symm]
          calc _ ≤ _ := this
            _ = _ := Nat.mul_left_comm _ _ _
    exact Nat.le_trans (front names h)
      (Nat.mul_le_mul_left _ (ih (h.filter _)))

end Pat

namespace Coverage

open Pat

def weight : List Row → Nat
  | [] => 0
  | row :: rows => weightList row + weight rows

theorem weight_append (rows others : List Row) :
    weight (rows ++ others) = weight rows + weight others := by
  induction rows with
  | nil => simp [weight]
  | cons row rows ih => simp [weight, ih, Nat.add_assoc]

/-! ## Spreading choices -/

theorem weight_map_cons (ps : List Pat) (rest : Row) :
    weight (ps.map (· :: rest)) = weightSum ps * weightList rest := by
  induction ps with
  | nil => simp [weight, weightSum]
  | cons p ps ih => simp [weight, weightSum, weightList, ih, Nat.add_mul]

theorem weight_splitRow_le (row : Row) : weight (splitRow row) ≤ weightList row := by
  cases row with
  | nil => exact Nat.le_refl _
  | cons p rest =>
    rw [splitRow, weight_map_cons, weightList]
    exact Nat.mul_le_mul_right _ (weightSum_choices_le p)

theorem weight_splitRows_le (rows : List Row) : weight (splitRows rows) ≤ weight rows := by
  induction rows with
  | nil => exact Nat.le_refl _
  | cons row rows ih =>
    have := weight_splitRow_le row
    simp only [splitRows, List.flatMap_cons, weight_append, weight] at ih ⊢
    omega

/-! ## Passing over or splitting a column -/

theorem weight_filterMap_le {f : Row → Option Row}
    (h : ∀ row out, f row = some out → weightList out ≤ weightList row) (rows : List Row) :
    weight (rows.filterMap f) ≤ weight rows := by
  induction rows with
  | nil => exact Nat.le_refl _
  | cons row rows ih =>
    cases hrow : f row with
    | none =>
      rw [List.filterMap_cons_none hrow, weight]
      omega
    | some out =>
      have := h row out hrow
      rw [List.filterMap_cons_some hrow, weight, weight]
      omega

theorem weight_filterMap_lt {f : Row → Option Row}
    (h : ∀ row out, f row = some out → weightList out ≤ weightList row) {rows : List Row}
    {row : Row} (mem : row ∈ rows)
    (lighter : ∀ out, f row = some out → weightList out < weightList row) :
    weight (rows.filterMap f) < weight rows := by
  induction rows with
  | nil => simp at mem
  | cons first rows ih =>
    rcases List.mem_cons.1 mem with rfl | mem
    · have := weight_filterMap_le h rows
      have := weightList_pos row
      cases hrow : f row with
      | none =>
        rw [List.filterMap_cons_none hrow, weight]
        omega
      | some out =>
        have := lighter out hrow
        rw [List.filterMap_cons_some hrow, weight, weight]
        omega
    · have := ih mem
      cases hfirst : f first with
      | none =>
        rw [List.filterMap_cons_none hfirst, weight]
        omega
      | some out =>
        have := h first out hfirst
        rw [List.filterMap_cons_some hfirst, weight, weight]
        omega

theorem weight_passRows_le (rows : List Row) : weight (passRows rows) ≤ weight rows := by
  refine weight_filterMap_le (fun row out h => ?_) rows
  unfold passRow at h
  split at h
  · obtain rfl := Option.some.inj h
    simp [weightList, Pat.weight]
  · simp at h

theorem weightList_resize_le (arity : Nat) (args : List Pat) :
    weightList (resize arity args) ≤ weightList args := by
  rw [resize, weightList_append, weightList_replicate_any, Nat.mul_one]
  exact weightList_take_le arity args

def Distinct : Head → Prop
  | .record names => names.Nodup
  | _ => True

theorem weightList_specialize_lt {head : Head} (distinct : Distinct head) {arity : Nat}
    {row out : Row} (h : specialize head arity row = some out) (hrow : startsAny row = false) :
    weightList out < weightList row := by
  unfold specialize at h
  split at h
  · simp at h
  · simp [startsAny] at hrow
  · rename_i other args rest
    split at h
    · obtain rfl := Option.some.inj h
      rw [weightList_append, weightList, Pat.weight]
      exact Nat.mul_lt_mul_of_pos_right
        (Nat.lt_one_add_iff.2 (weightList_resize_le arity args)) (weightList_pos rest)
    · simp at h
  · rename_i fields rest
    split at h
    · rename_i names
      obtain rfl := Option.some.inj h
      rw [weightList_append, weightList, Pat.weight]
      exact Nat.mul_lt_mul_of_pos_right
        (Nat.lt_one_add_iff.2 (Nat.le_trans (weightList_resize_le arity _)
          (weightList_lookup_le fields distinct))) (weightList_pos rest)
    · simp at h
  · simp at h

theorem weightList_specialize_le {head : Head} (distinct : Distinct head) {arity : Nat}
    {row out : Row} (h : specialize head arity row = some out) :
    weightList out ≤ weightList row := by
  cases hrow : startsAny row with
  | false => exact Nat.le_of_lt (weightList_specialize_lt distinct h hrow)
  | true =>
    unfold startsAny at hrow
    split at hrow
    · simp [specialize] at h
    · simp only [specialize, Option.some.injEq] at h
      subst h
      simp [weightList_append, weightList_replicate_any, weightList, Pat.weight]
    · simp at hrow

theorem weight_specializeRows_lt {head : Head} (distinct : Distinct head) (arity : Nat)
    {rows : List Row} (h : rows.all startsAny = false) :
    weight (specializeRows head arity rows) < weight rows := by
  obtain ⟨row, mem, hrow⟩ := List.all_eq_false.1 h
  exact weight_filterMap_lt (fun _ _ => weightList_specialize_le distinct) mem
    fun _ hout => weightList_specialize_lt distinct hout (by simpa using hrow)

/-! ## The heads of a column have distinct names -/

theorem mem_insertName {name other : String} {names : List String} :
    other ∈ insertName name names ↔ other = name ∨ other ∈ names := by
  induction names with
  | nil => simp [insertName]
  | cons first rest ih =>
    unfold insertName
    split
    · simp
    · simp only [List.mem_cons, ih]
      exact or_left_comm

theorem nodup_insertName {name : String} {names : List String} (fresh : name ∉ names)
    (h : names.Nodup) : (insertName name names).Nodup := by
  induction names with
  | nil => simp [insertName]
  | cons first rest ih =>
    obtain ⟨hfirst, hrest⟩ := List.nodup_cons.1 h
    obtain ⟨hne, hfresh⟩ := not_or.1 (mt List.mem_cons.2 fresh)
    unfold insertName
    split
    · exact List.nodup_cons.2 ⟨fresh, h⟩
    · refine List.nodup_cons.2 ⟨?_, ih hfresh hrest⟩
      rw [mem_insertName]
      exact not_or.2 ⟨Ne.symm hne, hfirst⟩

theorem nodup_nameSet (names : List String) : (nameSet names).Nodup := by
  suffices general : ∀ set : List String, set.Nodup →
      (names.foldl (fun set name => if name ∈ set then set else insertName name set) set).Nodup
    from general [] List.nodup_nil
  induction names with
  | nil => exact fun _ h => h
  | cons name names ih =>
    intro set h
    refine ih _ ?_
    dsimp only
    split
    · exact h
    · exact nodup_insertName ‹_› h

theorem distinct_of_signature? {env : Env} {t : Ty} {rows : List Row} {all : List Head}
    (h : signature? env t rows = some all) : ∀ head ∈ all, Distinct head := by
  unfold signature? at h
  split at h
  · rename_i names hnames
    obtain rfl := Option.some.inj h
    intro head mem
    obtain rfl := List.mem_singleton.1 mem
    simp only [columnFields?] at hnames
    split at hnames
    · simp at hnames
    · obtain rfl := Option.some.inj hnames
      exact nodup_nameSet _
  · obtain rfl := Option.some.inj h
    intro head mem
    obtain rfl := List.mem_singleton.1 mem
    trivial
  · obtain rfl := Option.some.inj h
    intro head mem
    obtain rfl := List.mem_singleton.1 mem
    trivial
  · split at h
    · obtain rfl := Option.some.inj h
      simp [Distinct]
    split at h
    · obtain rfl := Option.some.inj h
      simp [Distinct]
    split at h
    · obtain rfl := Option.some.inj h
      simp [Distinct]
    · obtain ⟨alternatives, -, rfl⟩ := Option.map_eq_some_iff.1 h
      intro head mem
      obtain ⟨a, -, rfl⟩ := List.mem_map.1 mem
      trivial

/-- A column is split only if some row does not start with a wildcard, and by heads with distinct
names. -/
theorem of_plan_split {env : Env} {t : Ty} {rows : List Row} {heads : List (Head × List Ty)}
    (h : plan env t rows = .split heads) :
    rows.all startsAny = false ∧ ∀ entry ∈ heads, Distinct entry.1 := by
  simp only [plan] at h
  split at h
  · simp at h
  rename_i all hall
  split at h
  · rename_i hcond
    simp only [Plan.split.injEq] at h
    subst h
    simp only [Bool.and_eq_true, Bool.not_eq_true'] at hcond
    refine ⟨hcond.1, fun entry mem => ?_⟩
    obtain ⟨head, hmem, rfl⟩ := List.mem_map.1 mem
    exact distinct_of_signature? hall head hmem
  split at h
  · simp at h
  · simp at h

end Coverage

end Polytype
