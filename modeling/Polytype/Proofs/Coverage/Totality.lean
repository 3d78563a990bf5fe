import Polytype.Proofs.Coverage.Uncovered

/-!
# The search ends, and every cut is in range

The search for missing cases calls itself on smaller matrices (`Calls`): one for each head of a column
that is split, or one for the columns after a column that is passed over. It finds nothing exactly if
none of them does (`missing_eq_none_iff`). No chain of calls goes on forever, whatever the patterns
and the types are, since the weight of a matrix and then the number of its columns go down.

Patterns that do not fit their column are cut or filled up, so the rows of every matrix are as long as
there are columns (`Calls.aligned`). A list of cases has one for each column as well
(`length_of_missing`), so the cases of the parts of a value can be cut off its front.
-/

namespace Polytype.Coverage

open Pat Relation

/-- What the search is called with: the rows, and the types of the columns. -/
structure Matrix where
  rows : List Row
  columns : List Ty

namespace Matrix

def Aligned (m : Matrix) : Prop := ∀ row ∈ m.rows, row.length = m.columns.length

def ofArms (scrutinee : Ty) (arms : List (Pattern × Bool)) : Matrix where
  rows := (arms.filter fun arm => !arm.2).map fun arm => [Pat.lower arm.1]
  columns := [scrutinee]

end Matrix

inductive Calls (env : Env) : Matrix → Matrix → Prop
  | split {rows t rest heads head parts} :
      plan env (env.unfold t) (splitRows rows) = .split heads → (head, parts) ∈ heads →
      Calls env ⟨rows, t :: rest⟩
        ⟨specializeRows head parts.length (splitRows rows), parts ++ rest⟩
  | pass {rows t rest first} : plan env (env.unfold t) (splitRows rows) = .pass first →
      Calls env ⟨rows, t :: rest⟩ ⟨passRows (splitRows rows), rest⟩

theorem missing_eq_none_iff {env : Env} {m : Matrix} (h : m.columns ≠ []) :
    missing env m.rows m.columns = none ↔
      ∀ m', Calls env m m' → missing env m'.rows m'.columns = none := by
  obtain ⟨rows, columns⟩ := m
  obtain ⟨t, rest, rfl⟩ := List.exists_cons_of_ne_nil h
  constructor
  · intro nothing m' call
    cases call with
    | split hplan mem => exact missing_split_eq_none hplan nothing mem
    | pass hplan => exact missing_pass_eq_none hplan nothing
  · intro nothing
    refine Option.eq_none_iff_forall_ne_some.2 fun cases found => ?_
    cases hplan : plan env (env.unfold t) (splitRows rows) with
    | split heads =>
      obtain ⟨head, parts, inner, mem, hinner, -⟩ := missing_split_eq_some hplan found
      simp [nothing _ (.split hplan mem)] at hinner
    | pass first =>
      obtain ⟨inner, hinner, -⟩ := missing_pass_eq_some hplan found
      simp [nothing _ (.pass hplan)] at hinner

/-! ## Calls come to an end -/

theorem Calls.lighter {env : Env} {m m' : Matrix} (h : Calls env m m') :
    Prod.Lex (· < ·) (· < ·) (weight m'.rows, m'.columns.length)
      (weight m.rows, m.columns.length) := by
  cases h with
  | @split rows t rest heads head parts hplan mem =>
    obtain ⟨hrows, distinct⟩ := of_plan_split hplan
    have lighter : weight (specializeRows head parts.length (splitRows rows)) < weight rows :=
      Nat.lt_of_lt_of_le (weight_specializeRows_lt (distinct _ mem) parts.length hrows)
        (weight_splitRows_le rows)
    exact .left _ _ lighter
  | @pass rows t rest first hplan =>
    have heavy : weight (passRows (splitRows rows)) ≤ weight rows :=
      Nat.le_trans (weight_passRows_le _) (weight_splitRows_le rows)
    -- a column of patterns that match anything has no weight, but then a column is gone
    rcases Nat.lt_or_eq_of_le heavy with lighter | same
    · exact .left _ _ lighter
    · rw [same]
      exact .right _ (Nat.lt_succ_self _)

theorem wellFounded_calls (env : Env) : WellFounded fun m' m => Calls env m m' :=
  Subrelation.wf Calls.lighter
    (InvImage.wf (fun m : Matrix => (weight m.rows, m.columns.length))
      (WellFounded.prod_lex Nat.lt_wfRel.wf Nat.lt_wfRel.wf))

/-! ## Rows are as long as there are columns -/

theorem length_of_mem_splitRows {rows : List Row} {width : Nat}
    (h : ∀ row ∈ rows, row.length = width) : ∀ row ∈ splitRows rows, row.length = width := by
  intro row hrow
  obtain ⟨given, hgiven, hrow⟩ := List.mem_flatMap.1 hrow
  rw [← h given hgiven]
  cases given with
  | nil =>
    obtain rfl := List.mem_singleton.1 hrow
    rfl
  | cons first others =>
    obtain ⟨choice, -, rfl⟩ := List.mem_map.1 hrow
    rfl

theorem length_resize (arity : Nat) (args : List Pat) : (resize arity args).length = arity := by
  rw [resize, List.length_append, List.length_take, List.length_replicate]
  omega

theorem length_specialize {head : Head} {arity : Nat} {row out : Row}
    (h : specialize head arity row = some out) : out.length + 1 = arity + row.length := by
  unfold specialize at h
  split at h
  · simp at h
  · obtain rfl := Option.some.inj h
    rw [List.length_append, List.length_replicate, List.length_cons, Nat.add_assoc]
  · split at h
    · obtain rfl := Option.some.inj h
      rw [List.length_append, length_resize, List.length_cons, Nat.add_assoc]
    · simp at h
  · split at h
    · obtain rfl := Option.some.inj h
      rw [List.length_append, length_resize, List.length_cons, Nat.add_assoc]
    · simp at h
  · simp at h

theorem Calls.aligned {env : Env} {m m' : Matrix} (h : Calls env m m') (aligned : m.Aligned) :
    m'.Aligned := by
  cases h with
  | @split rows t rest heads head parts hplan mem =>
    intro out hout
    obtain ⟨row, hrow, hout⟩ := List.mem_filterMap.1 hout
    have width : row.length = rest.length + 1 := length_of_mem_splitRows aligned row hrow
    have specialized := length_specialize hout
    rw [List.length_append]
    omega
  | @pass rows t rest first hplan =>
    intro out hout
    exact Nat.succ.inj (length_of_mem_splitRows aligned _ (mem_passRows.1 hout))

theorem Matrix.aligned_ofArms (scrutinee : Ty) (arms : List (Pattern × Bool)) :
    (ofArms scrutinee arms).Aligned := by
  intro row hrow
  obtain ⟨arm, -, rfl⟩ := List.mem_map.1 hrow
  rfl

theorem Matrix.Aligned.of_calls {env : Env} {m m' : Matrix} (aligned : m.Aligned)
    (h : ReflTransGen (Calls env) m m') : m'.Aligned := by
  induction h with
  | refl => exact aligned
  | tail _ call ih => exact call.aligned ih

/-! ## Cases are as many as there are columns -/

theorem length_of_missing {env : Env} {rows : List Row} {columns : List Ty}
    {cases : List MissingCase} (h : missing env rows columns = some cases) :
    cases.length = columns.length := by
  induction rows, columns using missing.induct env generalizing cases with
  | case1 rows empty =>
    obtain rfl : [] = cases := by simpa [missing, empty] using h
    rfl
  | case2 rows nonempty => simp [missing, nonempty] at h
  | case3 rows t rest heads hplan ih =>
    obtain ⟨head, parts, found, mem, hfound, rfl⟩ := missing_split_eq_some hplan h
    -- the cases for the parts of a value come first, and one case for the value takes their place
    have length := ih head parts mem hfound
    rw [List.length_append] at length
    rw [rebuild, List.length_cons, List.length_drop, List.length_cons]
    omega
  | case4 rows t rest first hplan ih =>
    obtain ⟨found, hfound, rfl⟩ := missing_pass_eq_some hplan h
    exact congrArg (· + 1) (ih hfound)

theorem missing_singleton (env : Env) (rows : List Row) (t : Ty) :
    missing env rows [t] = ((missing env rows [t]).bind List.head?).map ([·]) := by
  cases h : missing env rows [t] with
  | none => rfl
  | some cases =>
    obtain ⟨first, rfl⟩ := List.length_eq_one_iff.1 (length_of_missing h)
    rfl

/-- The search for a case that no arm covers comes to an end, whatever the arms are. On the way every
row has one pattern for each column, and so has every list of cases one case, and nothing but the
calls decides whether there is one; what is found for the scrutinee is a single case, if anything
is. -/
theorem search_total (env : Env) (scrutinee : Ty) (arms : List (Pattern × Bool)) :
    let start := Matrix.ofArms scrutinee arms
    Acc (fun m' m => Calls env m m') start ∧
    (∀ m, ReflTransGen (Calls env) start m →
      m.Aligned ∧
      (∀ cases, missing env m.rows m.columns = some cases → cases.length = m.columns.length) ∧
      (m.columns ≠ [] → (missing env m.rows m.columns = none ↔
        ∀ m', Calls env m m' → missing env m'.rows m'.columns = none))) ∧
    missing env start.rows start.columns = (missingCase? env scrutinee arms).map ([·]) := by
  intro start
  refine ⟨(wellFounded_calls env).apply start,
    fun m reached => ⟨?_, fun _ => length_of_missing, missing_eq_none_iff⟩, ?_⟩
  · exact (Matrix.aligned_ofArms scrutinee arms).of_calls reached
  · exact missing_singleton env start.rows scrutinee

end Polytype.Coverage
