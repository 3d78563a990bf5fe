import Polytype.Coverage.Weight

namespace Polytype

namespace Coverage

def rebuild (head : Head) (arity : Nat) (cases : List MissingCase) : List MissingCase :=
  caseOf head (cases.take arity) :: cases.drop arity

def missing (env : Env) (rows : List Row) : List Ty → Option (List MissingCase)
  | [] => if rows.isEmpty then some [] else none
  | t :: rest =>
    match _h : plan env (env.unfold t) (splitRows rows) with
    | .split heads =>
      heads.attach.findSome? fun ⟨(head, parts), _mem⟩ =>
        (missing env (specializeRows head parts.length (splitRows rows)) (parts ++ rest)).map
          (rebuild head parts.length)
    | .pass first => (missing env (passRows (splitRows rows)) rest).map (first :: ·)
termination_by columns => (weight rows, columns.length)
decreasing_by
  · obtain ⟨hrows, hheads⟩ := of_plan_split _h
    exact Prod.Lex.left _ _ (Nat.lt_of_lt_of_le
      (weight_specializeRows_lt (hheads _ _mem) parts.length hrows) (weight_splitRows_le rows))
  · have := Nat.le_trans (weight_passRows_le (splitRows rows)) (weight_splitRows_le rows)
    rcases Nat.lt_or_eq_of_le this with lighter | same
    · exact Prod.Lex.left _ _ lighter
    · rw [same]
      exact Prod.Lex.right _ (Nat.lt_succ_self _)

end Coverage

/-- A case that no unguarded arm covers, if there is one. The arms are given by their patterns and
whether they are guarded. -/
def missingCase? (env : Env) (scrutinee : Ty) (arms : List (Pattern × Bool)) :
    Option MissingCase :=
  let rows := (arms.filter fun arm => !arm.2).map fun arm => [Pat.lower arm.1]
  (Coverage.missing env rows [scrutinee]).bind List.head?

end Polytype
