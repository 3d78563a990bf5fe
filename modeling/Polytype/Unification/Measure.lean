import Polytype.Subst.Mention
import Polytype.Unification.Problem

/-!
# Unification ends

Every step of a problem lowers a measure. In order of weight it counts the expansions of named
types that are left, the unbound variables the problem mentions, the goals that carry a field to
another variable, and the products of the sizes of the types still to be compared:

* replacing a named type spends an expansion;
* letting a variable become a type binds it, and mentions no variable that was not mentioned;
* a carried field becomes a comparison, or is recorded;
* every other goal is met by comparing parts of its types.

`meet_measure` puts the cases together.
-/

namespace Polytype

/-! ## Counting distinct numbers -/

def distinct : List Nat → Nat
  | [] => 0
  | x :: xs => if x ∈ xs then distinct xs else distinct xs + 1

theorem distinct_filter_ne {x : Nat} {l : List Nat} (h : x ∈ l) :
    distinct (l.filter (· ≠ x)) + 1 = distinct l := by
  induction l with
  | nil => simp at h
  | cons y ys ih =>
    by_cases hy : y = x
    · subst hy
      by_cases hys : y ∈ ys
      · simpa [distinct, hys] using ih hys
      · have unchanged : ys.filter (· ≠ y) = ys :=
          List.filter_eq_self.2 fun z hz => decide_eq_true fun hzy => hys (hzy ▸ hz)
        rw [List.filter_cons_of_neg (by simp), unchanged, distinct, if_neg hys]
    · have hx : x ∈ ys := by
        rcases List.mem_cons.1 h with h | h
        · exact absurd h.symm hy
        · exact h
      by_cases hys : y ∈ ys <;> simp_all [distinct]

theorem distinct_le {l m : List Nat} (h : ∀ x ∈ l, x ∈ m) : distinct l ≤ distinct m := by
  induction l generalizing m with
  | nil => exact Nat.zero_le _
  | cons x xs ih =>
    by_cases hx : x ∈ xs
    · simpa [distinct, hx] using ih fun y hy => h y (List.mem_cons_of_mem _ hy)
    · have others : ∀ y ∈ xs, y ∈ m.filter (· ≠ x) := fun y hy => by
        simpa using ⟨h y (List.mem_cons_of_mem _ hy), fun hyx : y = x => hx (hyx ▸ hy)⟩
      have := ih others
      have := distinct_filter_ne (h x List.mem_cons_self)
      simp only [distinct, hx, if_false]
      omega

theorem distinct_lt {l m : List Nat} {x : Nat} (h : ∀ y ∈ l, y ∈ m) (hx : x ∈ m)
    (hl : x ∉ l) : distinct l < distinct m := by
  have others : ∀ y ∈ l, y ∈ m.filter (· ≠ x) := fun y hy => by
    simpa using ⟨h y hy, fun hyx : y = x => hl (hyx ▸ hy)⟩
  have := distinct_le others
  have := distinct_filter_ne hx
  omega

namespace Goal

def ids : Goal → List Nat
  | fits _ expected actual => expected.ids ++ actual.ids
  | carries _ _ t => t.ids
  | impossible _ => []

def bulk : Goal → Nat
  | fits _ expected actual => expected.size * actual.size
  | _ => 0

def isCarry : Goal → Bool
  | carries _ _ _ => true
  | _ => false

def totalBulk : List Goal → Nat
  | [] => 0
  | goal :: rest => goal.bulk + totalBulk rest

theorem totalBulk_append (goals others : List Goal) :
    totalBulk (goals ++ others) = totalBulk goals + totalBulk others := by
  induction goals with
  | nil => simp [totalBulk]
  | cons goal rest ih => simp [totalBulk, ih, Nat.add_assoc]

/-- The goals `new` stand for less than `goal`: they mention no other variable, carry no field,
and compare less. -/
structure Smaller (new : List Goal) (goal : Goal) : Prop where
  ids : ∀ g ∈ new, ∀ id ∈ g.ids, id ∈ goal.ids
  carry : ∀ g ∈ new, g.isCarry = false
  bulk : totalBulk new < goal.bulk

end Goal

namespace Problem

open Goal

def ids (p : Problem) : List Nat := p.goals.flatMap Goal.ids ++ p.subst.ids

def unbound (p : Problem) : Nat := distinct (p.ids.filter fun id => !p.subst.isBound id)

def carried (p : Problem) : Nat := p.goals.countP isCarry

def measure (p : Problem) : Nat × Nat × Nat × Nat :=
  (p.expansions, p.unbound, p.carried, totalBulk p.goals)

abbrev lexicographic : WellFoundedRelation (Nat × Nat × Nat × Nat) := inferInstance

abbrev Below (q p : Problem) : Prop := lexicographic.rel q.measure p.measure

theorem below_of_expansions {q p : Problem} (h : q.expansions < p.expansions) : Below q p :=
  Prod.Lex.left _ _ h

theorem below_of_unbound {q p : Problem} (he : q.expansions = p.expansions)
    (h : q.unbound < p.unbound) : Below q p := by
  simp only [Below, measure, he]
  exact Prod.Lex.right _ (Prod.Lex.left _ _ h)

theorem below_of_carried {q p : Problem} (he : q.expansions = p.expansions)
    (hu : q.unbound ≤ p.unbound) (h : q.carried < p.carried) : Below q p := by
  rcases Nat.lt_or_eq_of_le hu with hu | hu
  · exact below_of_unbound he hu
  · simp only [Below, measure, he, hu]
    exact Prod.Lex.right _ (Prod.Lex.right _ (Prod.Lex.left _ _ h))

theorem below_of_bulk {q p : Problem} (he : q.expansions = p.expansions)
    (hu : q.unbound ≤ p.unbound) (hc : q.carried ≤ p.carried)
    (h : totalBulk q.goals < totalBulk p.goals) : Below q p := by
  rcases Nat.lt_or_eq_of_le hu with hu | hu
  · exact below_of_unbound he hu
  rcases Nat.lt_or_eq_of_le hc with hc | hc
  · exact below_of_carried he (Nat.le_of_eq hu) hc
  · simp only [Below, measure, he, hu, hc]
    exact Prod.Lex.right _ (Prod.Lex.right _ (Prod.Lex.right _ h))

/-! ## Unbound variables -/

theorem mem_ids {p : Problem} {id : Nat} :
    id ∈ p.ids ↔ (∃ goal ∈ p.goals, id ∈ goal.ids) ∨ id ∈ p.subst.ids := by
  simp [ids, List.mem_flatMap]

theorem unbound_le {q p : Problem}
    (h : ∀ id ∈ q.ids, q.subst.isBound id = false → id ∈ p.ids ∧ p.subst.isBound id = false) :
    q.unbound ≤ p.unbound := by
  refine distinct_le fun id hid => ?_
  simp only [List.mem_filter, Bool.not_eq_true'] at hid ⊢
  exact h id hid.1 hid.2

theorem unbound_lt {q p : Problem} {v : Nat}
    (h : ∀ id ∈ q.ids, q.subst.isBound id = false → id ∈ p.ids ∧ p.subst.isBound id = false)
    (hv : v ∈ p.ids) (hp : p.subst.isBound v = false) (hq : q.subst.isBound v = true) :
    q.unbound < p.unbound := by
  refine distinct_lt (x := v) (fun id hid => ?_) ?_ ?_
  · simp only [List.mem_filter, Bool.not_eq_true'] at hid ⊢
    exact h id hid.1 hid.2
  · simp [hv, hp]
  · simp [hq]

/-! ## Comparing parts -/

theorem below_of_smaller {p : Problem} {goal : Goal} {rest new : List Goal}
    (hp : p.goals = goal :: rest) (h : Smaller new goal) :
    Below { p with goals := new ++ rest } p := by
  refine below_of_bulk rfl (unbound_le fun id hid hbound => ⟨?_, hbound⟩) ?_ ?_
  · rcases mem_ids.1 hid with ⟨g, hg, hid⟩ | hid
    · refine mem_ids.2 (.inl ?_)
      rw [hp]
      rcases List.mem_append.1 hg with hg | hg
      · exact ⟨goal, List.mem_cons_self, h.ids g hg id hid⟩
      · exact ⟨g, List.mem_cons_of_mem _ hg, hid⟩
    · exact mem_ids.2 (.inr hid)
  · have none : new.countP isCarry = 0 :=
      List.countP_eq_zero.2 fun g hg => by simp [h.carry g hg]
    simp [carried, hp, none, List.countP_cons]
  · have := h.bulk
    simp only [hp, totalBulk_append, totalBulk] at this ⊢
    omega

theorem fitsAll_mem {exact : Bool} {expected actual : List Ty} {g : Goal}
    (h : g ∈ fitsAll exact expected actual) :
    ∃ t ∈ expected, ∃ u ∈ actual, g = fits exact t u := by
  induction expected generalizing actual with
  | nil => simp [fitsAll] at h
  | cons t ts ih =>
    cases actual with
    | nil => simp [fitsAll] at h
    | cons u us =>
      rcases List.mem_cons.1 h with rfl | h
      · exact ⟨t, List.mem_cons_self, u, List.mem_cons_self, rfl⟩
      · obtain ⟨t', ht, u', hu, rfl⟩ := ih h
        exact ⟨t', List.mem_cons_of_mem _ ht, u', List.mem_cons_of_mem _ hu, rfl⟩

theorem totalBulk_fitsAll (exact : Bool) (expected actual : List Ty) :
    totalBulk (fitsAll exact expected actual) ≤ Ty.sizeList expected * Ty.sizeList actual := by
  induction expected generalizing actual with
  | nil => simp [fitsAll, totalBulk]
  | cons t ts ih =>
    cases actual with
    | nil => simp [fitsAll, totalBulk]
    | cons u us =>
      have := ih us
      simp only [fitsAll, totalBulk, List.zipWith_cons_cons, bulk, Ty.sizeList, Nat.add_mul,
        Nat.mul_add] at this ⊢
      omega

theorem mem_ids_list {ts : List Ty} {t : Ty} (id : Nat) (ht : t ∈ ts) (h : id ∈ t.ids) :
    id ∈ (Ty.varsList ts).map (·.id) := by
  obtain ⟨v, hv, rfl⟩ := List.mem_map.1 h
  rw [Ty.varsList_eq]
  exact List.mem_map_of_mem (List.mem_flatMap.2 ⟨t, ht, hv⟩)

theorem mem_ids_fields {fields : List (String × Ty)} {field : String × Ty} (id : Nat)
    (hf : field ∈ fields) (h : id ∈ field.2.ids) : id ∈ (Ty.varsFields fields).map (·.id) := by
  obtain ⟨v, hv, rfl⟩ := List.mem_map.1 h
  rw [Ty.varsFields_eq]
  exact List.mem_map_of_mem (List.mem_flatMap.2 ⟨field, hf, hv⟩)

theorem smaller_nil {exact : Bool} {expected actual : Ty} :
    Smaller [] (fits exact expected actual) where
  ids := by simp
  carry := by simp
  bulk := Nat.mul_pos expected.size_pos actual.size_pos

theorem smaller_app {exact inner : Bool} {head head' : Ty} {args args' : List Ty} :
    Smaller (fitsAll inner args args') (fits exact (.app head args) (.app head' args')) where
  ids := by
    intro g hg id hid
    obtain ⟨t, ht, u, hu, rfl⟩ := fitsAll_mem hg
    have := mem_ids_list id ht
    have := mem_ids_list id hu
    simp only [Goal.ids, Ty.ids, Ty.vars, List.map_append, List.mem_append] at *
    grind
  carry := by
    intro g hg
    obtain ⟨t, ht, u, hu, rfl⟩ := fitsAll_mem hg
    rfl
  bulk := by
    have := totalBulk_fitsAll inner args args'
    simp only [Goal.bulk, Ty.size, Nat.add_mul, Nat.mul_add] at this ⊢
    omega

theorem smaller_tuple {exact : Bool} {elements elements' : List Ty} :
    Smaller (fitsAll exact elements elements') (fits exact (.tuple elements) (.tuple elements'))
    where
  ids := by
    intro g hg id hid
    obtain ⟨t, ht, u, hu, rfl⟩ := fitsAll_mem hg
    have := mem_ids_list id ht
    have := mem_ids_list id hu
    simp only [Goal.ids, Ty.ids, Ty.vars, List.mem_append] at *
    grind
  carry := by
    intro g hg
    obtain ⟨t, ht, u, hu, rfl⟩ := fitsAll_mem hg
    rfl
  bulk := by
    have := totalBulk_fitsAll exact elements elements'
    simp only [Goal.bulk, Ty.size, Nat.add_mul, Nat.mul_add] at this ⊢
    omega

theorem smaller_func {exact : Bool} {params params' : List Ty} {result result' : Ty} :
    Smaller (fitsAll exact params' params ++ [fits exact result result'])
      (fits exact (.func params result) (.func params' result')) where
  ids := by
    intro g hg id hid
    rcases List.mem_append.1 hg with hg | hg
    · obtain ⟨t, ht, u, hu, rfl⟩ := fitsAll_mem hg
      have := mem_ids_list id ht
      have := mem_ids_list id hu
      simp only [Goal.ids, Ty.ids, Ty.vars, List.map_append, List.mem_append] at *
      grind
    · simp only [List.mem_singleton] at hg
      subst hg
      simp only [Goal.ids, Ty.ids, Ty.vars, List.map_append, List.mem_append] at *
      grind
  carry := by
    intro g hg
    rcases List.mem_append.1 hg with hg | hg
    · obtain ⟨t, ht, u, hu, rfl⟩ := fitsAll_mem hg
      rfl
    · simp only [List.mem_singleton] at hg
      subst hg
      rfl
  bulk := by
    have := totalBulk_fitsAll exact params' params
    have swap := Nat.mul_comm (Ty.sizeList params') (Ty.sizeList params)
    simp only [totalBulk_append, totalBulk, Goal.bulk, Ty.size, Nat.add_mul, Nat.mul_add]
      at this ⊢
    omega

theorem fitsFields_mem {exact : Bool} {expected actual wanted : List (String × Ty)} {g : Goal}
    (h : g ∈ fitsFields exact expected actual wanted) :
    (∃ field ∈ wanted, ∃ other ∈ actual, g = fits exact field.2 other.2) ∨
      ∃ clash, g = impossible clash := by
  induction wanted with
  | nil =>
    unfold fitsFields at h
    split at h
    · split at h
      · exact .inr ⟨_, List.mem_singleton.1 h⟩
      · simp at h
    · simp at h
  | cons field rest ih =>
    obtain ⟨name, t⟩ := field
    unfold fitsFields at h
    split at h
    · rename_i provided hp
      rcases List.mem_cons.1 h with rfl | h
      · exact .inl ⟨(name, t), List.mem_cons_self, _, Assoc.mem_of_get? hp, rfl⟩
      · exact (ih h).imp_left fun ⟨field, hf, rest⟩ => ⟨field, List.mem_cons_of_mem _ hf, rest⟩
    · exact .inr ⟨_, List.mem_singleton.1 h⟩

theorem totalBulk_fitsFields (exact : Bool) (expected actual wanted : List (String × Ty)) :
    totalBulk (fitsFields exact expected actual wanted) ≤
      Ty.sizeFields wanted * Ty.sizeFields actual := by
  induction wanted with
  | nil =>
    unfold fitsFields
    split
    · split <;> simp [totalBulk, bulk]
    · simp [totalBulk]
  | cons field rest ih =>
    obtain ⟨name, t⟩ := field
    unfold fitsFields
    split
    · rename_i provided hp
      have := Nat.mul_le_mul_left t.size (Ty.size_le_sizeFields (Assoc.mem_of_get? hp))
      simp only [totalBulk, bulk, Ty.sizeFields, Nat.add_mul] at ih this ⊢
      omega
    · simp [totalBulk, bulk]

theorem smaller_record {exact : Bool} {fields fields' : List (String × Ty)} :
    Smaller (fitsFields exact fields fields' fields)
      (fits exact (.record fields) (.record fields')) where
  ids := by
    intro g hg id hid
    rcases fitsFields_mem hg with ⟨field, hf, other, ho, rfl⟩ | ⟨clash, rfl⟩
    · have := mem_ids_fields id hf
      have := mem_ids_fields id ho
      simp only [Goal.ids, Ty.ids, Ty.vars, List.mem_append] at *
      grind
    · simp [Goal.ids] at hid
  carry := by
    intro g hg
    rcases fitsFields_mem hg with ⟨field, hf, other, ho, rfl⟩ | ⟨clash, rfl⟩ <;> rfl
  bulk := by
    have := totalBulk_fitsFields exact fields fields' fields
    simp only [Goal.bulk, Ty.size, Nat.add_mul, Nat.mul_add] at this ⊢
    omega

/-! ## Steps that change the substitution -/

theorem mem_ids_refresh {s : Subst} {goal : Goal} {id : Nat} (h : id ∈ (goal.refresh s).ids) :
    id ∈ goal.ids ∨ id ∈ s.ids := by
  cases goal with
  | fits exact expected actual =>
    have applied {t : Ty} (h : id ∈ (s.apply t).ids) : id ∈ t.ids ∨ id ∈ s.ids :=
      (Subst.mem_ids_apply h).imp_right fun ⟨_, he, hid⟩ => Subst.mem_ids_of_types he hid
    rcases List.mem_append.1 h with h | h
    · exact (applied h).imp_left (List.mem_append_left _)
    · exact (applied h).imp_left (List.mem_append_right _)
  | carries v field t => exact .inl h
  | impossible clash => exact .inl h

theorem mem_ids_demands {t : Ty} {required : List (String × Ty)} {g : Goal} {id : Nat}
    (hg : g ∈ demands t required) (hid : id ∈ g.ids) :
    id ∈ t.ids ∨ ∃ field ∈ required, id ∈ field.2.ids := by
  unfold demands at hg
  split at hg
  · obtain ⟨field, hf, rfl⟩ := List.mem_map.1 hg
    exact .inr ⟨field, hf, hid⟩
  · simp only [List.mem_singleton] at hg
    subst hg
    rcases List.mem_append.1 hid with hid | hid
    · simp only [Ty.ids, Ty.vars, Ty.varsFields_eq, List.mem_map, List.mem_flatMap] at hid
      obtain ⟨v, ⟨field, hf, hv⟩, rfl⟩ := hid
      exact .inr ⟨field, hf, List.mem_map_of_mem hv⟩
    · exact .inl hid

/-- Letting a variable of the goal in front become another part of that goal lowers the
measure. -/
theorem assign_below {p q : Problem} {goal : Goal} {v : TypeVar} {t : Ty} {rest : List Goal}
    (hp : p.goals = goal :: rest) (hv : v.id ∈ goal.ids) (ht : ∀ id ∈ t.ids, id ∈ goal.ids)
    (h : p.assign v t rest = .continued q) : Below q p := by
  unfold assign at h
  split at h
  · simp at h
  rename_i free
  simp only [Bool.or_eq_true, not_or, Bool.not_eq_true] at free
  simp only [resume, Outcome.continued.injEq] at h
  subst h
  have front {id : Nat} (h : id ∈ goal.ids) : id ∈ p.ids :=
    mem_ids.2 (.inl ⟨goal, hp ▸ List.mem_cons_self, h⟩)
  have known {id : Nat} (h : id ∈ (p.subst.bind v t).ids) : id ∈ p.ids :=
    (Subst.mem_ids_bind h).elim (fun h => front (ht id h)) fun h => mem_ids.2 (.inr h)
  refine below_of_unbound rfl (unbound_lt (v := v.id) ?_ (front hv) free.2 (by simp))
  intro id hid hbound
  simp only [Subst.isBound_bind, Bool.or_eq_false_iff] at hbound
  refine ⟨?_, hbound.2⟩
  rcases mem_ids.1 hid with ⟨g, hg, hid⟩ | hid
  · obtain ⟨given, hgiven, rfl⟩ := List.mem_map.1 hg
    rcases mem_ids_refresh hid with hid | hid
    · rcases List.mem_append.1 hgiven with hnew | hrest
      · cases hshape : p.subst.recordShape v with
        | none => simp [hshape] at hnew
        | some required =>
          simp only [hshape, Option.map_some, Option.getD_some] at hnew
          rcases mem_ids_demands hnew hid with hid | ⟨field, hf, hid⟩
          · exact front (ht id hid)
          · exact mem_ids.2 (.inr (Subst.mem_ids_recordShape hshape hf hid))
      · exact mem_ids.2 (.inl ⟨given, hp ▸ List.mem_cons_of_mem _ hrest, hid⟩)
    · exact known hid
  · exact known hid

theorem expand_below {definition : Ty → Option Ty} {p q : Problem} {exact : Bool}
    {expected actual : Ty} {rest : List Goal}
    (h : p.expand definition exact expected actual rest = .continued q) : Below q p := by
  unfold expand at h
  split at h
  · simp at h
  rename_i left hleft
  split at h
  · simp only [split, Outcome.continued.injEq] at h
    subst h
    exact below_of_expansions (hleft ▸ Nat.lt_succ_self left)
  split at h
  · simp only [split, Outcome.continued.injEq] at h
    subst h
    exact below_of_expansions (hleft ▸ Nat.lt_succ_self left)
  · simp at h

theorem split_below {p q : Problem} {goal : Goal} {rest new : List Goal}
    (hp : p.goals = goal :: rest) (hnew : Smaller new goal)
    (h : p.split new rest = .continued q) : Below q p := by
  simp only [split, Outcome.continued.injEq] at h
  subst h
  exact below_of_smaller hp hnew

theorem pairwise_below {p q : Problem} {goal : Goal} {rest new : List Goal} {expected actual : Ty}
    {expectedParts actualParts : List Ty} (hp : p.goals = goal :: rest) (hnew : Smaller new goal)
    (h : p.pairwise expected actual expectedParts actualParts new rest = .continued q) :
    Below q p := by
  unfold pairwise at h
  split at h
  · exact split_below hp hnew h
  · simp at h

theorem carries_below {definition : Ty → Option Ty} {p q : Problem} {v : TypeVar}
    {field : String} {t : Ty} {rest : List Goal} (hp : p.goals = carries v field t :: rest)
    (h : p.meet definition (carries v field t) rest = .continued q) : Below q p := by
  have front {id : Nat} (h : id ∈ t.ids) : id ∈ p.ids :=
    mem_ids.2 (.inl ⟨carries v field t, hp ▸ List.mem_cons_self, h⟩)
  have later {g : Goal} {id : Nat} (hg : g ∈ rest) (h : id ∈ g.ids) : id ∈ p.ids :=
    mem_ids.2 (.inl ⟨g, hp ▸ List.mem_cons_of_mem _ hg, h⟩)
  simp only [meet] at h
  split at h
  · rename_i known hknown
    obtain ⟨shape, hshape, hfield⟩ := Option.bind_eq_some_iff.1 hknown
    simp only [split, Outcome.continued.injEq] at h
    subst h
    refine below_of_carried rfl (unbound_le fun id hid hbound => ⟨?_, hbound⟩) ?_
    · rcases mem_ids.1 hid with ⟨g, hg, hid⟩ | hid
      · rcases List.mem_cons.1 hg with rfl | hg
        · rcases List.mem_append.1 hid with hid | hid
          · exact mem_ids.2
              (.inr (Subst.mem_ids_recordShape hshape (Assoc.mem_of_get? hfield) hid))
          · rcases Subst.mem_ids_apply hid with hid | ⟨entry, he, hid⟩
            · exact front hid
            · exact mem_ids.2 (.inr (Subst.mem_ids_of_types he hid))
        · exact later hg hid
      · exact mem_ids.2 (.inr hid)
    · simp [carried, hp, isCarry, List.countP_cons]
  · simp only [resume, List.nil_append, Outcome.continued.injEq] at h
    subst h
    have known {id : Nat} (h : id ∈ (p.subst.requireField v field t).ids) : id ∈ p.ids :=
      (Subst.mem_ids_requireField h).elim front fun h => mem_ids.2 (.inr h)
    refine below_of_carried rfl (unbound_le fun id hid hbound => ⟨?_, by simpa using hbound⟩) ?_
    · rcases mem_ids.1 hid with ⟨g, hg, hid⟩ | hid
      · obtain ⟨given, hgiven, rfl⟩ := List.mem_map.1 hg
        rcases mem_ids_refresh hid with hid | hid
        · exact later hgiven hid
        · exact known hid
      · exact known hid
    · have refreshed (s : Subst) (goals : List Goal) :
          (goals.map (refresh s)).countP isCarry = goals.countP isCarry := by
        rw [List.countP_map]
        exact congrFun (congrArg _ (funext fun g => by cases g <;> rfl)) _
      simp [carried, hp, isCarry, refreshed, List.countP_cons]

theorem meet_below {definition : Ty → Option Ty} {p q : Problem} {goal : Goal}
    {rest : List Goal} (hp : p.goals = goal :: rest)
    (h : p.meet definition goal rest = .continued q) : Below q p := by
  cases goal with
  | impossible clash => simp [meet] at h
  | carries v field t => exact carries_below hp h
  | fits exact expected actual =>
    have left : ∀ id ∈ expected.ids, id ∈ (fits exact expected actual).ids :=
      fun _ => List.mem_append_left _
    have right : ∀ id ∈ actual.ids, id ∈ (fits exact expected actual).ids :=
      fun _ => List.mem_append_right _
    have self (v : TypeVar) : v.id ∈ (Ty.var v).ids := by simp [Ty.ids, Ty.vars]
    simp only [meet] at h
    split at h
    · split at h
      · exact split_below hp smaller_nil h
      · exact assign_below hp (left _ (self _)) right h
    · exact assign_below hp (left _ (self _)) right h
    · exact assign_below hp (right _ (self _)) left h
    · split at h
      · exact split_below hp smaller_nil h
      · exact expand_below h
    · split at h
      · exact pairwise_below hp smaller_app h
      · exact expand_below h
    · exact pairwise_below hp smaller_func h
    · exact pairwise_below hp smaller_tuple h
    · exact split_below hp smaller_record h
    · exact expand_below h

end Problem

end Polytype
