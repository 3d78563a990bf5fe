import Mathlib.Data.List.Forall2
import Polytype.Assoc

namespace Polytype.Assoc

universe u v w

variable {κ : Type u} {α : Type v} {β : Type w}

theorem get?_of_mem [DecidableEq κ] {entries : Assoc κ α} {entry : κ × α}
    (distinct : (keys entries).Nodup) (mem : entry ∈ entries) :
    get? entries entry.1 = some entry.2 := by
  induction entries with
  | nil => simp at mem
  | cons first rest ih =>
    obtain ⟨k, a⟩ := first
    obtain ⟨fresh, distinct⟩ := List.nodup_cons.1 distinct
    rcases List.mem_cons.1 mem with rfl | mem
    · simp [get?_cons]
    · have : k ≠ entry.1 := fun heq => fresh (List.mem_map.2 ⟨entry, mem, heq.symm⟩)
      rw [get?_cons, if_neg this]
      exact ih distinct mem

theorem get?_map [DecidableEq κ] (f : α → β) (entries : Assoc κ α) (key : κ) :
    get? (entries.map fun entry => (entry.1, f entry.2)) key = (get? entries key).map f :=
  get?_mapValues f entries key

theorem mapValues_insert [DecidableEq κ] [LT κ] [DecidableLT κ] (f : α → β) (entries : Assoc κ α)
    (key : κ) (a : α) : mapValues f (insert entries key a) = insert (mapValues f entries) key (f a) := by
  induction entries with
  | nil => rfl
  | cons entry rest ih =>
    obtain ⟨k, b⟩ := entry
    simp only [mapValues, List.map_cons, insert] at ih ⊢
    split
    · rfl
    · split
      · rfl
      · rw [List.map_cons, ih]

theorem mapValues_insertAll [DecidableEq κ] [LT κ] [DecidableLT κ] (f : α → β)
    (entries : Assoc κ α) (later : List (κ × α)) :
    mapValues f (insertAll entries later) = insertAll (mapValues f entries) (mapValues f later) := by
  induction later generalizing entries with
  | nil => rfl
  | cons entry later ih =>
    calc mapValues f (insertAll (insert entries entry.1 entry.2) later)
        = insertAll (mapValues f (insert entries entry.1 entry.2)) (mapValues f later) := ih _
      _ = insertAll (insert (mapValues f entries) entry.1 (f entry.2)) (mapValues f later) := by
          rw [mapValues_insert]

theorem get?_insertAll_eq_none [DecidableEq κ] [LT κ] [DecidableLT κ] {later : List (κ × α)}
    {entries : Assoc κ α} {key : κ} :
    get? (insertAll entries later) key = none ↔
      get? entries key = none ∧ ∀ entry ∈ later, entry.1 ≠ key := by
  induction later generalizing entries with
  | nil => simp [insertAll]
  | cons entry later ih =>
    have step : get? (insertAll entries (entry :: later)) key =
        get? (insertAll (insert entries entry.1 entry.2) later) key := rfl
    rw [step, ih, get?_insert]
    by_cases h : entry.1 = key
    · simp [h]
    · simp [h]

theorem get?_insertAll_cases [DecidableEq κ] [LT κ] [DecidableLT κ] (entries : Assoc κ α)
    (later : List (κ × α)) (key : κ) :
    (∃ entry ∈ later, entry.1 = key ∧ get? (insertAll entries later) key = some entry.2) ∨
    (∀ entry ∈ later, entry.1 ≠ key) ∧ get? (insertAll entries later) key = get? entries key := by
  induction later generalizing entries with
  | nil => exact .inr ⟨by simp, rfl⟩
  | cons entry later ih =>
    rcases ih (insert entries entry.1 entry.2) with ⟨last, mem, found⟩ | ⟨others, same⟩
    · exact .inl ⟨last, List.mem_cons_of_mem _ mem, found⟩
    · rw [get?_insert] at same
      by_cases h : entry.1 = key
      · rw [if_pos h] at same
        exact .inl ⟨entry, List.mem_cons_self, h, same⟩
      · rw [if_neg h] at same
        exact .inr ⟨List.forall_mem_cons.2 ⟨h, others⟩, same⟩

theorem get?_insertAll_of_ne [DecidableEq κ] [LT κ] [DecidableLT κ] {later : List (κ × α)}
    {entries : Assoc κ α} {key : κ} (h : ∀ entry ∈ later, entry.1 ≠ key) :
    get? (insertAll entries later) key = get? entries key := by
  rcases get?_insertAll_cases entries later key with ⟨entry, mem, heq, -⟩ | ⟨-, same⟩
  · exact absurd heq (h entry mem)
  · exact same

theorem get?_insertAll_some [DecidableEq κ] [LT κ] [DecidableLT κ] {later : List (κ × α)}
    {entries : Assoc κ α} {key : κ} {a : α} (h : get? (insertAll entries later) key = some a) :
    (key, a) ∈ later ∨ get? entries key = some a := by
  rcases get?_insertAll_cases entries later key with ⟨entry, mem, rfl, found⟩ | ⟨-, same⟩
  · obtain rfl := Option.some.inj (found.symm.trans h)
    exact .inl mem
  · exact .inr (same.symm.trans h)

theorem rel_insertAll [DecidableEq κ] [LT κ] [DecidableLT κ]
    {R : α → β → Prop} {later : List (κ × α)} {later' : List (κ × β)}
    (h : List.Forall₂ (fun entry entry' => entry.1 = entry'.1 ∧ R entry.2 entry'.2) later later')
    {entries : Assoc κ α} {entries' : Assoc κ β}
    (start : ∀ key, Option.Rel R (entries.get? key) (entries'.get? key)) (key : κ) :
    Option.Rel R ((entries.insertAll later).get? key) ((entries'.insertAll later').get? key) := by
  induction h generalizing entries entries' with
  | nil => exact start key
  | @cons entry entry' later later' hentry _ ih =>
    refine @ih (entries.insert entry.1 entry.2) (entries'.insert entry'.1 entry'.2) fun key => ?_
    rw [get?_insert, get?_insert, ← hentry.1]
    by_cases hkey : entry.1 = key
    · rw [if_pos hkey, if_pos hkey]
      exact .some hentry.2
    · rw [if_neg hkey, if_neg hkey]
      exact start key

theorem forall₂_get? [DecidableEq κ] {R : α → β → Prop} {entries : Assoc κ α}
    {entries' : Assoc κ β}
    (h : List.Forall₂ (fun entry entry' => entry.1 = entry'.1 ∧ R entry.2 entry'.2) entries entries')
    (key : κ) : Option.Rel R (entries.get? key) (entries'.get? key) := by
  induction h with
  | nil => exact .none
  | @cons entry entry' _ _ hentry _ ih =>
    obtain ⟨k, a⟩ := entry
    obtain ⟨k', b⟩ := entry'
    obtain ⟨rfl, hR⟩ : k = k' ∧ R a b := hentry
    rw [get?_cons, get?_cons]
    split
    · exact .some hR
    · exact ih

theorem forall₂_insert [DecidableEq κ] [LT κ] [DecidableLT κ] {R : α → β → Prop}
    {entries : Assoc κ α} {entries' : Assoc κ β}
    (h : List.Forall₂ (fun entry entry' => entry.1 = entry'.1 ∧ R entry.2 entry'.2) entries entries')
    (key : κ) {a : α} {b : β} (hR : R a b) :
    List.Forall₂ (fun entry entry' => entry.1 = entry'.1 ∧ R entry.2 entry'.2)
      (entries.insert key a) (entries'.insert key b) := by
  induction h with
  | nil => exact .cons ⟨rfl, hR⟩ .nil
  | @cons entry entry' _ _ hentry hrest ih =>
    obtain ⟨k, c⟩ := entry
    obtain ⟨k', d⟩ := entry'
    obtain ⟨rfl, hR'⟩ : k = k' ∧ R c d := hentry
    rw [insert, insert]
    split
    · exact .cons ⟨rfl, hR⟩ hrest
    split
    · exact .cons ⟨rfl, hR⟩ (.cons ⟨rfl, hR'⟩ hrest)
    · exact .cons ⟨rfl, hR'⟩ ih

theorem forall₂_insertAll [DecidableEq κ] [LT κ] [DecidableLT κ] {R : α → β → Prop}
    {later : List (κ × α)} {later' : List (κ × β)}
    (h : List.Forall₂ (fun entry entry' => entry.1 = entry'.1 ∧ R entry.2 entry'.2) later later')
    {entries : Assoc κ α} {entries' : Assoc κ β}
    (start : List.Forall₂ (fun entry entry' => entry.1 = entry'.1 ∧ R entry.2 entry'.2)
      entries entries') :
    List.Forall₂ (fun entry entry' => entry.1 = entry'.1 ∧ R entry.2 entry'.2)
      (entries.insertAll later) (entries'.insertAll later') := by
  induction h generalizing entries entries' with
  | nil => exact start
  | @cons entry entry' _ _ hentry _ ih =>
    obtain ⟨k, a⟩ := entry
    obtain ⟨k', b⟩ := entry'
    obtain ⟨rfl, hR⟩ : k = k' ∧ R a b := hentry
    exact ih (forall₂_insert start k hR)

theorem get?_eq_none [DecidableEq κ] {entries : Assoc κ α} {key : κ} :
    get? entries key = none ↔ key ∉ keys entries := by
  induction entries with
  | nil => simp [keys]
  | cons entry rest ih =>
    obtain ⟨k, a⟩ := entry
    by_cases hk : k = key
    · simp [get?, keys, hk]
    · have hne : ¬key = k := fun h => hk h.symm
      simp only [get?, hk, if_false, ih, keys, List.map_cons, List.mem_cons, hne, false_or]

theorem get?_insertAll_of_nodup [DecidableEq κ] [LT κ] [DecidableLT κ] {later : Assoc κ α}
    (distinct : (keys later).Nodup) (entries : Assoc κ α) (key : κ) :
    get? (insertAll entries later) key = (get? later key).or (get? entries key) := by
  rcases get?_insertAll_cases entries later key with ⟨entry, mem, rfl, found⟩ | ⟨others, same⟩
  · rw [found, get?_of_mem distinct mem, Option.some_or]
  · have absent : get? later key = none := by
      refine get?_eq_none.2 fun mem => ?_
      obtain ⟨entry, mem, heq⟩ := List.mem_map.1 mem
      exact others entry mem heq
    rw [same, absent, Option.none_or]

theorem mem_keys_insert [DecidableEq κ] [LT κ] [DecidableLT κ] {entries : Assoc κ α} {key j : κ}
    {value : α} : j ∈ keys (insert entries key value) ↔ key = j ∨ j ∈ keys entries := by
  rw [← not_iff_not, not_or, ← get?_eq_none, ← get?_eq_none, get?_insert]
  by_cases hj : key = j <;> simp [hj]

def Ascending (fields : Assoc String α) : Prop := (keys fields).Pairwise (· < ·)

instance (fields : Assoc String α) : Decidable (Ascending fields) :=
  inferInstanceAs (Decidable ((keys fields).Pairwise (· < ·)))

theorem ascending_cons {name : String} {a : α} {rest : Assoc String α} :
    Ascending ((name, a) :: rest) ↔ (∀ other ∈ keys rest, name < other) ∧ Ascending rest :=
  List.pairwise_cons

theorem Ascending.nodup {fields : Assoc String α} (h : Ascending fields) : (keys fields).Nodup :=
  List.Pairwise.imp (fun {a b} (hlt : a < b) (heq : a = b) =>
    String.lt_irrefl b (heq ▸ hlt)) h

theorem Ascending.map {fields : Assoc String α} (f : α → β) (h : Ascending fields) :
    Ascending (fields.map fun field => (field.1, f field.2)) := by
  have same : keys (fields.map fun field => (field.1, f field.2)) = keys fields := by
    simp [keys, Function.comp_def]
  rwa [Ascending, same]

theorem Ascending.insert {fields : Assoc String α} {name : String} {a : α} (h : Ascending fields) :
    Ascending (Assoc.insert fields name a) := by
  induction fields with
  | nil => exact List.pairwise_singleton _ _
  | cons field rest ih =>
    obtain ⟨k, b⟩ := field
    obtain ⟨hk, hrest⟩ := ascending_cons.1 h
    unfold Assoc.insert
    split
    · rename_i heq
      exact ascending_cons.2 ⟨heq ▸ hk, hrest⟩
    · split
      · rename_i hlt
        refine ascending_cons.2 ⟨fun other ho => ?_, h⟩
        rcases List.mem_cons.1 ho with rfl | ho
        · exact hlt
        · exact String.lt_trans hlt (hk other ho)
      · rename_i hne hnlt
        refine ascending_cons.2 ⟨fun other ho => ?_, ih hrest⟩
        obtain ⟨entry, he, rfl⟩ := List.mem_map.1 ho
        rcases mem_of_mem_insert he with rfl | he
        · exact Decidable.byContradiction fun hngt =>
            hne (String.le_antisymm (String.not_lt.1 hngt) (String.not_lt.1 hnlt))
        · exact hk _ (List.mem_map_of_mem he)

theorem ascending_insertAll {fields : Assoc String α} {later : List (String × α)}
    (h : Ascending fields) : Ascending (insertAll fields later) := by
  induction later generalizing fields with
  | nil => exact h
  | cons field later ih => exact ih h.insert

theorem get?_eq_none_of_lt {name k : String} {a : α} {rest : Assoc String α}
    (h : Ascending ((k, a) :: rest)) (hlt : name < k) : get? ((k, a) :: rest) name = none := by
  refine get?_eq_none.2 fun hmem => ?_
  rcases List.mem_cons.1 hmem with rfl | hmem
  · exact String.lt_irrefl _ hlt
  · exact String.lt_irrefl _ (String.lt_trans hlt ((ascending_cons.1 h).1 name hmem))

theorem Ascending.ext {fields others : Assoc String α} (h : Ascending fields)
    (h' : Ascending others) (same : ∀ name, get? fields name = get? others name) :
    fields = others := by
  induction fields generalizing others with
  | nil =>
    cases others with
    | nil => rfl
    | cons other rest => simpa [get?] using same other.1
  | cons field rest ih =>
    obtain ⟨name, a⟩ := field
    cases others with
    | nil => simpa [get?] using same name
    | cons other rest' =>
      obtain ⟨name', b⟩ := other
      have hname : name = name' := by
        refine String.le_antisymm (String.not_lt.1 fun hlt => ?_) (String.not_lt.1 fun hlt => ?_)
        · have := same name'
          rw [get?_eq_none_of_lt h hlt] at this
          simp [get?] at this
        · have := same name
          rw [get?_eq_none_of_lt h' hlt] at this
          simp [get?] at this
      subst hname
      have hab : a = b := by simpa [get?] using same name
      have hrest : rest = rest' := by
        refine ih (ascending_cons.1 h).2 (ascending_cons.1 h').2 fun key => ?_
        by_cases hkey : name = key
        · subst hkey
          rw [get?_eq_none.2 fun hmem => String.lt_irrefl _ ((ascending_cons.1 h).1 name hmem),
            get?_eq_none.2 fun hmem => String.lt_irrefl _ ((ascending_cons.1 h').1 name hmem)]
        · simpa [get?, hkey] using same key
      rw [hab, hrest]

end Polytype.Assoc
