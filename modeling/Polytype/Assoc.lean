/-!
# Finite maps as lists of entries

Record fields, substitutions and environments are finite maps. Each is a list of entries that
`insert` keeps in ascending order of keys, so a map built by `insert` has one representation and
its entries are read in key order. The equations of `get?` say what each operation does to the map
as a partial function.
-/

namespace Polytype

universe u v w

abbrev Assoc (κ : Type u) (α : Type v) := List (κ × α)

namespace Assoc

variable {κ : Type u} {α : Type v} {β : Type w}

def get? [DecidableEq κ] : Assoc κ α → κ → Option α
  | [], _ => none
  | (k, a) :: rest, key => if k = key then some a else get? rest key

def contains [DecidableEq κ] (entries : Assoc κ α) (key : κ) : Bool :=
  (get? entries key).isSome

def insert [DecidableEq κ] [LT κ] [DecidableLT κ] : Assoc κ α → κ → α → Assoc κ α
  | [], key, value => [(key, value)]
  | (k, a) :: rest, key, value =>
    if key = k then (key, value) :: rest
    else if key < k then (key, value) :: (k, a) :: rest
    else (k, a) :: insert rest key value

def filterKeys (keep : κ → Bool) (entries : Assoc κ α) : Assoc κ α :=
  entries.filter fun entry => keep entry.1

def erase [DecidableEq κ] (entries : Assoc κ α) (key : κ) : Assoc κ α :=
  filterKeys (fun k => k ≠ key) entries

def mapValues (f : α → β) (entries : Assoc κ α) : Assoc κ β :=
  entries.map fun entry => (entry.1, f entry.2)

def keys (entries : Assoc κ α) : List κ :=
  entries.map (·.1)

def values (entries : Assoc κ α) : List α :=
  entries.map (·.2)

def insertAll [DecidableEq κ] [LT κ] [DecidableLT κ] (entries : Assoc κ α)
    (later : List (κ × α)) : Assoc κ α :=
  later.foldl (fun acc entry => acc.insert entry.1 entry.2) entries

def ofList [DecidableEq κ] [LT κ] [DecidableLT κ] (pairs : List (κ × α)) : Assoc κ α :=
  insertAll [] pairs

def sameBy [DecidableEq κ] (same : α → α → Bool) : Assoc κ α → Assoc κ α → Bool
  | [], [] => true
  | (k, a) :: rest, (l, b) :: others => k = l && same a b && sameBy same rest others
  | _, _ => false

/-! ## The map as a partial function -/

section Lemmas

variable [DecidableEq κ]

@[simp] theorem get?_nil (key : κ) : get? ([] : Assoc κ α) key = none := rfl

theorem get?_cons (k : κ) (a : α) (rest : Assoc κ α) (key : κ) :
    get? ((k, a) :: rest) key = if k = key then some a else get? rest key := rfl

theorem get?_insert [LT κ] [DecidableLT κ] (entries : Assoc κ α) (key j : κ) (value : α) :
    get? (insert entries key value) j = if key = j then some value else get? entries j := by
  induction entries with
  | nil => simp [insert, get?]
  | cons entry rest ih =>
    obtain ⟨k, a⟩ := entry
    by_cases hk : key = k
    · subst hk
      by_cases hj : key = j <;> simp [insert, get?, hj]
    · by_cases hlt : key < k
      · simp [insert, hk, hlt, get?]
      · by_cases hj : k = j
        · subst hj
          simp [insert, hk, hlt, get?]
        · simp [insert, hk, hlt, get?, hj, ih]

@[simp] theorem get?_insert_self [LT κ] [DecidableLT κ] (entries : Assoc κ α) (key : κ)
    (value : α) : get? (insert entries key value) key = some value := by
  simp [get?_insert]

theorem get?_filterKeys (keep : κ → Bool) (entries : Assoc κ α) (j : κ) :
    get? (filterKeys keep entries) j = if keep j then get? entries j else none := by
  induction entries with
  | nil => simp [filterKeys]
  | cons entry rest ih =>
    obtain ⟨k, a⟩ := entry
    unfold filterKeys at ih ⊢
    by_cases hj : k = j
    · subst hj
      cases hk : keep k <;> simp_all [get?]
    · cases hk : keep k <;> simp_all [get?]

theorem get?_erase (entries : Assoc κ α) (key j : κ) :
    get? (erase entries key) j = if key = j then none else get? entries j := by
  by_cases h : key = j <;> simp [erase, get?_filterKeys, h, eq_comm]

@[simp] theorem get?_mapValues (f : α → β) (entries : Assoc κ α) (j : κ) :
    get? (mapValues f entries) j = (get? entries j).map f := by
  induction entries with
  | nil => rfl
  | cons entry rest ih =>
    obtain ⟨k, a⟩ := entry
    unfold mapValues at ih ⊢
    by_cases hj : k = j <;> simp [get?, hj, ih]

theorem mem_of_get? {entries : Assoc κ α} {key : κ} {a : α} (h : get? entries key = some a) :
    (key, a) ∈ entries := by
  induction entries with
  | nil => simp at h
  | cons entry rest ih =>
    obtain ⟨k, b⟩ := entry
    by_cases hk : k = key
    · simp_all [get?]
    · simp only [get?, hk, if_false] at h
      exact List.mem_cons_of_mem _ (ih h)

theorem mem_of_mem_insert [LT κ] [DecidableLT κ] {entries : Assoc κ α} {key : κ} {value : α}
    {entry : κ × α} (h : entry ∈ insert entries key value) :
    entry = (key, value) ∨ entry ∈ entries := by
  induction entries with
  | nil => simpa [insert] using h
  | cons head rest ih =>
    obtain ⟨k, a⟩ := head
    simp only [insert] at h
    split at h
    · rcases List.mem_cons.1 h with h | h
      · exact .inl h
      · exact .inr (List.mem_cons_of_mem _ h)
    · split at h
      · rcases List.mem_cons.1 h with h | h
        · exact .inl h
        · exact .inr h
      · rcases List.mem_cons.1 h with h | h
        · exact .inr (h ▸ List.mem_cons_self)
        · exact (ih h).imp_right (List.mem_cons_of_mem _)

theorem mem_of_mem_insertAll [LT κ] [DecidableLT κ] {later : List (κ × α)} {entries : Assoc κ α}
    {entry : κ × α} (h : entry ∈ insertAll entries later) : entry ∈ later ∨ entry ∈ entries := by
  induction later generalizing entries with
  | nil => exact .inr h
  | cons head rest ih =>
    rcases ih h with h | h
    · exact .inl (List.mem_cons_of_mem _ h)
    · rcases mem_of_mem_insert h with h | h
      · exact .inl (h ▸ List.mem_cons_self)
      · exact .inr h

theorem length_erase_lt {entries : Assoc κ α} {key : κ} {a : α}
    (h : get? entries key = some a) : (erase entries key).length < entries.length := by
  unfold erase filterKeys
  exact List.length_filter_lt_length_iff_exists.2 ⟨(key, a), mem_of_get? h, by simp⟩

end Lemmas

end Assoc

end Polytype
