import Mathlib.Order.Monotone.Basic
import Polytype.Clash
import Polytype.Program.Span
import Polytype.Proofs.Assoc
import Polytype.Proofs.Ty.Erasure
import Polytype.Scheme

namespace Polytype

/-- A change of ids that keeps their order, and keeps the id zero, which `Coverage.unknown` has. -/
structure Renaming where
  toFun : Nat → Nat
  strictMono : StrictMono toFun
  zero : toFun 0 = 0

namespace Renaming

instance : CoeFun Renaming fun _ => Nat → Nat := ⟨toFun⟩

variable (ρ : Renaming) {i j : Nat}

@[simp] theorem lt_iff : ρ i < ρ j ↔ i < j := ρ.strictMono.lt_iff_lt

@[simp] theorem eq_iff : ρ i = ρ j ↔ i = j := ρ.strictMono.injective.eq_iff

@[simp] theorem beq_eq : (ρ i == ρ j) = (i == j) := by
  simp [Bool.beq_eq_decide_eq]

end Renaming

class Renamable (α : Type) where
  rename : Renaming → α → α

export Renamable (rename)

section Instances

variable {α β : Type} [Renamable α] [Renamable β] (ρ : Renaming)

instance : Renamable Unit := ⟨fun _ u => u⟩

instance : Renamable String := ⟨fun _ name => name⟩

instance : Renamable Span := ⟨fun _ span => span⟩

instance : Renamable (List α) := ⟨fun ρ => List.map (rename ρ)⟩

instance : Renamable (Option α) := ⟨fun ρ => Option.map (rename ρ)⟩

instance : Renamable (Except α β) where
  rename ρ
    | .ok b => .ok (rename ρ b)
    | .error a => .error (rename ρ a)

instance : Renamable (α × β) := ⟨fun ρ pair => (rename ρ pair.1, rename ρ pair.2)⟩

instance : Renamable TypeVar := ⟨fun ρ v => ⟨ρ v.id, v.level⟩⟩

instance : Renamable Ty := ⟨fun ρ t => t.mapVars fun v => .var (rename ρ v)⟩

instance : Renamable Scheme := ⟨fun ρ σ => ⟨rename ρ σ.vars, rename ρ σ.ty⟩⟩

@[simp] theorem rename_unit (u : Unit) : rename ρ u = u := rfl

@[simp] theorem rename_string (name : String) : rename ρ name = name := rfl

@[simp] theorem rename_span (span : Span) : rename ρ span = span := rfl

@[simp] theorem rename_list (as : List α) : rename ρ as = as.map (rename ρ) := rfl

@[simp] theorem rename_option (a : Option α) : rename ρ a = a.map (rename ρ) := rfl

@[simp] theorem rename_ok (b : β) : rename ρ (.ok b : Except α β) = .ok (rename ρ b) := rfl

@[simp] theorem rename_error (a : α) :
    rename ρ (.error a : Except α β) = .error (rename ρ a) := rfl

@[simp] theorem rename_pair (a : α) (b : β) : rename ρ (a, b) = (rename ρ a, rename ρ b) := rfl

@[simp] theorem rename_fst (pair : α × β) : (rename ρ pair).1 = rename ρ pair.1 := rfl

@[simp] theorem rename_snd (pair : α × β) : (rename ρ pair).2 = rename ρ pair.2 := rfl

@[simp] theorem zip_rename (as : List α) (bs : List β) :
    (as.map (rename ρ)).zip (bs.map (rename ρ)) = (as.zip bs).map (rename ρ) := by
  rw [List.zip_map]
  rfl

@[simp] theorem zip_names_rename (names : List String) (bs : List β) :
    names.zip (bs.map (rename ρ)) = (names.zip bs).map (rename ρ) := by
  rw [← zip_rename]
  congr 1
  exact (List.map_id names).symm

@[simp] theorem getLastD_rename (as : List α) (a : α) :
    (as.map (rename ρ)).getLastD (rename ρ a) = rename ρ (as.getLastD a) := by
  simp only [List.getLastD_eq_getLast?, List.getLast?_map]
  cases as.getLast? <;> rfl

@[simp] theorem rename_id (v : TypeVar) : (rename ρ v).id = ρ v.id := rfl

@[simp] theorem rename_level (v : TypeVar) : (rename ρ v).level = v.level := rfl

@[simp] theorem rename_scheme (vars : List TypeVar) (t : Ty) :
    rename ρ (Scheme.mk vars t) = ⟨vars.map (rename ρ), rename ρ t⟩ := rfl

@[simp] theorem rename_scheme_vars (σ : Scheme) :
    (rename ρ σ).vars = σ.vars.map (rename ρ) := rfl

@[simp] theorem rename_scheme_ty (σ : Scheme) : (rename ρ σ).ty = rename ρ σ.ty := rfl

end Instances

/-! ## Finite maps -/

namespace Assoc

variable {α β : Type} (ρ : Renaming)

section Names

variable [Renamable α] (entries later : Assoc String α) (name : String)

@[simp] theorem get?_rename : get? (entries.map (rename ρ)) name = (get? entries name).map (rename ρ) :=
  get?_mapValues (rename ρ) entries name

@[simp] theorem contains_rename : contains (entries.map (rename ρ)) name = contains entries name := by
  simp [contains]

@[simp] theorem keys_rename : keys (entries.map (rename ρ)) = keys entries := by
  simp [keys, Function.comp_def]

@[simp] theorem insert_rename (a : α) :
    insert (entries.map (rename ρ)) name (rename ρ a) = (insert entries name a).map (rename ρ) :=
  (mapValues_insert (rename ρ) entries name a).symm

@[simp] theorem insertAll_rename :
    insertAll (entries.map (rename ρ)) (later.map (rename ρ)) =
      (insertAll entries later).map (rename ρ) :=
  (mapValues_insertAll (rename ρ) entries later).symm

variable {ρ} in
theorem mapValues_rename [Renamable β] {f g : α → β} (h : ∀ a, g (rename ρ a) = rename ρ (f a)) :
    mapValues g (entries.map (rename ρ)) = (mapValues f entries).map (rename ρ) := by
  simp [mapValues, h]

@[simp] theorem ofList_rename : ofList (later.map (rename ρ)) = (ofList later).map (rename ρ) :=
  insertAll_rename ρ [] later

end Names

def relabel (f : α → β) (entries : Assoc Nat α) : Assoc Nat β :=
  entries.map fun entry => (ρ entry.1, f entry.2)

variable (f : α → β) (entries later : Assoc Nat α) (id : Nat)

@[simp] theorem length_relabel : (relabel ρ f entries).length = entries.length :=
  List.length_map _

@[simp] theorem get?_relabel : get? (relabel ρ f entries) (ρ id) = (get? entries id).map f := by
  induction entries with
  | nil => rfl
  | cons entry rest ih =>
    obtain ⟨k, a⟩ := entry
    unfold relabel at ih ⊢
    by_cases hk : k = id <;> simp [get?, hk, ih]

@[simp] theorem contains_relabel : contains (relabel ρ f entries) (ρ id) = contains entries id := by
  simp [contains]

@[simp] theorem insert_relabel (a : α) :
    insert (relabel ρ f entries) (ρ id) (f a) = relabel ρ f (insert entries id a) := by
  induction entries with
  | nil => rfl
  | cons entry rest ih =>
    obtain ⟨k, b⟩ := entry
    unfold relabel at ih ⊢
    simp only [List.map_cons, insert, Renaming.eq_iff, Renaming.lt_iff]
    split
    · rfl
    · split
      · rfl
      · rw [ih, List.map_cons]

theorem foldl_relabel {γ δ : Type} (g : γ → δ) {step : Assoc Nat α → Nat × γ → Assoc Nat α}
    {step' : Assoc Nat β → Nat × δ → Assoc Nat β}
    (h : ∀ acc entry, step' (relabel ρ f acc) (ρ entry.1, g entry.2) = relabel ρ f (step acc entry))
    (steps : Assoc Nat γ) :
    (relabel ρ g steps).foldl step' (relabel ρ f entries) =
      relabel ρ f (steps.foldl step entries) := by
  induction steps generalizing entries with
  | nil => rfl
  | cons entry steps ih =>
    calc (relabel ρ g steps).foldl step' (step' (relabel ρ f entries) (ρ entry.1, g entry.2))
        = (relabel ρ g steps).foldl step' (relabel ρ f (step entries entry)) := by rw [h]
      _ = relabel ρ f (steps.foldl step (step entries entry)) := ih _

@[simp] theorem insertAll_relabel :
    insertAll (relabel ρ f entries) (relabel ρ f later) = relabel ρ f (insertAll entries later) :=
  foldl_relabel ρ f entries f (fun acc entry => insert_relabel ρ f acc entry.1 entry.2) later

@[simp] theorem ofList_relabel : ofList (relabel ρ f later) = relabel ρ f (ofList later) :=
  insertAll_relabel ρ f [] later

theorem filterKeys_relabel {keep keep' : Nat → Bool} (h : ∀ i, keep' (ρ i) = keep i) :
    filterKeys keep' (relabel ρ f entries) = relabel ρ f (filterKeys keep entries) := by
  simp [filterKeys, relabel, List.filter_map, Function.comp_def, h]

@[simp] theorem erase_relabel : erase (relabel ρ f entries) (ρ id) = relabel ρ f (erase entries id) :=
  filterKeys_relabel ρ f entries fun i => by simp

theorem mapValues_relabel {g : α → α} {g' : β → β} (h : ∀ a, g' (f a) = f (g a)) :
    mapValues g' (relabel ρ f entries) = relabel ρ f (mapValues g entries) := by
  simp [mapValues, relabel, h]

end Assoc

/-! ## Variables -/

namespace TypeVar

variable (ρ : Renaming)

theorem insert_rename (v : TypeVar) (set : List TypeVar) :
    insert (rename ρ v) (set.map (rename ρ)) = (v.insert set).map (rename ρ) := by
  induction set with
  | nil => rfl
  | cons w rest ih =>
    simp only [List.map_cons, insert, rename_id, Renaming.lt_iff, Renaming.eq_iff]
    split
    · rfl
    · split
      · rfl
      · rw [List.map_cons, ih]

theorem foldl_insert_rename (vs set : List TypeVar) :
    (vs.map (rename ρ)).foldl (fun set v => v.insert set) (set.map (rename ρ)) =
      (vs.foldl (fun set v => v.insert set) set).map (rename ρ) := by
  induction vs generalizing set with
  | nil => rfl
  | cons v vs ih => rw [List.map_cons, List.foldl_cons, insert_rename, ih, List.foldl_cons]

@[simp] theorem setOf_rename (vs : List TypeVar) :
    setOf (vs.map (rename ρ)) = (setOf vs).map (rename ρ) :=
  foldl_insert_rename ρ vs []

end TypeVar

/-! ## Types -/

namespace Ty

variable (ρ : Renaming)

@[simp] theorem rename_var (v : TypeVar) : rename ρ (var v) = var (rename ρ v) := rfl

@[simp] theorem rename_const (name : String) : rename ρ (const name) = const name := rfl

@[simp] theorem rename_app (head : Ty) (args : List Ty) :
    rename ρ (app head args) = app (rename ρ head) (args.map (rename ρ)) :=
  congrArg (app _) (mapVarsList_eq _ args)

@[simp] theorem rename_func (params : List Ty) (result : Ty) :
    rename ρ (func params result) = func (params.map (rename ρ)) (rename ρ result) :=
  congrArg (func · _) (mapVarsList_eq _ params)

@[simp] theorem rename_record (fields : List (String × Ty)) :
    rename ρ (record fields) = record (fields.map (rename ρ)) :=
  congrArg record (mapVarsFields_eq _ fields)

@[simp] theorem rename_tuple (elements : List Ty) :
    rename ρ (tuple elements) = tuple (elements.map (rename ρ)) :=
  congrArg tuple (mapVarsList_eq _ elements)

@[simp] theorem rename_named (name : String) (args : List Ty) :
    rename ρ (named name args) = named name (args.map (rename ρ)) := by
  cases args <;> simp [named]

theorem rename_ne_var {t : Ty} (h : ∀ v, t ≠ var v) (v : TypeVar) : rename ρ t ≠ var v := by
  cases t with
  | var w => exact (h w rfl).elim
  | _ => simp

theorem mapVars_rename {f g : TypeVar → Ty} (h : ∀ v, g (rename ρ v) = rename ρ (f v)) (t : Ty) :
    (rename ρ t).mapVars g = rename ρ (t.mapVars f) := by
  calc (rename ρ t).mapVars g = t.mapVars fun v => g (rename ρ v) := mapVars_mapVars _ _ t
    _ = t.mapVars fun v => rename ρ (f v) := by simp only [h]
    _ = rename ρ (t.mapVars f) := (mapVars_mapVars _ _ t).symm

@[simp] theorem headName?_rename (t : Ty) : (rename ρ t).headName? = t.headName? := by
  induction t using induct with
  | app head args ih _ => simpa [headName?] using ih
  | _ => simp [headName?]

@[simp] theorem isNamed_rename (t : Ty) (name : String) :
    (rename ρ t).isNamed name = t.isNamed name := by
  simp [isNamed]

@[simp] theorem args_rename (t : Ty) : (rename ρ t).args = t.args.map (rename ρ) := by
  cases t <;> simp [args]

@[simp] theorem listElement?_rename (t : Ty) :
    (rename ρ t).listElement? = t.listElement?.map (rename ρ) := by
  cases t with
  | app head args =>
    match args with
    | [] => simp [listElement?]
    | [element] => by_cases h : head.isNamed "List" <;> simp [listElement?, h]
    | _ :: _ :: _ => simp [listElement?]
  | _ => simp [listElement?]

@[simp] theorem vars_rename (t : Ty) : (rename ρ t).vars = t.vars.map (rename ρ) := by
  induction t using induct with
  | var v => rfl
  | const name => rfl
  | app head args ihHead ihArgs =>
    simp only [rename_app, vars, varsList_eq, ihHead, List.flatMap_map, List.map_append,
      List.map_flatMap]
    rw [List.flatMap_congr ihArgs]
  | func params result ihParams ihResult =>
    simp only [rename_func, vars, varsList_eq, ihResult, List.flatMap_map, List.map_append,
      List.map_flatMap]
    rw [List.flatMap_congr ihParams]
  | record fields ih =>
    simp only [rename_record, vars, varsFields_eq, List.flatMap_map, List.map_flatMap, rename_snd]
    rw [List.flatMap_congr ih]
  | tuple elements ih =>
    simp only [rename_tuple, vars, varsList_eq, List.flatMap_map, List.map_flatMap]
    rw [List.flatMap_congr ih]

@[simp] theorem freeVars_rename (t : Ty) : (rename ρ t).freeVars = t.freeVars.map (rename ρ) := by
  simp [freeVars]

@[simp] theorem mentions_rename (t : Ty) (id : Nat) :
    (rename ρ t).mentions (ρ id) = t.mentions id := by
  simp [mentions, Function.comp_def]

theorem sameList_rename {ts us : List Ty}
    (ih : ∀ t ∈ ts, ∀ u, (rename ρ t).same (rename ρ u) = t.same u) :
    sameList (ts.map (rename ρ)) (us.map (rename ρ)) = sameList ts us := by
  induction ts generalizing us with
  | nil => cases us <;> rfl
  | cons t ts ihList =>
    obtain ⟨first, rest⟩ := List.forall_mem_cons.1 ih
    cases us with
    | nil => rfl
    | cons u us => simp only [List.map_cons, sameList, first, ihList rest]

theorem sameFields_rename {fields others : List (String × Ty)}
    (ih : ∀ field ∈ fields, ∀ u, (rename ρ field.2).same (rename ρ u) = field.2.same u) :
    sameFields (fields.map (rename ρ)) (others.map (rename ρ)) = sameFields fields others := by
  induction fields generalizing others with
  | nil => cases others <;> rfl
  | cons field fields ihFields =>
    obtain ⟨first, rest⟩ := List.forall_mem_cons.1 ih
    cases others with
    | nil => rfl
    | cons other others =>
      obtain ⟨name, t⟩ := field
      obtain ⟨name', u⟩ := other
      simp only [List.map_cons, rename_pair, rename_string, sameFields, first, ihFields rest]

@[simp] theorem same_rename (t u : Ty) : (rename ρ t).same (rename ρ u) = t.same u := by
  induction t using induct generalizing u with
  | var v => cases u <;> simp [same]
  | const name => cases u <;> simp [same]
  | app head args ihHead ihArgs => cases u <;> simp [same, ihHead, sameList_rename ρ ihArgs]
  | func params result ihParams ihResult =>
    cases u <;> simp [same, ihResult, sameList_rename ρ ihParams]
  | record fields ih => cases u <;> simp [same, sameFields_rename ρ ih]
  | tuple elements ih => cases u <;> simp [same, sameList_rename ρ ih]

theorem hasFunctionList_rename {ts : List Ty}
    (ih : ∀ t ∈ ts, (rename ρ t).hasFunction = t.hasFunction) :
    hasFunctionList (ts.map (rename ρ)) = hasFunctionList ts := by
  induction ts with
  | nil => rfl
  | cons t ts ihList =>
    obtain ⟨first, rest⟩ := List.forall_mem_cons.1 ih
    simp only [List.map_cons, hasFunctionList, first, ihList rest]

theorem hasFunctionFields_rename {fields : List (String × Ty)}
    (ih : ∀ field ∈ fields, (rename ρ field.2).hasFunction = field.2.hasFunction) :
    hasFunctionFields (fields.map (rename ρ)) = hasFunctionFields fields := by
  induction fields with
  | nil => rfl
  | cons field fields ihFields =>
    obtain ⟨first, rest⟩ := List.forall_mem_cons.1 ih
    obtain ⟨name, t⟩ := field
    simp only [List.map_cons, rename_pair, hasFunctionFields, first, ihFields rest]

@[simp] theorem hasFunction_rename (t : Ty) : (rename ρ t).hasFunction = t.hasFunction := by
  induction t using induct with
  | var v => rfl
  | const name => rfl
  | app head args ihHead ihArgs => simp [hasFunction, ihHead, hasFunctionList_rename ρ ihArgs]
  | func params result ihParams ihResult => simp [hasFunction]
  | record fields ih => simp [hasFunction, hasFunctionFields_rename ρ ih]
  | tuple elements ih => simp [hasFunction, hasFunctionList_rename ρ ih]

end Ty

/-! ## Schemes -/

namespace Scheme

variable (ρ : Renaming)

@[simp] theorem rename_mono (t : Ty) : rename ρ (mono t) = mono (rename ρ t) := rfl

@[simp] theorem isPolymorphic_rename (σ : Scheme) : (rename ρ σ).isPolymorphic = σ.isPolymorphic := by
  simp [isPolymorphic]

@[simp] theorem binds_rename (σ : Scheme) (id : Nat) : (rename ρ σ).binds (ρ id) = σ.binds id := by
  simp [binds, Function.comp_def]

@[simp] theorem freeVars_rename (σ : Scheme) : (rename ρ σ).freeVars = σ.freeVars.map (rename ρ) := by
  simp [freeVars, List.filter_map, Function.comp_def]

end Scheme

end Polytype
