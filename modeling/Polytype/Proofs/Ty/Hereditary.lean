import Polytype.Proofs.Assoc
import Polytype.Proofs.Ty.Erasure

/-!
# Properties that hold throughout a type

`Everywhere node t` says that every node of `t` satisfies `node`. If `node` is kept when variables
are replaced, then `Everywhere node` passes to the parts and the instances of a type, which is all
that is asked of a property to be kept by unification (`Hereditary`).

* `Ordered`: record fields are in ascending order of names.
* `Firm`: no application is headed by a variable.
* `NamedHeads`: every application is headed by a constant.
* `Recordless`: there is no record.
* `AllVars N`: the variables, with their levels, satisfy `N`.
-/

namespace Polytype.Ty

/-- A property of types that passes to parts and instances. Its variables belong to `C`, and their
levels may be lowered as far as `lo`. -/
structure Hereditary (C : Nat → Prop) (lo : Nat → Nat) (P : Ty → Prop) : Prop where
  ids : ∀ {v}, P (var v) → C v.id
  lower : ∀ {v l}, P (var v) → lo v.id ≤ l → l ≤ v.level → P (var ⟨v.id, l⟩)
  vars : ∀ {t v}, P t → v ∈ t.vars → P (var v)
  args : ∀ {head args}, P (app head args) → ∀ t ∈ args, P t
  params : ∀ {params result}, P (func params result) → ∀ t ∈ params, P t
  result : ∀ {params result}, P (func params result) → P result
  elements : ∀ {elements}, P (tuple elements) → ∀ t ∈ elements, P t
  field : ∀ {fields}, P (record fields) → ∀ field ∈ fields, P field.2
  single : ∀ {fields field}, P (record fields) → field ∈ fields → P (record [field])
  insert : ∀ {fields name t}, P (record fields) → P (record [(name, t)]) →
    P (record (Assoc.insert fields name t))
  mapVars : ∀ {t} {f : TypeVar → Ty}, P t → (∀ v ∈ t.vars, P (f v)) → P (t.mapVars f)

/-- Every variable belongs. -/
abbrev anyId : Nat → Prop := fun _ => True

abbrev anyLevel : Nat → Nat := fun _ => 0

theorem Hereditary.and {C : Nat → Prop} {lo : Nat → Nat} {P Q : Ty → Prop}
    (hP : Hereditary C lo P) {D : Nat → Prop} (hQ : Hereditary D lo Q) :
    Hereditary C lo fun t => P t ∧ Q t where
  ids h := hP.ids h.1
  lower h hlo hl := ⟨hP.lower h.1 hlo hl, hQ.lower h.2 hlo hl⟩
  vars h hv := ⟨hP.vars h.1 hv, hQ.vars h.2 hv⟩
  args h t ht := ⟨hP.args h.1 t ht, hQ.args h.2 t ht⟩
  params h t ht := ⟨hP.params h.1 t ht, hQ.params h.2 t ht⟩
  result h := ⟨hP.result h.1, hQ.result h.2⟩
  elements h t ht := ⟨hP.elements h.1 t ht, hQ.elements h.2 t ht⟩
  field h field hf := ⟨hP.field h.1 field hf, hQ.field h.2 field hf⟩
  single h hf := ⟨hP.single h.1 hf, hQ.single h.2 hf⟩
  insert h ht := ⟨hP.insert h.1 ht.1, hQ.insert h.2 ht.2⟩
  mapVars h hf := ⟨hP.mapVars h.1 fun v hv => (hf v hv).1, hQ.mapVars h.2 fun v hv => (hf v hv).2⟩

theorem Hereditary.imp {C : Nat → Prop} {lo : Nat → Nat} {P : Ty → Prop}
    (hP : Hereditary C lo P) (a : Prop) : Hereditary anyId lo fun t => a → P t where
  ids _ := trivial
  lower h hlo hl ha := hP.lower (h ha) hlo hl
  vars h hv ha := hP.vars (h ha) hv
  args h t ht ha := hP.args (h ha) t ht
  params h t ht ha := hP.params (h ha) t ht
  result h ha := hP.result (h ha)
  elements h t ht ha := hP.elements (h ha) t ht
  field h field hf ha := hP.field (h ha) field hf
  single h hf ha := hP.single (h ha) hf
  insert h ht ha := hP.insert (h ha) (ht ha)
  mapVars h hf ha := hP.mapVars (h ha) fun v hv => hf v hv ha

inductive Everywhere (node : Ty → Prop) : Ty → Prop
  | var {v} : node (var v) → Everywhere node (var v)
  | const {name} : node (const name) → Everywhere node (const name)
  | app {head args} : node (app head args) → Everywhere node head →
      (∀ t ∈ args, Everywhere node t) → Everywhere node (app head args)
  | func {params result} : node (func params result) → (∀ t ∈ params, Everywhere node t) →
      Everywhere node result → Everywhere node (func params result)
  | record {fields} : node (record fields) → (∀ field ∈ fields, Everywhere node field.2) →
      Everywhere node (record fields)
  | tuple {elements} : node (tuple elements) → (∀ t ∈ elements, Everywhere node t) →
      Everywhere node (tuple elements)

/-- A property of nodes that replacing variables below the node does not touch. -/
structure Stable (C : Nat → Prop) (lo : Nat → Nat) (node : Ty → Prop) : Prop where
  ids : ∀ {v}, node (var v) → C v.id
  lower : ∀ {v l}, node (var v) → lo v.id ≤ l → l ≤ v.level → node (var ⟨v.id, l⟩)
  single : ∀ {fields field}, node (record fields) → field ∈ fields → node (record [field])
  insert : ∀ {fields name t}, node (record fields) → node (record [(name, t)]) →
    node (record (Assoc.insert fields name t))
  mapVars : ∀ {t} {f : TypeVar → Ty}, (∀ v, t ≠ var v) → node t → node (t.mapVars f)

section

variable {C : Nat → Prop} {lo : Nat → Nat} {node : Ty → Prop}

@[simp] theorem everywhere_var {v : TypeVar} : Everywhere node (.var v) ↔ node (.var v) :=
  ⟨fun | .var h => h, .var⟩

@[simp] theorem everywhere_const {name : String} :
    Everywhere node (.const name) ↔ node (.const name) :=
  ⟨fun | .const h => h, .const⟩

@[simp] theorem everywhere_app {head : Ty} {args : List Ty} :
    Everywhere node (.app head args) ↔
      node (.app head args) ∧ Everywhere node head ∧ ∀ t ∈ args, Everywhere node t :=
  ⟨fun | .app h hhead hargs => ⟨h, hhead, hargs⟩, fun h => .app h.1 h.2.1 h.2.2⟩

@[simp] theorem everywhere_func {params : List Ty} {result : Ty} :
    Everywhere node (.func params result) ↔
      node (.func params result) ∧ (∀ t ∈ params, Everywhere node t) ∧ Everywhere node result :=
  ⟨fun | .func h hparams hresult => ⟨h, hparams, hresult⟩, fun h => .func h.1 h.2.1 h.2.2⟩

@[simp] theorem everywhere_record {fields : List (String × Ty)} :
    Everywhere node (.record fields) ↔
      node (.record fields) ∧ ∀ field ∈ fields, Everywhere node field.2 :=
  ⟨fun | .record h hfields => ⟨h, hfields⟩, fun h => .record h.1 h.2⟩

@[simp] theorem everywhere_tuple {elements : List Ty} :
    Everywhere node (.tuple elements) ↔
      node (.tuple elements) ∧ ∀ t ∈ elements, Everywhere node t :=
  ⟨fun | .tuple h helements => ⟨h, helements⟩, fun h => .tuple h.1 h.2⟩

theorem Everywhere.vars {t : Ty} (h : Everywhere node t) {v : TypeVar} (hv : v ∈ t.vars) :
    Everywhere node (Ty.var v) := by
  induction h with
  | var h =>
    obtain rfl : v = _ := by simpa [Ty.vars] using hv
    exact .var h
  | const h => simp [Ty.vars] at hv
  | app h _ _ ihHead ihArgs =>
    simp only [Ty.vars, varsList_eq, List.mem_append, List.mem_flatMap] at hv
    rcases hv with hv | ⟨t, ht, hv⟩
    · exact ihHead hv
    · exact ihArgs t ht hv
  | func h _ _ ihParams ihResult =>
    simp only [Ty.vars, varsList_eq, List.mem_append, List.mem_flatMap] at hv
    rcases hv with ⟨t, ht, hv⟩ | hv
    · exact ihParams t ht hv
    · exact ihResult hv
  | record h _ ih =>
    simp only [Ty.vars, varsFields_eq, List.mem_flatMap] at hv
    obtain ⟨field, hf, hv⟩ := hv
    exact ih field hf hv
  | tuple h _ ih =>
    simp only [Ty.vars, varsList_eq, List.mem_flatMap] at hv
    obtain ⟨t, ht, hv⟩ := hv
    exact ih t ht hv

theorem Everywhere.mapVars (hnode : Stable C lo node) {t : Ty} (h : Everywhere node t)
    {f : TypeVar → Ty} (hf : ∀ v ∈ t.vars, Everywhere node (f v)) :
    Everywhere node (t.mapVars f) := by
  induction h with
  | var h => exact hf _ (by simp [Ty.vars])
  | const h => exact .const h
  | app h _ _ ihHead ihArgs =>
    have hnode := hnode.mapVars (f := f) (by simp) h
    simp only [Ty.vars, varsList_eq, List.mem_append, List.mem_flatMap] at hf
    simp only [Ty.mapVars, mapVarsList_eq] at hnode ⊢
    refine .app hnode (ihHead fun v hv => hf v (.inl hv)) fun u hu => ?_
    obtain ⟨t, ht, rfl⟩ := List.mem_map.1 hu
    exact ihArgs t ht fun v hv => hf v (.inr ⟨t, ht, hv⟩)
  | func h _ _ ihParams ihResult =>
    have hnode := hnode.mapVars (f := f) (by simp) h
    simp only [Ty.vars, varsList_eq, List.mem_append, List.mem_flatMap] at hf
    simp only [Ty.mapVars, mapVarsList_eq] at hnode ⊢
    refine .func hnode (fun u hu => ?_) (ihResult fun v hv => hf v (.inr hv))
    obtain ⟨t, ht, rfl⟩ := List.mem_map.1 hu
    exact ihParams t ht fun v hv => hf v (.inl ⟨t, ht, hv⟩)
  | record h _ ih =>
    have hnode := hnode.mapVars (f := f) (by simp) h
    simp only [Ty.vars, varsFields_eq, List.mem_flatMap] at hf
    simp only [Ty.mapVars, mapVarsFields_eq] at hnode ⊢
    refine .record hnode fun u hu => ?_
    obtain ⟨field, hfield, rfl⟩ := List.mem_map.1 hu
    exact ih field hfield fun v hv => hf v ⟨field, hfield, hv⟩
  | tuple h _ ih =>
    have hnode := hnode.mapVars (f := f) (by simp) h
    simp only [Ty.vars, varsList_eq, List.mem_flatMap] at hf
    simp only [Ty.mapVars, mapVarsList_eq] at hnode ⊢
    refine .tuple hnode fun u hu => ?_
    obtain ⟨t, ht, rfl⟩ := List.mem_map.1 hu
    exact ih t ht fun v hv => hf v ⟨t, ht, hv⟩

theorem Stable.hereditary (hnode : Stable C lo node) : Hereditary C lo (Everywhere node) where
  ids h := hnode.ids (everywhere_var.1 h)
  lower h hlo hl := .var (hnode.lower (everywhere_var.1 h) hlo hl)
  vars h hv := h.vars hv
  args h := (everywhere_app.1 h).2.2
  params h := (everywhere_func.1 h).2.1
  result h := (everywhere_func.1 h).2.2
  elements h := (everywhere_tuple.1 h).2
  field h := (everywhere_record.1 h).2
  single {fields field} h hf := by
    obtain ⟨hn, h⟩ := everywhere_record.1 h
    refine .record (hnode.single hn hf) fun other ho => ?_
    obtain rfl := List.mem_singleton.1 ho
    exact h _ hf
  insert h ht := by
    obtain ⟨hn, h⟩ := everywhere_record.1 h
    obtain ⟨hn', h'⟩ := everywhere_record.1 ht
    refine .record (hnode.insert hn hn') fun other ho => ?_
    rcases Assoc.mem_of_mem_insert ho with rfl | ho
    · exact h' _ List.mem_cons_self
    · exact h _ ho
  mapVars h hf := h.mapVars hnode hf

end

/-! ## The properties -/

def OrderedNode : Ty → Prop
  | record fields => Assoc.Ascending fields
  | _ => True

def FirmNode : Ty → Prop
  | app (var _) _ => False
  | _ => True

def NamedHeadNode : Ty → Prop
  | app (const _) _ => True
  | app _ _ => False
  | _ => True

def RecordlessNode : Ty → Prop
  | record _ => False
  | _ => True

def VarNode (N : TypeVar → Prop) : Ty → Prop
  | var v => N v
  | _ => True

abbrev Ordered : Ty → Prop := Everywhere OrderedNode

abbrev Firm : Ty → Prop := Everywhere FirmNode

abbrev NamedHeads : Ty → Prop := Everywhere NamedHeadNode

abbrev Recordless : Ty → Prop := Everywhere RecordlessNode

abbrev AllVars (N : TypeVar → Prop) : Ty → Prop := Everywhere (VarNode N)

/-- The variables of the type belong to `C`. -/
abbrev Within (C : Nat → Prop) : Ty → Prop := AllVars fun v => C v.id

variable {lo : Nat → Nat}

theorem hereditary_ordered : Hereditary anyId lo Ordered :=
  Stable.hereditary {
    ids := fun _ => trivial
    lower := fun h _ _ => h
    single := fun _ _ => List.pairwise_singleton _ _
    insert := fun h _ => Assoc.Ascending.insert h
    mapVars := fun {t f} hvar h => by
      cases t with
      | record fields =>
        simp only [mapVars, mapVarsFields_eq]
        exact Assoc.Ascending.map (fun t => t.mapVars f) h
      | var v => exact absurd rfl (hvar v)
      | _ => trivial }

theorem hereditary_firm : Hereditary anyId lo Firm :=
  Stable.hereditary {
    ids := fun _ => trivial
    lower := fun h _ _ => h
    single := fun _ _ => trivial
    insert := fun _ _ => trivial
    mapVars := fun {t f} hvar h => by
      cases t with
      | app head args =>
        cases head with
        | var v => exact h.elim
        | _ => trivial
      | var v => exact absurd rfl (hvar v)
      | _ => trivial }

theorem hereditary_namedHeads : Hereditary anyId lo NamedHeads :=
  Stable.hereditary {
    ids := fun _ => trivial
    lower := fun h _ _ => h
    single := fun _ _ => trivial
    insert := fun _ _ => trivial
    mapVars := fun {t f} hvar h => by
      cases t with
      | app head args =>
        cases head with
        | const name => trivial
        | _ => exact h.elim
      | var v => exact absurd rfl (hvar v)
      | _ => trivial }

theorem hereditary_recordless : Hereditary anyId lo Recordless :=
  Stable.hereditary {
    ids := fun _ => trivial
    lower := fun h _ _ => h
    single := fun h _ => h
    insert := fun h _ => h
    mapVars := fun {t f} hvar h => by
      cases t with
      | record fields => exact h.elim
      | var v => exact absurd rfl (hvar v)
      | _ => trivial }

theorem hereditary_allVars {C : Nat → Prop} {N : TypeVar → Prop} (ids : ∀ v, N v → C v.id)
    (lower : ∀ v l, N v → lo v.id ≤ l → l ≤ v.level → N ⟨v.id, l⟩) :
    Hereditary C lo (AllVars N) :=
  Stable.hereditary {
    ids := fun h => ids _ h
    lower := fun h hlo hl => lower _ _ h hlo hl
    single := fun _ _ => trivial
    insert := fun _ _ => trivial
    mapVars := fun {t f} hvar h => by
      cases t with
      | var v => exact absurd rfl (hvar v)
      | _ => trivial }

theorem hereditary_within (C : Nat → Prop) : Hereditary C lo (Within C) :=
  hereditary_allVars (fun _ h => h) fun _ _ h _ _ => h

theorem allVars_iff {N : TypeVar → Prop} {t : Ty} : AllVars N t ↔ ∀ v ∈ t.vars, N v := by
  refine ⟨fun h v hv => everywhere_var.1 (h.vars hv), fun h => ?_⟩
  induction t using induct with
  | var v => exact .var (h v (by simp [vars]))
  | const name => exact .const trivial
  | app head args ihHead ihArgs =>
    simp only [vars, varsList_eq, List.mem_append, List.mem_flatMap] at h
    exact .app trivial (ihHead fun v hv => h v (.inl hv))
      fun t ht => ihArgs t ht fun v hv => h v (.inr ⟨t, ht, hv⟩)
  | func params result ihParams ihResult =>
    simp only [vars, varsList_eq, List.mem_append, List.mem_flatMap] at h
    exact .func trivial (fun t ht => ihParams t ht fun v hv => h v (.inl ⟨t, ht, hv⟩))
      (ihResult fun v hv => h v (.inr hv))
  | record fields ih =>
    simp only [vars, varsFields_eq, List.mem_flatMap] at h
    exact .record trivial fun field hf => ih field hf fun v hv => h v ⟨field, hf, hv⟩
  | tuple elements ih =>
    simp only [vars, varsList_eq, List.mem_flatMap] at h
    exact .tuple trivial fun t ht => ih t ht fun v hv => h v ⟨t, ht, hv⟩

theorem within_iff {C : Nat → Prop} {t : Ty} : Within C t ↔ ∀ v ∈ t.vars, C v.id :=
  allVars_iff

end Polytype.Ty
