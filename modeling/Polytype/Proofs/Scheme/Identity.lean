import Mathlib
import Polytype.Proofs.Ty.Text
import Polytype.Scheme

namespace Polytype

open Text

namespace Ty

/-! ## Variables by their texts -/

def spell (f : Nat → String) (t : Ty) : Ty := t.subst fun id => const (f id)

def Spelling (f : Nat → String) : Prop :=
  ∀ id, Word (f id).toList ∧ (f id).toList.head? = some '\x27'

theorem renderWith_subst (showVar : Nat → String) (θ : Nat → Ty) (t : Ty) :
    (t.subst θ).renderWith showVar = t.renderWith fun id => (θ id).renderWith showVar := by
  induction t using induct with
  | var v => simp [renderWith]
  | const name => rfl
  | app head args ihHead ihArgs =>
    simp only [subst_app, renderWith, renderListWith_eq, List.map_map, Function.comp_def, ihHead]
    rw [List.map_congr_left ihArgs]
  | func params result ihParams ihResult =>
    simp only [subst_func, renderWith, renderListWith_eq, List.map_map, Function.comp_def, ihResult]
    rw [List.map_congr_left ihParams]
  | record fields ih =>
    simp only [subst_record, renderWith, renderFieldsWith_eq, List.map_map]
    rw [List.map_congr_left fun field hf => by rw [Function.comp_apply, ih field hf]]
  | tuple elements ih =>
    simp only [subst_tuple, renderWith, renderListWith_eq, List.map_map, Function.comp_def]
    rw [List.map_congr_left ih]

theorem render_spell (f : Nat → String) (t : Ty) : (t.spell f).render = t.renderWith f :=
  renderWith_subst _ _ t

theorem renderWith_congr {f g : Nat → String} {t : Ty} (h : ∀ v ∈ t.vars, f v.id = g v.id) :
    t.renderWith f = t.renderWith g := by
  have same : t.spell f = t.spell g := subst_congr fun v hv => by rw [h v hv]
  rw [← render_spell, ← render_spell, same]

theorem renderWith_erase (f : Nat → String) (t : Ty) : t.erase.renderWith f = t.renderWith f :=
  renderWith_subst f ofId t

theorem Legible.spelled {f : Nat → String} (hf : Spelling f) {t : Ty} (h : t.Legible) :
    (t.spell f).Spelled := by
  unfold spell
  induction h with
  | var => exact .const (hf _).1
  | const hname => exact .const hname.1
  | @app head args node hhead hargs ihHead ihArgs =>
    cases hhead with
    | const hname =>
      rw [subst_app]
      refine .app trivial ihHead fun u hu => ?_
      obtain ⟨t, ht, rfl⟩ := List.mem_map.1 hu
      exact ihArgs t ht
    | _ => exact node.elim
  | func _ _ _ ihParams ihResult =>
    rw [subst_func]
    refine .func trivial (fun u hu => ?_) ihResult
    obtain ⟨t, ht, rfl⟩ := List.mem_map.1 hu
    exact ihParams t ht
  | @record fields node _ ih =>
    rw [subst_record]
    refine .record (fun other ho => ?_) fun other ho => ?_
    · obtain ⟨field, hf, rfl⟩ := List.mem_map.1 ho
      exact (node field hf).1
    · obtain ⟨field, hf, rfl⟩ := List.mem_map.1 ho
      exact ih field hf
  | tuple _ _ ih =>
    rw [subst_tuple]
    refine .tuple trivial fun u hu => ?_
    obtain ⟨t, ht, rfl⟩ := List.mem_map.1 hu
    exact ih t ht

section Spell

variable {f g : Nat → String} {t u : Ty}

theorem spell_eq_of_renderWith (hf : Spelling f) (hg : Spelling g) (ht : t.Legible) (hu : u.Legible)
    (h : t.renderWith f = u.renderWith g) : t.spell f = u.spell g := by
  have texts : (t.spell f).text ++ [] = (u.spell g).text ++ [] := by
    rw [text, text, render_spell, render_spell, h]
  exact ((ht.spelled hf).tells _ [] [] (hu.spelled hg) (.inl rfl) (.inl rfl) texts).1

/-- If both types are equal by the texts of their variables, then replacing variables by those
with the same text makes the one the other. -/
theorem subst_eq_of_spell (hf : Spelling f) (hg : Spelling g) (ht : t.Legible) (hu : u.Legible)
    (h : t.spell f = u.spell g) {θ : Nat → Ty}
    (hθ : ∀ v ∈ t.vars, ∀ w ∈ u.vars, f v.id = g w.id → θ v.id = ofId w.id) :
    t.subst θ = u.erase := by
  -- The items of two lists correspond one to one.
  have items {α β γ δ : Type} {F : α → γ} {G : β → γ} {F' : α → δ} {G' : β → δ} {as : List α}
      {bs : List β} (h : as.map F = bs.map G)
      (ih : ∀ a ∈ as, ∀ b ∈ bs, F a = G b → F' a = G' b) : as.map F' = bs.map G' := by
    induction as generalizing bs with
    | nil => cases bs <;> simp_all
    | cons a as ihList =>
      cases bs with
      | nil => simp at h
      | cons b bs =>
        obtain ⟨first, others⟩ := List.cons.inj h
        rw [List.map_cons, List.map_cons, ih a (by simp) b (by simp) first,
          ihList others fun a ha b hb => ih a (by simp [ha]) b (by simp [hb])]
  have apart {name : String} (hname : Identifier name) {f : Nat → String} (hf : Spelling f)
      (id : Nat) : f id ≠ name := fun same => hname.2 (same ▸ (hf id).2)
  induction ht generalizing u with
  | @var v =>
    cases hu with
    | @var w => exact hθ v (by simp [vars]) w (by simp [vars]) (const.inj h)
    | const hname => exact absurd (const.inj h) (apart hname hf v.id)
    | _ => simp [spell] at h
  | @const name hname =>
    cases hu with
    | @var w => exact absurd (const.inj h).symm (apart hname hg w.id)
    | const => exact h
    | _ => simp [spell] at h
  | @app head args _ _ _ ihHead ihArgs =>
    cases hu with
    | @app head' args' _ hhead' hargs' =>
      simp only [vars, varsList_eq, List.mem_append, List.mem_flatMap] at hθ
      simp only [spell, subst_app, app.injEq] at h
      rw [subst_app, erase_app,
        ihHead hhead' h.1 fun v hv w hw => hθ v (.inl hv) w (.inl hw),
        items h.2 fun t ht u hu same => ihArgs t ht (hargs' u hu) same
          fun v hv w hw => hθ v (.inr ⟨t, ht, hv⟩) w (.inr ⟨u, hu, hw⟩)]
    | _ => simp [spell] at h
  | @func params result _ _ _ ihParams ihResult =>
    cases hu with
    | @func params' result' _ hparams' hresult' =>
      simp only [vars, varsList_eq, List.mem_append, List.mem_flatMap] at hθ
      simp only [spell, subst_func, func.injEq] at h
      rw [subst_func, erase_func,
        ihResult hresult' h.2 fun v hv w hw => hθ v (.inr hv) w (.inr hw),
        items h.1 fun t ht u hu same => ihParams t ht (hparams' u hu) same
          fun v hv w hw => hθ v (.inl ⟨t, ht, hv⟩) w (.inl ⟨u, hu, hw⟩)]
    | _ => simp [spell] at h
  | @record fields _ _ ih =>
    cases hu with
    | @record fields' _ hfields' =>
      simp only [vars, varsFields_eq, List.mem_flatMap] at hθ
      simp only [spell, subst_record, record.injEq] at h
      rw [subst_record, erase_record, items h fun field hf other ho same => ?_]
      obtain ⟨names, types⟩ := Prod.mk.inj same
      rw [names, ih field hf (hfields' other ho) types
        fun v hv w hw => hθ v ⟨field, hf, hv⟩ w ⟨other, ho, hw⟩]
    | _ => simp [spell] at h
  | @tuple elements _ _ ih =>
    cases hu with
    | @tuple elements' _ helements' =>
      simp only [vars, varsList_eq, List.mem_flatMap] at hθ
      simp only [spell, subst_tuple, tuple.injEq] at h
      rw [subst_tuple, erase_tuple,
        items h fun t ht u hu same => ih t ht (helements' u hu) same
          fun v hv w hw => hθ v ⟨t, ht, hv⟩ w ⟨u, hu, hw⟩]
    | _ => simp [spell] at h

end Spell

/-! ## Types outside schemes -/

theorem word_repr (n : Nat) : Word (toString n).toList := by
  have digits : (toString n).toList = Nat.toDigits 10 n := Nat.toList_repr
  rw [digits]
  refine ⟨Nat.toDigits_ne_nil, fun c hc => Bool.eq_false_iff.2 fun hmark => ?_⟩
  have digit : c.isDigit = true := Nat.isDigit_of_mem_toDigits (by decide) (by decide) hc
  simp only [mark, List.mem_cons, List.not_mem_nil, or_false, decide_eq_true_eq] at hmark
  rcases hmark with rfl | rfl | rfl | rfl | rfl | rfl | rfl | rfl | rfl | rfl <;>
    simp [Char.isDigit] at digit

theorem spelling_ids : Spelling fun id => "'t" ++ toString id := by
  intro id
  refine ⟨⟨by simp, fun c hc => ?_⟩, by simp⟩
  rw [String.toList_append, List.mem_append] at hc
  rcases hc with hc | hc
  · have mem : c ∈ ['\x27', 't'] := hc
    simp only [List.mem_cons, List.not_mem_nil, or_false] at mem
    rcases mem with rfl | rfl <;> rfl
  · exact (word_repr id).2 c hc

theorem render_eq_iff {t u : Ty} (ht : t.Legible) (hu : u.Legible) :
    t.render = u.render ↔ t.same u = true := by
  rw [same_iff]
  constructor
  · intro h
    refine subst_eq_of_spell spelling_ids spelling_ids ht hu
      (spell_eq_of_renderWith spelling_ids spelling_ids ht hu h) fun v _ w _ texts => ?_
    have ids : toString v.id = toString w.id := by simpa using texts
    rw [Nat.repr_inj.1 ids]
  · intro h
    rw [render, ← renderWith_erase, h, renderWith_erase]
    rfl

end Ty

open Ty

namespace Scheme

/-! ## Letters -/

def round (index : Nat) : List Char := if index / 26 = 0 then [] else (toString (index / 26)).toList

theorem toList_letter (index : Nat) :
    (letter index).toList = Char.ofNat (97 + index % 26) :: round index := by
  unfold letter round
  split <;> simp

theorem letter_injective : Function.Injective letter := by
  intro i j h
  have texts := congrArg String.toList h
  rw [toList_letter, toList_letter] at texts
  obtain ⟨first, rounds⟩ := List.cons.inj texts
  have remainders : i % 26 = j % 26 := by
    have distinct : ∀ k < 26, ∀ l < 26, Char.ofNat (97 + k) = Char.ofNat (97 + l) → k = l := by
      decide
    exact distinct _ (Nat.mod_lt i (by decide)) _ (Nat.mod_lt j (by decide)) first
  have quotients : i / 26 = j / 26 := by
    have nonempty (n : Nat) : (toString n).toList ≠ [] := (word_repr n).1
    unfold round at rounds
    split at rounds <;> split at rounds
    · omega
    · exact absurd rounds.symm (nonempty _)
    · exact absurd rounds (nonempty _)
    · exact Nat.repr_inj.1 (String.toList_inj.1 rounds)
  omega

theorem word_letter (index : Nat) : Word (letter index).toList := by
  rw [toList_letter]
  refine ⟨by simp, fun c hc => ?_⟩
  rcases List.mem_cons.1 hc with rfl | hc
  · have plain : ∀ k < 26, mark (Char.ofNat (97 + k)) = false := by decide
    exact plain _ (Nat.mod_lt index (by decide))
  · unfold round at hc
    split at hc
    · simp at hc
    · exact (word_repr _).2 c hc

theorem names_eq (σ : Scheme) :
    σ.names = Assoc.ofList (σ.vars.zipIdx.map fun entry => (entry.1.id, letter entry.2)) := rfl

theorem spelling_names (σ : Scheme) : Spelling (showVar σ.names) := by
  intro id
  unfold showVar
  split
  · rename_i name hname
    rw [names_eq] at hname
    have entry : (id, name) ∈ σ.vars.zipIdx.map fun entry => (entry.1.id, letter entry.2) := by
      rcases Assoc.mem_of_mem_insertAll (Assoc.mem_of_get? hname) with h | h
      · exact h
      · simp at h
    obtain ⟨⟨v, index⟩, -, heq⟩ := List.mem_map.1 entry
    obtain ⟨-, rfl⟩ := Prod.mk.inj heq
    refine ⟨⟨by simp, fun c hc => ?_⟩, by simp⟩
    rw [String.toList_append, List.mem_append] at hc
    rcases hc with hc | hc
    · obtain rfl : c = '\x27' := List.mem_singleton.1 hc
      rfl
    · exact (word_letter index).2 c hc
  · exact spelling_ids id

/-! ## Closed schemes -/

/-- The quantified variables are distinct, and there are no others. -/
structure Closed (σ : Scheme) : Prop where
  distinct : (σ.vars.map (·.id)).Nodup
  covers : ∀ v ∈ σ.ty.vars, σ.binds v.id = true

/-- What stands in `τ` for a variable of `σ`: the `i`-th quantified variable of `τ` for the `i`-th
of `σ`. -/
def counterpart (σ τ : Scheme) (id : Nat) : Ty :=
  (Assoc.get? ((σ.vars.map (·.id)).zip (τ.vars.map Ty.var)) id).getD (ofId id)

section

variable {σ τ : Scheme}

theorem Closed.position (hσ : σ.Closed) {v : TypeVar} (hv : v ∈ σ.ty.vars) :
    ∃ i : Nat, (σ.vars.map (·.id))[i]? = some v.id := by
  obtain ⟨w, hw, same⟩ := List.any_eq_true.1 (hσ.covers v hv)
  exact List.mem_iff_getElem?.1 (List.mem_map.2 ⟨w, hw, beq_iff_eq.1 same⟩)

theorem Closed.showVar_eq (hσ : σ.Closed) {i id : Nat}
    (h : (σ.vars.map (·.id))[i]? = some id) : showVar σ.names id = "'" ++ letter i := by
  have keys : Assoc.keys (σ.vars.zipIdx.map fun entry => (entry.1.id, letter entry.2)) =
      σ.vars.map (·.id) := by
    conv_rhs => rw [← List.zipIdx_map_fst 0 σ.vars, List.map_map]
    simp [Assoc.keys, Function.comp_def]
  have entry : (id, letter i) ∈ σ.vars.zipIdx.map fun entry => (entry.1.id, letter entry.2) := by
    rw [List.getElem?_map, Option.map_eq_some_iff] at h
    obtain ⟨v, hv, rfl⟩ := h
    exact List.mem_map.2 ⟨(v, i), List.mem_zipIdx_iff_getElem?.2 hv, rfl⟩
  have found : σ.names.get? id = some (letter i) := by
    rw [names_eq, Assoc.ofList, Assoc.get?_insertAll_of_nodup (keys ▸ hσ.distinct),
      Assoc.get?_of_mem (keys ▸ hσ.distinct) entry, Option.some_or]
  simp [showVar, found]

theorem Closed.counterpart_eq (hσ : σ.Closed) (lengths : σ.vars.length = τ.vars.length)
    {i id : Nat} (h : (σ.vars.map (·.id))[i]? = some id) :
    ∃ w, τ.vars[i]? = some w ∧ σ.counterpart τ id = Ty.var w := by
  obtain ⟨hi, -⟩ := List.getElem?_eq_some_iff.1 h
  have hi : i < τ.vars.length := by simpa [lengths] using hi
  refine ⟨τ.vars[i], List.getElem?_eq_getElem hi, ?_⟩
  have distinct : (Assoc.keys ((σ.vars.map (·.id)).zip (τ.vars.map Ty.var))).Nodup := by
    rw [Assoc.keys, List.map_fst_zip (by simp [lengths])]
    exact hσ.distinct
  have entry : (id, Ty.var τ.vars[i]) ∈ (σ.vars.map (·.id)).zip (τ.vars.map Ty.var) := by
    refine List.mem_iff_getElem?.2 ⟨i, ?_⟩
    simp [List.getElem?_zip_eq_some, h, List.getElem?_eq_getElem hi]
  rw [counterpart, Assoc.get?_of_mem distinct entry, Option.getD_some]

theorem renderWith_names_iff (hσ : σ.Closed) (hτ : τ.Closed) (hσty : σ.ty.Legible)
    (hτty : τ.ty.Legible) (lengths : σ.vars.length = τ.vars.length) :
    σ.ty.renderWith (showVar σ.names) = τ.ty.renderWith (showVar τ.names) ↔
      (σ.ty.subst (σ.counterpart τ)).same τ.ty = true := by
  rw [same_iff]
  constructor
  · intro h
    rw [erase_subst]
    refine subst_eq_of_spell (spelling_names σ) (spelling_names τ) hσty hτty
      (spell_eq_of_renderWith (spelling_names σ) (spelling_names τ) hσty hτty h)
      fun v hv w hw texts => ?_
    obtain ⟨i, hi⟩ := hσ.position hv
    obtain ⟨j, hj⟩ := hτ.position hw
    rw [hσ.showVar_eq hi, hτ.showVar_eq hj] at texts
    obtain rfl : i = j := letter_injective (by simpa using texts)
    obtain ⟨w', hw', same⟩ := hσ.counterpart_eq lengths hi
    have ids : w'.id = w.id := by simpa [hw'] using hj
    rw [same, erase_var, ids]
  · intro h
    calc σ.ty.renderWith (showVar σ.names)
        = σ.ty.renderWith fun id => (σ.counterpart τ id).renderWith (showVar τ.names) := by
          refine renderWith_congr fun v hv => ?_
          obtain ⟨i, hi⟩ := hσ.position hv
          obtain ⟨w, hw, same⟩ := hσ.counterpart_eq lengths hi
          rw [hσ.showVar_eq hi, same, renderWith, hτ.showVar_eq (i := i) (by simp [hw])]
      _ = (σ.ty.subst (σ.counterpart τ)).renderWith (showVar τ.names) :=
          (renderWith_subst _ _ _).symm
      _ = τ.ty.renderWith (showVar τ.names) := by rw [← renderWith_erase, h, renderWith_erase]

/-! ## Quantifiers -/

theorem Closed.map_showVar (hσ : σ.Closed) :
    σ.vars.map (fun v => showVar σ.names v.id) =
      (List.range σ.vars.length).map fun i => "'" ++ letter i := by
  refine List.ext_getElem (by simp) fun i hi _ => ?_
  rw [List.length_map] at hi
  have position : (σ.vars.map (·.id))[i]? = some σ.vars[i].id := by simp [hi]
  simp [hσ.showVar_eq position]

theorem words_tell {texts others : List String} {x x' : List Char}
    (htexts : ∀ text ∈ texts, Word text.toList) (hothers : ∀ text ∈ others, Word text.toList)
    (h : listed String.toList [' '] texts ++ '.' :: x =
      listed String.toList [' '] others ++ '.' :: x') : texts = others ∧ x = x' := by
  have ends (x : List Char) : Ends String.toList [' '] (fun text => Word text.toList) Marked
      ('.' :: x) := by
    refine ⟨by simp [Marked, mark], fun y h => by simp at h, fun text y hword h => ?_⟩
    obtain ⟨c, z, hz⟩ := List.exists_cons_of_ne_nil hword.1
    rw [hz] at h
    obtain ⟨rfl, -⟩ := List.cons.inj h
    simpa [mark] using hword.2 '.' (by simp [hz])
  obtain ⟨same, rest⟩ := listed_tells (fun y => by simp [Marked, mark])
    (fun text ht => ⟨htexts text ht, fun other r r' hother hr hr' h => by
      obtain ⟨same, rest⟩ := (htexts text ht).tells hother hr hr' h
      exact ⟨String.toList_inj.1 same, rest⟩⟩) hothers (ends x) (ends x') h
  exact ⟨same, (List.cons.inj rest).2⟩

theorem render_mono (h : σ.vars = []) : σ.render = σ.ty.renderWith (showVar σ.names) := by
  have poly : σ.isPolymorphic = false := by simp [isPolymorphic, h]
  have names : σ.names = [] := by simp [names, h, Assoc.ofList, Assoc.insertAll]
  simp only [render, poly, names]
  rfl

theorem toList_render (h : σ.vars ≠ []) : σ.render.toList = "forall".toList ++ ' ' ::
    (listed String.toList [' '] (σ.vars.map fun v => showVar σ.names v.id) ++
      '.' :: ' ' :: (σ.ty.renderWith (showVar σ.names)).toList) := by
  have poly : σ.isPolymorphic = true := by simp [isPolymorphic, h]
  simp [render, poly, toList_separated]

theorem render_ne (hσ : σ.vars = []) (hσty : σ.ty.Legible) (hτ : τ.vars ≠ []) :
    σ.render ≠ τ.render := by
  intro h
  obtain ⟨x, hx⟩ : ∃ x, τ.render.toList = "forall".toList ++ ' ' :: x := ⟨_, toList_render hτ⟩
  have texts : "forall".toList ++ ' ' :: x = (σ.ty.spell (showVar σ.names)).text ++ [] := by
    rw [List.append_nil, text, render_spell, ← render_mono hσ, h, hx]
  have word : Word "forall".toList := ⟨by simp, by simp [mark]⟩
  rcases named_tells word (hσty.spelled (spelling_names σ)) (by simp [Marked, mark]) (.inl rfl)
    texts with ⟨-, rest⟩ | ⟨args, -, rest⟩
  · simp at rest
  · simp at rest

theorem render_eq_iff (hσ : σ.Closed) (hτ : τ.Closed) (hσty : σ.ty.Legible)
    (hτty : τ.ty.Legible) :
    σ.render = τ.render ↔
      σ.vars.length = τ.vars.length ∧ (σ.ty.subst (σ.counterpart τ)).same τ.ty = true := by
  have bodies := renderWith_names_iff hσ hτ hσty hτty
  by_cases hσvars : σ.vars = [] <;> by_cases hτvars : τ.vars = []
  · have lengths : σ.vars.length = τ.vars.length := by rw [hσvars, hτvars]
    rw [render_mono hσvars, render_mono hτvars, bodies lengths, and_iff_right lengths]
  · refine iff_of_false (render_ne hσvars hσty hτvars) fun h => hτvars ?_
    exact List.eq_nil_of_length_eq_zero (by rw [← h.1, hσvars]; rfl)
  · refine iff_of_false (render_ne hτvars hτty hσvars).symm fun h => hσvars ?_
    exact List.eq_nil_of_length_eq_zero (by rw [h.1, hτvars]; rfl)
  · have words (σ : Scheme) : ∀ text ∈ σ.vars.map fun v => showVar σ.names v.id,
        Word text.toList := by
      intro text htext
      obtain ⟨v, -, rfl⟩ := List.mem_map.1 htext
      exact (spelling_names σ v.id).1
    rw [← String.toList_inj, toList_render hσvars, toList_render hτvars]
    constructor
    · intro h
      obtain ⟨texts, rest⟩ := words_tell (words σ) (words τ)
        (List.cons.inj (List.append_cancel_left h)).2
      have lengths : σ.vars.length = τ.vars.length := by simpa using congrArg List.length texts
      exact ⟨lengths, (bodies lengths).1 (String.toList_inj.1 (List.cons.inj rest).2)⟩
    · rintro ⟨lengths, h⟩
      rw [hσ.map_showVar, hτ.map_showVar, lengths, (bodies lengths).2 h]

end

/-- The texts of closed schemes are equal exactly if the schemes quantify equally many variables and
putting the quantified variables of the one, by position, in place of those of the other makes the
bodies the same. The texts of types are equal exactly if the types are the same. -/
theorem render_identifies :
    (∀ σ τ : Scheme, σ.Closed → τ.Closed → σ.ty.Legible → τ.ty.Legible →
      (σ.render = τ.render ↔
        σ.vars.length = τ.vars.length ∧ (σ.ty.subst (σ.counterpart τ)).same τ.ty = true)) ∧
    ∀ t u : Ty, t.Legible → u.Legible → (t.render = u.render ↔ t.same u = true) :=
  ⟨fun _ _ => render_eq_iff, fun _ _ => Ty.render_eq_iff⟩

/-- The scheme `forall 'a 'b. ('a, List<'b>) -> { entry_1: ('b, 'a) }`. -/
def pairing (a b : TypeVar) : Scheme :=
  ⟨[a, b], .func [.var a, .list (.var b)] (.record [("entry_1", .tuple [.var b, .var a])])⟩

theorem render_pairing_swap :
    (pairing ⟨7, 1⟩ ⟨3, 1⟩).render = (pairing ⟨3, 2⟩ ⟨7, 1⟩).render ∧
      (pairing ⟨7, 1⟩ ⟨3, 1⟩).ty.render ≠ (pairing ⟨3, 2⟩ ⟨7, 1⟩).ty.render := by
  have closed {a b : TypeVar} (h : a.id ≠ b.id) : (pairing a b).Closed :=
    ⟨by simp [pairing, h], by simp [pairing, Ty.vars, varsList, varsFields, binds]⟩
  have name : Identifier "List" := identifier_of_alphanum (by decide) (by simp)
  have field : Identifier "entry_1" := identifier_of_alphanum (by decide) (by simp)
  have legible (a b : TypeVar) : (pairing a b).ty.Legible := by
    simp [pairing, LegibleNode, name, field]
  constructor
  · exact (render_identifies.1 _ _ (closed (by decide)) (closed (by decide)) (legible _ _)
      (legible _ _)).2 ⟨rfl, by decide⟩
  · rw [Ne, render_identifies.2 _ _ (legible _ _) (legible _ _)]
    decide

end Scheme

end Polytype
