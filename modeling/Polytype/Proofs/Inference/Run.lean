import Polytype.Inference.Expr

namespace Polytype.Infer

theorem run_bind_ok {ε σ α β : Type} {m : EStateM ε σ α} {f : α → EStateM ε σ β} {p q : σ} {a : α}
    (h : m p = .ok a q) : (m >>= f) p = f a q := by
  change EStateM.bind m f p = f a q
  unfold EStateM.bind
  rw [h]

theorem run_bind_error {ε σ α β : Type} {m : EStateM ε σ α} {f : α → EStateM ε σ β} {p q : σ} {e : ε}
    (h : m p = .error e q) : (m >>= f) p = .error e q := by
  change EStateM.bind m f p = .error e q
  unfold EStateM.bind
  rw [h]

theorem get_bind {ε σ α : Type} (f : σ → EStateM ε σ α) (p : σ) : (get >>= f) p = f p p := rfl

theorem exists_of_bind {ε σ α β : Type} {m : EStateM ε σ α} {f : α → EStateM ε σ β} {p p' : σ}
    {b : β} (h : (m >>= f) p = .ok b p') : ∃ a q, m p = .ok a q ∧ f a q = .ok b p' := by
  change EStateM.bind m f p = .ok b p' at h
  unfold EStateM.bind at h
  cases hm : m p with
  | ok a q => exact ⟨a, q, rfl, by rwa [hm] at h⟩
  | error e q => simp [hm] at h

theorem drawnSoFar_bind {α : Type} (f : Nat → Infer α) (p : Progress) :
    (drawnSoFar >>= f) p = f p.next p := rfl

theorem getSubst_bind {α : Type} (f : Subst → Infer α) (p : Progress) :
    (getSubst >>= f) p = f p.subst p := rfl

theorem run_resolved_bind {α : Type} (t : Ty) (f : Ty → Infer α) (p : Progress) :
    (resolved t >>= f) p = f (p.subst.apply t) p := rfl

theorem exists_run_of_any {α : Type} {m : Infer α} {p : Progress} {P : α → Bool}
    (h : (m.run' p).any P = true) : ∃ a p', m p = .ok a p' ∧ P a = true := by
  unfold EStateM.run' EStateM.run at h
  cases hm : m p with
  | ok a p' => exact ⟨a, p', rfl, by simpa [hm] using h⟩
  | error e p' => simp [hm] at h

theorem exists_error_of_isNone {α : Type} {m : Infer α} {p : Progress}
    (h : (m.run' p).isNone = true) : ∃ e p', m p = .error e p' := by
  unfold EStateM.run' EStateM.run at h
  cases hm : m p with
  | ok a p' => simp [hm] at h
  | error e p' => exact ⟨e, p', rfl⟩

def Returns {ε σ α : Type} (m : EStateM ε σ α) (P : α → Prop) : Prop :=
  ∀ p a p', m p = .ok a p' → P a

section Returns

variable {ε σ α β : Type} {P : α → Prop}

theorem Returns.pure {a : α} (h : P a) : Returns (pure a : EStateM ε σ α) P := by
  rintro p b p' hrun
  obtain ⟨rfl, -⟩ := EStateM.Result.ok.inj (hrun : EStateM.Result.ok a p = .ok b p')
  exact h

theorem Returns.bind {m : EStateM ε σ α} {f : α → EStateM ε σ β} {Q : β → Prop}
    (h : Returns m P) (hf : ∀ a, P a → Returns (f a) Q) : Returns (m >>= f) Q := by
  intro p b p' hrun
  obtain ⟨a, q, hm, hrun⟩ := exists_of_bind hrun
  exact hf a (h p a q hm) q b p' hrun

theorem Returns.after {m : EStateM ε σ α} {f : α → EStateM ε σ β} {Q : β → Prop}
    (hf : ∀ a, Returns (f a) Q) : Returns (m >>= f) Q :=
  Returns.bind (fun _ _ _ _ => trivial) fun a _ => hf a

theorem Returns.and {m : EStateM ε σ α} {Q : α → Prop} (h : Returns m P) (h' : Returns m Q) :
    Returns m fun a => P a ∧ Q a :=
  fun p a p' hrun => ⟨h p a p' hrun, h' p a p' hrun⟩

theorem Returns.mono {m : EStateM ε σ α} {Q : α → Prop} (h : Returns m P)
    (imp : ∀ a, P a → Q a) : Returns m Q :=
  fun p a p' hrun => imp a (h p a p' hrun)

end Returns

theorem returns_fail {α : Type} {P : α → Prop} {cause : Cause} {span : Span} {hint : Option Hint}
    {related : List Span} : Returns (fail cause span hint related : Infer α) P := by
  intro p a q run
  cases run

theorem returns_resolving {α : Type} {names : Assoc String Ty} {x : Resolve α} {P : α → Prop}
    (h : Returns x P) : Returns (resolving names x) P := by
  intro p a q run
  unfold resolving at run
  cases hx : x ⟨p.next, names⟩ with
  | ok b scope =>
    simp only [hx, EStateM.Result.ok.injEq] at run
    exact run.1 ▸ h _ b scope hx
  | error e scope => simp [hx] at run

theorem returns_groupTypes (env : Env) (level : Nat) (members : List GroupBinding) :
    Returns (groupTypes env level members) fun types => types.length = members.length := by
  induction members with
  | nil => exact .pure rfl
  | cons member members ih =>
    exact .after fun t => .bind ih fun types htypes => .pure (by simp [htypes])

/-! ## Expressions that fit types -/

theorem elements_eq_arguments (env : Env) (level : Nat) (element : Ty) {es : List Expr} {count : Nat}
    (enough : es.length ≤ count) :
    elements env level element es = arguments env level es (List.replicate count element) := by
  induction es generalizing count with
  | nil =>
    rw [elements]
    unfold arguments
    rfl
  | cons e es ih =>
    obtain ⟨count, rfl⟩ : ∃ rest, count = rest + 1 := ⟨count - 1, by simp at enough; omega⟩
    rw [elements, List.replicate_succ, arguments]
    simp only [ih (Nat.le_of_succ_le_succ enough)]

theorem elements_eq (env : Env) (level : Nat) (element : Ty) (es : List Expr) :
    elements env level element es = arguments env level es (List.replicate es.length element) :=
  elements_eq_arguments env level element (Nat.le_refl _)

theorem members_eq (scope : Env) (level : Nat) (bindings : List GroupBinding) (types : List Ty) :
    members scope level bindings types =
      arguments scope (level + 1) (bindings.map (·.value)) types := by
  induction bindings generalizing types with
  | nil =>
    unfold members arguments
    rfl
  | cons b bindings ih =>
    obtain ⟨name, written, value, span⟩ := b
    rw [List.map_cons]
    unfold members arguments
    cases types with
    | nil => rfl
    | cons t types => simp only [ih]

/-! ## Schemes -/

def settle (env : Env) (level : Nat) (name : Ident) (value : Expr) (bound : Ty) : Infer Scheme := do
  if value.isValue env then
    closeRecords level bound value.span
  let σ ← schemeOf env level bound (value.isValue env)
  if !σ.isPolymorphic then
    lower level bound
  log (.inferred name.name σ)
  return σ

end Polytype.Infer
