import Mathlib.Data.List.Basic
import Polytype.Proofs.Ty.Hereditary
import Polytype.Ty.Printer

/-!
# What the text of a type tells

In a type whose names are identifiers and whose applications are headed by names, every part can be
told from the text: a name ends where a mark stands, a list ends where its bracket closes, and what
stands in parentheses is a list of parameters if and only if an arrow follows. So of two texts that
start with a type and go on in one of the ways a text can go on after a type, the types and what
follows them are equal if the texts are (`Spelled.tells`).
-/

namespace Polytype

namespace Text

/-! ## Words -/

def mark (c : Char) : Bool := c ∈ [' ', ',', ':', '.', '<', '>', '(', ')', '\x7b', '\x7d']

def Word (w : List Char) : Prop := w ≠ [] ∧ ∀ c ∈ w, mark c = false

def Marked (r : List Char) : Prop := ∀ c, r.head? = some c → mark c = true

theorem Word.tells {w w' r r' : List Char} (hw : Word w) (hw' : Word w') (hr : Marked r)
    (hr' : Marked r') (h : w ++ r = w' ++ r') : w = w' ∧ r = r' := by
  have front {w r : List Char} (hw : Word w) (hr : Marked r) :
      (w ++ r).takeWhile (fun c => !mark c) = w := by
    have stop : r.takeWhile (fun c => !mark c) = [] := by
      cases r with
      | nil => rfl
      | cons c r => rw [List.takeWhile_cons, hr c rfl]; rfl
    rw [List.takeWhile_append_of_pos fun c hc => by simp [hw.2 c hc], stop, List.append_nil]
  have same : w = w' := by rw [← front hw hr, h, front hw' hr']
  exact ⟨same, List.append_cancel_left (same ▸ h)⟩

def Identifier (name : String) : Prop := Word name.toList ∧ name.toList.head? ≠ some '\x27'

theorem identifier_of_alphanum {name : String} (nonempty : name ≠ "")
    (h : ∀ c ∈ name.toList, c.isAlphanum = true ∨ c = '_') : Identifier name := by
  have plain (c : Char) (hc : c.isAlphanum = true ∨ c = '_') : mark c = false ∧ c ≠ '\x27' := by
    refine ⟨Bool.eq_false_iff.2 fun hmark => ?_, fun apostrophe => ?_⟩
    · simp only [mark, List.mem_cons, List.not_mem_nil, or_false, decide_eq_true_eq] at hmark
      rcases hmark with rfl | rfl | rfl | rfl | rfl | rfl | rfl | rfl | rfl | rfl <;>
        revert hc <;> decide
    · subst apostrophe
      revert hc
      decide
  refine ⟨⟨fun empty => nonempty (String.toList_inj.1 empty), fun c hc => (plain c (h c hc)).1⟩, ?_⟩
  intro first
  exact (plain _ (h _ (List.mem_of_mem_head? first))).2 rfl

/-! ## Lists of items -/

section Listed

variable {α : Type} {item : α → List Char} {separator : List Char}

def listed (item : α → List Char) (separator : List Char) : List α → List Char
  | [] => []
  | a :: as => item a ++ as.flatMap fun b => separator ++ item b

theorem toList_separated (separator : String) (texts : List String) :
    (separated separator texts).toList = listed String.toList separator.toList texts := by
  fun_induction separated separator texts with
  | case1 => rfl
  | case2 text => simp [listed]
  | case3 text rest hrest ih =>
    obtain ⟨next, rest, rfl⟩ := List.exists_cons_of_ne_nil hrest
    simp [ih, listed]

theorem listed_map {β : Type} (f : β → α) (bs : List β) :
    listed item separator (bs.map f) = listed (fun b => item (f b)) separator bs := by
  cases bs <;> simp [listed, List.flatMap_map]

def Tells (item : α → List Char) (P : α → Prop) (follows : List Char → Prop) (a : α) : Prop :=
  ∀ b r r', P b → follows r → follows r' → item a ++ r = item b ++ r' → a = b ∧ r = r'

/-- What ends a list: it may follow an item, but starts neither like a separator nor like an item. -/
structure Ends (item : α → List Char) (separator : List Char) (P : α → Prop)
    (follows : List Char → Prop) (r : List Char) : Prop where
  follows : follows r
  separator : ∀ x, r ≠ separator ++ x
  item : ∀ a x, P a → r ≠ item a ++ x

theorem listed_tells {P : α → Prop} {follows : List Char → Prop}
    (separated : ∀ x, follows (separator ++ x)) {as bs : List α}
    (has : ∀ a ∈ as, P a ∧ Tells item P follows a) (hbs : ∀ b ∈ bs, P b) {r r' : List Char}
    (hr : Ends item separator P follows r) (hr' : Ends item separator P follows r')
    (h : listed item separator as ++ r = listed item separator bs ++ r') : as = bs ∧ r = r' := by
  -- What follows the first item is the end, or a separator and the other items.
  let more (as : List α) (r : List Char) := (as.flatMap fun a => separator ++ item a) ++ r
  have going (as : List α) {r : List Char} (hr : Ends item separator P follows r) :
      follows (more as r) := by
    cases as with
    | nil => exact hr.follows
    | cons a as => simpa [more] using separated _
  have further {as bs : List α} (has : ∀ a ∈ as, P a ∧ Tells item P follows a)
      (hbs : ∀ b ∈ bs, P b) (h : more as r = more bs r') : as = bs ∧ r = r' := by
    induction as generalizing bs with
    | nil =>
      cases bs with
      | nil => exact ⟨rfl, h⟩
      | cons b bs => exact absurd (h.trans (by simp [more])) (hr.separator (item b ++ more bs r'))
    | cons a as ih =>
      cases bs with
      | nil => exact absurd (h.symm.trans (by simp [more])) (hr'.separator (item a ++ more as r))
      | cons b bs =>
        obtain ⟨⟨-, tells⟩, has⟩ := List.forall_mem_cons.1 has
        obtain ⟨hb, hrest⟩ := List.forall_mem_cons.1 hbs
        have after : item a ++ more as r = item b ++ more bs r' := by simpa [more] using h
        obtain ⟨rfl, rest⟩ := tells b _ _ hb (going as hr) (going bs hr') after
        obtain ⟨rfl, ends⟩ := ih has hrest rest
        exact ⟨rfl, ends⟩
  cases as with
  | nil =>
    cases bs with
    | nil => exact ⟨rfl, h⟩
    | cons b bs =>
      exact absurd (h.trans (by simp [listed, more])) (hr.item b (more bs r') (hbs b (by simp)))
  | cons a as =>
    cases bs with
    | nil =>
      exact absurd (h.symm.trans (by simp [listed, more]))
        (hr'.item a (more as r) (has a (by simp)).1)
    | cons b bs =>
      obtain ⟨⟨-, tells⟩, has⟩ := List.forall_mem_cons.1 has
      obtain ⟨hb, hrest⟩ := List.forall_mem_cons.1 hbs
      have after : item a ++ more as r = item b ++ more bs r' := by simpa [listed, more] using h
      obtain ⟨rfl, rest⟩ := tells b _ _ hb (going as hr) (going bs hr') after
      obtain ⟨rfl, ends⟩ := further has hrest rest
      exact ⟨rfl, ends⟩

end Listed

end Text

open Text

namespace Ty

/-! ## Texts of types without variables -/

def LegibleNode : Ty → Prop
  | const name => Identifier name
  | app (const _) _ => True
  | app _ _ => False
  | record fields => ∀ field ∈ fields, Identifier field.1
  | _ => True

/-- The names of types and fields are identifiers, and applications are headed by names. -/
abbrev Legible : Ty → Prop := Everywhere LegibleNode

def SpelledNode : Ty → Prop
  | var _ => False
  | const name => Word name.toList
  | app (const _) _ => True
  | app _ _ => False
  | record fields => ∀ field ∈ fields, Word field.1.toList
  | _ => True

abbrev Spelled : Ty → Prop := Everywhere SpelledNode

theorem renderListWith_eq (showVar : Nat → String) (ts : List Ty) :
    renderListWith showVar ts = ts.map (renderWith showVar) := by
  induction ts with
  | nil => rfl
  | cons t ts ih => rw [renderListWith, ih, List.map_cons]

theorem renderFieldsWith_eq (showVar : Nat → String) (fields : List (String × Ty)) :
    renderFieldsWith showVar fields =
      fields.map fun field => field.1 ++ ": " ++ field.2.renderWith showVar := by
  induction fields with
  | nil => rfl
  | cons field rest ih => rw [renderFieldsWith, ih, List.map_cons]

/-- The text of a type, as characters. -/
def text (t : Ty) : List Char := t.render.toList

def fieldText (field : String × Ty) : List Char := field.1.toList ++ ':' :: ' ' :: field.2.text

theorem toList_commas (ts : List Ty) :
    (commas (renderListWith (fun id => "'t" ++ toString id) ts)).toList =
      listed text [',', ' '] ts := by
  rw [renderListWith_eq, toList_separated, listed_map]
  rfl

theorem text_const (name : String) : (const name).text = name.toList := rfl

theorem text_app (head : Ty) (args : List Ty) :
    (app head args).text = head.text ++ '<' :: (listed text [',', ' '] args ++ ['>']) := by
  rw [← toList_commas]
  simp [text, render, renderWith]

theorem text_func (params : List Ty) (result : Ty) :
    (func params result).text =
      '(' :: (listed text [',', ' '] params ++ ')' :: ' ' :: '-' :: '>' :: ' ' :: result.text) := by
  rw [← toList_commas]
  simp [text, render, renderWith]

theorem text_tuple (elements : List Ty) :
    (tuple elements).text = '(' :: (listed text [',', ' '] elements ++ [')']) := by
  rw [← toList_commas]
  simp [text, render, renderWith]

theorem text_record_nil : (record []).text = ['\x7b', '\x7d'] := rfl

theorem text_record {fields : List (String × Ty)} (h : fields ≠ []) :
    (record fields).text =
      '\x7b' :: ' ' :: (listed fieldText [',', ' '] fields ++ [' ', '\x7d']) := by
  have items : listed String.toList [',', ' ']
      (renderFieldsWith (fun id => "'t" ++ toString id) fields) =
        listed fieldText [',', ' '] fields := by
    rw [renderFieldsWith_eq, listed_map]
    refine congrArg (fun item => listed item [',', ' '] fields) (funext fun field => ?_)
    simp [fieldText, text, render]
  obtain ⟨field, rest, rfl⟩ := List.exists_cons_of_ne_nil h
  rw [← items]
  simp [text, render, renderWith, renderFieldsWith, braced, toList_separated]

def Follows (r : List Char) : Prop :=
  r = [] ∨ (∃ x, r = ',' :: x) ∨ (∃ x, r = '>' :: x) ∨ (∃ x, r = ')' :: x) ∨
    ∃ x, r = ' ' :: '\x7d' :: x

theorem Follows.marked {r : List Char} (h : Follows r) : Marked r := by
  intro c hc
  rcases h with rfl | ⟨x, rfl⟩ | ⟨x, rfl⟩ | ⟨x, rfl⟩ | ⟨x, rfl⟩
  · simp at hc
  all_goals
    obtain rfl := Option.some.inj hc
    rfl

def opening : Ty → Option Char
  | func _ _ => some '('
  | tuple _ => some '('
  | record _ => some '\x7b'
  | _ => none

theorem Spelled.opening_eq {t : Ty} (h : t.Spelled) {c : Char} {x r : List Char}
    (htext : t.text ++ r = c :: x) : t.opening = if mark c then some c else none := by
  have plain {name : String} {y : List Char} (hname : Word name.toList)
      (h : name.toList ++ y = c :: x) : mark c = false := by
    obtain ⟨d, z, hz⟩ := List.exists_cons_of_ne_nil hname.1
    rw [hz, List.cons_append] at h
    obtain ⟨rfl, -⟩ := List.cons.inj h
    exact hname.2 d (by simp [hz])
  cases h with
  | var node => exact node.elim
  | const hname => simp [opening, plain hname htext]
  | app node hhead _ =>
    cases hhead with
    | const hname =>
      rw [text_app, text_const, List.append_assoc] at htext
      simp [opening, plain hname htext]
    | _ => exact node.elim
  | func =>
    rw [text_func, List.cons_append] at htext
    obtain ⟨rfl, -⟩ := List.cons.inj htext
    rfl
  | @record fields =>
    by_cases hempty : fields = []
    · rw [hempty, text_record_nil, List.cons_append] at htext
      obtain ⟨rfl, -⟩ := List.cons.inj htext
      rfl
    · rw [text_record hempty, List.cons_append] at htext
      obtain ⟨rfl, -⟩ := List.cons.inj htext
      rfl
  | tuple =>
    rw [text_tuple, List.cons_append] at htext
    obtain ⟨rfl, -⟩ := List.cons.inj htext
    rfl

theorem ends_types {c : Char} (hc : c = ')' ∨ c = '>') (r : List Char) :
    Ends text [',', ' '] Spelled Follows (c :: r) := by
  refine ⟨?_, fun x h => ?_, fun t x ht h => ?_⟩
  · rcases hc with rfl | rfl
    · exact .inr (.inr (.inr (.inl ⟨r, rfl⟩)))
    · exact .inr (.inr (.inl ⟨r, rfl⟩))
  · rcases hc with rfl | rfl <;> simp at h
  · have hopen := ht.opening_eq h.symm
    rcases hc with rfl | rfl <;> cases t <;> simp [opening, mark] at hopen

theorem ends_fields (r : List Char) : Ends fieldText [',', ' '] (fun field => Word field.1.toList ∧
    field.2.Spelled) Follows (' ' :: '\x7d' :: r) := by
  refine ⟨.inr (.inr (.inr (.inr ⟨r, rfl⟩))), fun x h => by simp at h, fun field x hf h => ?_⟩
  obtain ⟨c, y, hc⟩ := List.exists_cons_of_ne_nil hf.1.1
  rw [fieldText, hc] at h
  obtain ⟨rfl, -⟩ := List.cons.inj h
  simpa [mark] using hf.1.2 ' ' (by simp [hc])

section Tells

variable {r r' : List Char}

theorem types_tell {ts us : List Ty} (hts : ∀ t ∈ ts, t.Spelled ∧ Tells text Spelled Follows t)
    (hus : ∀ u ∈ us, u.Spelled) {c c' : Char} (hc : c = ')' ∨ c = '>') (hc' : c' = ')' ∨ c' = '>')
    (h : listed text [',', ' '] ts ++ c :: r = listed text [',', ' '] us ++ c' :: r') :
    ts = us ∧ r = r' := by
  obtain ⟨same, ends⟩ := listed_tells (fun x => .inr (.inl ⟨_, rfl⟩)) hts hus (ends_types hc r)
    (ends_types hc' r') h
  exact ⟨same, (List.cons.inj ends).2⟩

theorem field_tells {field : String × Ty} (hname : Word field.1.toList)
    (ht : Tells text Spelled Follows field.2) :
    Tells fieldText (fun field => Word field.1.toList ∧ field.2.Spelled) Follows field := by
  intro other r r' hother hr hr' h
  simp only [fieldText, List.append_assoc, List.cons_append] at h
  obtain ⟨names, rest⟩ := hname.tells hother.1 (by simp [Marked, mark]) (by simp [Marked, mark]) h
  obtain ⟨types, rest⟩ := ht other.2 r r' hother.2 hr hr' (by simpa using rest)
  exact ⟨Prod.ext (String.toList_inj.1 names) types, rest⟩

theorem named_tells {name : String} {u : Ty} {x : List Char} (hname : Word name.toList)
    (hu : u.Spelled) (hx : Marked x) (hr' : Follows r') (h : name.toList ++ x = u.text ++ r') :
    (u = const name ∧ x = r') ∨ ∃ args, u = app (const name) args ∧
      x = '<' :: (listed text [',', ' '] args ++ '>' :: r') := by
  have hopen : u.opening = none := by
    obtain ⟨c, y, hy⟩ := List.exists_cons_of_ne_nil hname.1
    rw [hu.opening_eq (h.symm.trans (by rw [hy, List.cons_append])), hname.2 c (by simp [hy])]
    rfl
  cases hu with
  | var node => exact node.elim
  | const hother =>
    obtain ⟨same, rest⟩ := hname.tells hother hx hr'.marked h
    exact .inl ⟨by rw [String.toList_inj.1 same], rest⟩
  | @app head args node hhead =>
    cases hhead with
    | const hother =>
      rw [text_app, text_const, List.append_assoc] at h
      obtain ⟨same, rest⟩ := hname.tells hother hx (by simp [Marked, mark]) h
      exact .inr ⟨args, by rw [String.toList_inj.1 same], by simpa using rest⟩
    | _ => exact node.elim
  | func | record | tuple => simp [opening] at hopen

/-- What stands in parentheses are the parameters of a function if an arrow follows, and the
elements of a tuple otherwise. -/
theorem parenthesized_tells {ts : List Ty} {u : Ty} {x : List Char}
    (hts : ∀ t ∈ ts, t.Spelled ∧ Tells text Spelled Follows t) (hu : u.Spelled)
    (h : '(' :: (listed text [',', ' '] ts ++ ')' :: x) = u.text ++ r') :
    (∃ result, u = func ts result ∧ result.Spelled ∧
      x = ' ' :: '-' :: '>' :: ' ' :: (result.text ++ r')) ∨ (u = tuple ts ∧ x = r') := by
  have hopen : u.opening = some '(' := hu.opening_eq h.symm
  cases hu with
  | @func params result _ hparams hresult =>
    rw [text_func] at h
    obtain ⟨rfl, rest⟩ := types_tell hts hparams (.inl rfl) (.inl rfl)
      (show _ = _ ++ ')' :: (' ' :: '-' :: '>' :: ' ' :: (result.text ++ r')) by simpa using h)
    exact .inl ⟨result, rfl, hresult, rest⟩
  | @tuple elements _ helements =>
    rw [text_tuple] at h
    obtain ⟨rfl, rest⟩ := types_tell hts helements (.inl rfl) (.inl rfl)
      (show _ = _ ++ ')' :: r' by simpa using h)
    exact .inr ⟨rfl, rest⟩
  | var | const | app | record => simp [opening] at hopen

theorem braced_tells {fields : List (String × Ty)} {u : Ty}
    (hfields : ∀ field ∈ fields, (Word field.1.toList ∧ field.2.Spelled) ∧
      Tells text Spelled Follows field.2) (hu : u.Spelled)
    (h : (record fields).text ++ r = u.text ++ r') : u = record fields ∧ r = r' := by
  obtain ⟨x, hx⟩ : ∃ x, (record fields).text ++ r = '\x7b' :: x := by
    by_cases hempty : fields = []
    · exact ⟨_, by rw [hempty, text_record_nil, List.cons_append]⟩
    · exact ⟨_, by rw [text_record hempty, List.cons_append]⟩
  have hopen : u.opening = some '\x7b' := hu.opening_eq (h.symm.trans hx)
  cases hu with
  | @record others node hothers =>
    have second {fields : List (String × Ty)} (hne : fields ≠ []) {r r' : List Char} :
        (record fields).text ++ r ≠ (record []).text ++ r' := by
      rw [text_record hne, text_record_nil]
      simp
    by_cases hempty : fields = [] <;> by_cases hempty' : others = []
    · subst hempty hempty'
      exact ⟨rfl, List.append_cancel_left h⟩
    · exact absurd h.symm (hempty ▸ second hempty')
    · exact absurd h (hempty' ▸ second hempty)
    · rw [text_record hempty, text_record hempty'] at h
      obtain ⟨rfl, rest⟩ := listed_tells (fun x => .inr (.inl ⟨_, rfl⟩))
        (fun field hf => ⟨(hfields field hf).1, field_tells (hfields field hf).1.1
          (hfields field hf).2⟩)
        (fun field hf => ⟨node field hf, hothers field hf⟩) (ends_fields r) (ends_fields r')
        (by simpa using h)
      exact ⟨rfl, (List.cons.inj (List.cons.inj rest).2).2⟩
  | var | const | app | func | tuple => simp [opening] at hopen

end Tells

theorem Spelled.tells {t : Ty} (ht : t.Spelled) : Tells text Spelled Follows t := by
  induction ht with
  | var node => exact node.elim
  | const hname =>
    intro u r r' hu hr hr' h
    rcases named_tells hname hu hr.marked hr' h with ⟨rfl, rest⟩ | ⟨args, -, rfl⟩
    · exact ⟨rfl, rest⟩
    · simp [Follows] at hr
  | @app head args node hhead hargs _ ihArgs =>
    intro u r r' hu hr hr' h
    cases hhead with
    | const hname =>
      rw [text_app, text_const, List.append_assoc] at h
      rcases named_tells hname hu (by simp [Marked, mark]) hr' h with ⟨-, rfl⟩ | ⟨args', rfl, rest⟩
      · simp [Follows] at hr'
      · obtain ⟨rfl, ends⟩ := types_tell (fun t ht => ⟨hargs t ht, ihArgs t ht⟩)
          (everywhere_app.1 hu).2.2 (.inr rfl) (.inr rfl) (by simpa using rest)
        exact ⟨rfl, ends⟩
    | _ => exact node.elim
  | @func params result _ hparams hresult ihParams ihResult =>
    intro u r r' hu hr hr' h
    rw [text_func] at h
    rcases parenthesized_tells (fun t ht => ⟨hparams t ht, ihParams t ht⟩) hu
      (by simpa using h) with ⟨result', rfl, hresult', rest⟩ | ⟨-, rfl⟩
    · obtain ⟨rfl, ends⟩ := ihResult result' r r' hresult' hr hr' (by simpa using rest)
      exact ⟨rfl, ends⟩
    · simp [Follows] at hr'
  | @record fields node hfields ih =>
    intro u r r' hu hr hr' h
    obtain ⟨rfl, rest⟩ :=
      braced_tells (fun field hf => ⟨⟨node field hf, hfields field hf⟩, ih field hf⟩) hu h
    exact ⟨rfl, rest⟩
  | @tuple elements _ helements ih =>
    intro u r r' hu hr hr' h
    rw [text_tuple] at h
    rcases parenthesized_tells (x := r) (fun t ht => ⟨helements t ht, ih t ht⟩) hu
      (by simpa using h) with ⟨result, -, -, rfl⟩ | ⟨rfl, rest⟩
    · simp [Follows] at hr
    · exact ⟨rfl, rest⟩

end Ty

end Polytype
