import Polytype.Program.Declaration

namespace Polytype

theorem TypeExpr.induct {P : TypeExpr → Prop}
    (named : ∀ name args span, (∀ t ∈ args, P t) → P (named name args span))
    (var : ∀ name span, P (var name span))
    (func : ∀ params result span, (∀ t ∈ params, P t) → P result → P (func params result span))
    (record : ∀ fields span, (∀ field ∈ fields, P field.2) → P (record fields span))
    (tuple : ∀ elements span, (∀ t ∈ elements, P t) → P (tuple elements span)) (t : TypeExpr) :
    P t :=
  @TypeExpr.rec P (fun ts => ∀ t ∈ ts, P t) (fun fields => ∀ field ∈ fields, P field.2)
    (fun field => P field.2) named var func record tuple (by simp)
    (fun _ _ h hs => List.forall_mem_cons.2 ⟨h, hs⟩) (by simp)
    (fun _ _ h hs => List.forall_mem_cons.2 ⟨h, hs⟩) (fun _ _ h => h) t

theorem Pattern.induct {P : Pattern → Prop} (wild : ∀ span, P (wild span))
    (var : ∀ name, P (var name)) (literal : ∀ value span, P (literal value span))
    (constructor : ∀ name args span, (∀ p ∈ args, P p) → P (constructor name args span))
    (record : ∀ fields span, (∀ field ∈ fields, P field.pattern) → P (record fields span))
    (tuple : ∀ elements span, (∀ p ∈ elements, P p) → P (tuple elements span))
    (list : ∀ elements rest span, (∀ p ∈ elements, P p) → (∀ p, rest = some p → P p) →
      P (list elements rest span))
    (either : ∀ alternatives span, (∀ p ∈ alternatives, P p) → P (either alternatives span))
    (p : Pattern) : P p :=
  @Pattern.rec P (fun field => P field.pattern) (fun ps => ∀ p ∈ ps, P p)
    (fun fields => ∀ field ∈ fields, P field.pattern) (fun rest => ∀ p, rest = some p → P p)
    wild var literal constructor record tuple list either (fun _ _ _ h => h) (by simp)
    (fun _ _ h hs => List.forall_mem_cons.2 ⟨h, hs⟩) (by simp)
    (fun _ _ h hs => List.forall_mem_cons.2 ⟨h, hs⟩) (by simp)
    (fun _ h _ heq => Option.some.inj heq ▸ h) p

def Entry.Each (P : Expr → Prop) : Entry → Prop
  | field init => P init.value
  | spread base => P base

def Arm.Each (P : Expr → Prop) (arm : Arm) : Prop :=
  (∀ guard, arm.guard = some guard → P guard) ∧ P arm.body

theorem Expr.induct {P : Expr → Prop} (literal : ∀ value span, P (literal value span))
    (var : ∀ name, P (var name))
    (lambda : ∀ params body span, P body → P (lambda params body span))
    (apply : ∀ function args span, P function → (∀ e ∈ args, P e) → P (apply function args span))
    (letIn : ∀ name written value recursive body span, P value → P body →
      P (letIn name written value recursive body span))
    (letGroup : ∀ bindings body span, (∀ b ∈ bindings, P b.value) → P body →
      P (letGroup bindings body span))
    (cond : ∀ condition thenBranch elseBranch span, P condition → P thenBranch → P elseBranch →
      P (cond condition thenBranch elseBranch span))
    (block : ∀ parts span, (∀ e ∈ parts, P e) → P (block parts span))
    (case : ∀ scrutinee arms span, P scrutinee → (∀ arm ∈ arms, arm.Each P) →
      P (case scrutinee arms span))
    (record : ∀ entries span, (∀ entry ∈ entries, entry.Each P) → P (record entries span))
    (update : ∀ base fields span, P base → (∀ init ∈ fields, P init.value) →
      P (update base fields span))
    (field : ∀ object name span, P object → P (field object name span))
    (tuple : ∀ elements span, (∀ e ∈ elements, P e) → P (tuple elements span))
    (list : ∀ elements span, (∀ e ∈ elements, P e) → P (list elements span))
    (makeRef : ∀ value span, P value → P (makeRef value span))
    (deref : ∀ reference span, P reference → P (deref reference span))
    (assign : ∀ target value span, P target → P value → P (assign target value span))
    (binary : ∀ op left right span, P left → P right → P (binary op left right span))
    (unary : ∀ op operand span, P operand → P (unary op operand span))
    (annotated : ∀ expr written span, P expr → P (annotated expr written span)) (e : Expr) : P e :=
  @Expr.rec P (fun b => P b.value) (Arm.Each P) (fun init => P init.value) (Entry.Each P)
    (fun es => ∀ e ∈ es, P e) (fun bs => ∀ b ∈ bs, P b.value) (fun arms => ∀ arm ∈ arms, arm.Each P)
    (fun entries => ∀ entry ∈ entries, entry.Each P) (fun inits => ∀ init ∈ inits, P init.value)
    (fun guard => ∀ e, guard = some e → P e) literal var lambda apply letIn letGroup cond block case
    record update field tuple list makeRef deref assign binary unary annotated
    (fun _ _ _ _ h => h) (fun _ _ _ _ hguard hbody => ⟨hguard, hbody⟩) (fun _ _ _ h => h)
    (fun _ h => h) (fun _ h => h) (by simp) (fun _ _ h hs => List.forall_mem_cons.2 ⟨h, hs⟩)
    (by simp) (fun _ _ h hs => List.forall_mem_cons.2 ⟨h, hs⟩)
    (by simp) (fun _ _ h hs => List.forall_mem_cons.2 ⟨h, hs⟩)
    (by simp) (fun _ _ h hs => List.forall_mem_cons.2 ⟨h, hs⟩)
    (by simp) (fun _ _ h hs => List.forall_mem_cons.2 ⟨h, hs⟩) (by simp)
    (fun _ h _ heq => Option.some.inj heq ▸ h) e

/-! ## Programs without records -/

/-- No record type is written. -/
inductive TypeExpr.Plain : TypeExpr → Prop
  | named {name args span} : (∀ t ∈ args, Plain t) → Plain (named name args span)
  | var {name span} : Plain (var name span)
  | func {params result span} : (∀ t ∈ params, Plain t) → Plain result →
      Plain (func params result span)
  | tuple {elements span} : (∀ t ∈ elements, Plain t) → Plain (tuple elements span)

/-- There is no record pattern. -/
inductive Pattern.Plain : Pattern → Prop
  | wild {span} : Plain (wild span)
  | var {name} : Plain (var name)
  | literal {value span} : Plain (literal value span)
  | constructor {name args span} : (∀ p ∈ args, Plain p) → Plain (constructor name args span)
  | tuple {elements span} : (∀ p ∈ elements, Plain p) → Plain (tuple elements span)
  | list {elements rest span} : (∀ p ∈ elements, Plain p) → (∀ p, rest = some p → Plain p) →
      Plain (list elements rest span)
  | either {alternatives span} : (∀ p ∈ alternatives, Plain p) → Plain (either alternatives span)

/-- No record is built, updated, read, matched or written as a type. -/
inductive Expr.Plain : Expr → Prop
  | literal {value span} : Plain (literal value span)
  | var {name} : Plain (var name)
  | lambda {params : List Param} {body span} :
      (∀ param ∈ params, ∀ t, param.written = some t → t.Plain) → Plain body →
      Plain (lambda params body span)
  | apply {function args span} : Plain function → (∀ e ∈ args, Plain e) →
      Plain (apply function args span)
  | letIn {name} {written : Option TypeExpr} {value recursive body span} :
      (∀ t, written = some t → t.Plain) → Plain value → Plain body →
      Plain (letIn name written value recursive body span)
  | letGroup {bindings : List GroupBinding} {body span} :
      (∀ b ∈ bindings, ∀ t, b.written = some t → t.Plain) → (∀ b ∈ bindings, Plain b.value) →
      Plain body → Plain (letGroup bindings body span)
  | cond {condition thenBranch elseBranch span} : Plain condition → Plain thenBranch →
      Plain elseBranch → Plain (cond condition thenBranch elseBranch span)
  | block {parts span} : (∀ e ∈ parts, Plain e) → Plain (block parts span)
  | case {scrutinee} {arms : List Arm} {span} : Plain scrutinee →
      (∀ arm ∈ arms, arm.pattern.Plain) →
      (∀ arm ∈ arms, ∀ guard, arm.guard = some guard → Plain guard) →
      (∀ arm ∈ arms, Plain arm.body) → Plain (case scrutinee arms span)
  | tuple {elements span} : (∀ e ∈ elements, Plain e) → Plain (tuple elements span)
  | list {elements span} : (∀ e ∈ elements, Plain e) → Plain (list elements span)
  | makeRef {value span} : Plain value → Plain (makeRef value span)
  | deref {reference span} : Plain reference → Plain (deref reference span)
  | assign {target value span} : Plain target → Plain value → Plain (assign target value span)
  | binary {op left right span} : Plain left → Plain right → Plain (binary op left right span)
  | unary {op operand span} : Plain operand → Plain (unary op operand span)
  | annotated {expr} {written : TypeExpr} {span} : Plain expr → written.Plain →
      Plain (annotated expr written span)

/-- The type is a variant, and no record type is written in it. -/
def TypeDecl.Plain (d : TypeDecl) : Prop :=
  ∃ constructors, d.body = .variant constructors ∧ ∀ c ∈ constructors, ∀ t ∈ c.2, t.Plain

def ImportItem.Plain : ImportItem → Prop
  | value _ _ signature => signature.Plain
  | type decl => decl.Plain

def Declaration.Plain : Declaration → Prop
  | value _ written body _ _ => (∀ t, written = some t → t.Plain) ∧ body.Plain
  | group bindings _ =>
    (∀ b ∈ bindings, ∀ t, b.written = some t → t.Plain) ∧ ∀ b ∈ bindings, b.value.Plain
  | types decls _ => ∀ d ∈ decls, d.Plain
  | foreign _ signature _ _ => signature.Plain
  | imports _ items _ => ∀ item ∈ items, item.Plain

/-- The module has no record, and no name for another type. -/
def Module.Plain (m : Module) : Prop := ∀ d ∈ m.declarations, d.Plain

end Polytype
