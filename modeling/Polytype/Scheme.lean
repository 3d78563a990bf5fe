import Polytype.Assoc
import Polytype.Ty.Printer

namespace Polytype

open Text

structure Scheme where
  vars : List TypeVar
  ty : Ty
deriving Inhabited

namespace Scheme

def mono (ty : Ty) : Scheme := ⟨[], ty⟩

def isPolymorphic (σ : Scheme) : Bool :=
  !σ.vars.isEmpty

def binds (σ : Scheme) (id : Nat) : Bool :=
  σ.vars.any (·.id == id)

def freeVars (σ : Scheme) : List TypeVar :=
  σ.ty.freeVars.filter fun v => !σ.binds v.id

def same (σ τ : Scheme) : Bool :=
  σ.vars.map (·.id) == τ.vars.map (·.id) && σ.ty.same τ.ty

/-- The name of the quantified variable at a position: the letters `a` to `z`, then `a1` to `z1`,
and so on. -/
def letter (index : Nat) : String :=
  let c := (Char.ofNat ('a'.toNat + index % 26)).toString
  if index / 26 = 0 then c else c ++ toString (index / 26)

def names (σ : Scheme) : Assoc Nat String :=
  Assoc.ofList (σ.vars.zipIdx.map fun (v, index) => (v.id, letter index))

def showVar (names : Assoc Nat String) (id : Nat) : String :=
  match names.get? id with
  | some name => "'" ++ name
  | none => "'t" ++ toString id

def render (σ : Scheme) : String :=
  let names := σ.names
  if σ.isPolymorphic then
    "forall " ++ separated " " (σ.vars.map fun v => showVar names v.id) ++ ". "
      ++ σ.ty.renderWith (showVar names)
  else σ.ty.render

end Scheme

end Polytype
