import Polytype.Ty.Printer

namespace Polytype

inductive Clash where
  /-- The two types have different heads. -/
  | mismatch (expected actual : Ty)
  /-- A variable would have to contain itself. -/
  | infinite (v : TypeVar) (t : Ty)
  /-- The two types have a different number of parts. -/
  | arity (expected actual : Ty) (expectedArity actualArity : Nat)
  /-- The actual record lacks a field of the expected one. -/
  | missingField (field : String) (expected actual : Ty)
deriving Inhabited

def Clash.message : Clash → String
  | mismatch expected actual =>
    "type mismatch: expected " ++ expected.render ++ ", found " ++ actual.render
  | infinite v t => "cannot construct infinite type: " ++ v.render ++ " = " ++ t.render
  | arity expected actual expectedArity actualArity =>
    "arity mismatch: expected " ++ expected.render ++ " with " ++ toString expectedArity
      ++ " element(s), found " ++ actual.render ++ " with " ++ toString actualArity
  | missingField field expected actual =>
    "record " ++ actual.render ++ " has no field `" ++ field ++ "` required by "
      ++ expected.render

end Polytype
