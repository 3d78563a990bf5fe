import Polytype.Assoc
import Polytype.Program.Pattern

namespace Polytype

/-- What a value can be built with, as far as patterns can tell. Floats are told apart by their
bits. -/
inductive Head where
  | variant (name : String)
  | bool (value : Bool)
  | unit
  | int (value : Int)
  | float (value : Double)
  | string (value : String)
  | tuple (arity : Nat)
  | record (names : List String)
  | nil
  | cons
deriving DecidableEq, Inhabited

def Head.ofLiteral : Literal → Head
  | .int value => int value
  | .float value => float value
  | .string value => string value
  | .bool value => bool value
  | .unit => unit

inductive Pat where
  | any
  | node (head : Head) (args : List Pat)
  | record (fields : List (String × Pat))
  | either (alternatives : List Pat)
deriving Inhabited

namespace Pat

def listOf (elements : List Pat) (rest : Pat) : Pat :=
  elements.foldr (fun head tail => node .cons [head, tail]) rest

mutual

def lower : Pattern → Pat
  | .wild _ => any
  | .var _ => any
  | .literal value _ => node (.ofLiteral value) []
  | .constructor name args _ => node (.variant name.name) (lowerList args)
  | .record fields _ => record (Assoc.ofList (lowerFields fields))
  | .tuple elements _ => node (.tuple elements.length) (lowerList elements)
  | .list elements none _ => listOf (lowerList elements) (node .nil [])
  | .list elements (some rest) _ => listOf (lowerList elements) (lower rest)
  | .either alternatives _ => either (lowerList alternatives)

def lowerList : List Pattern → List Pat
  | [] => []
  | p :: ps => lower p :: lowerList ps

def lowerFields : List FieldPattern → List (String × Pat)
  | [] => []
  | ⟨name, p, _⟩ :: rest => (name, lower p) :: lowerFields rest

end

mutual

def choices : Pat → List Pat
  | any => [any]
  | node head args => [node head args]
  | record fields => [record fields]
  | either alternatives => choicesList alternatives

def choicesList : List Pat → List Pat
  | [] => []
  | p :: ps => p.choices ++ choicesList ps

end

end Pat

end Polytype
