import Polytype.Text.Separated

namespace Polytype

open Text

inductive MissingCase where
  | any
  | bool (value : Bool)
  | unit
  | constructor (name : String) (args : List MissingCase)
  | tuple (elements : List MissingCase)
  | record (fields : List (String × MissingCase))
  | nil
  | cons (head tail : MissingCase)
deriving Inhabited

namespace MissingCase

def afterElements (inList : Bool) (text : String) : String :=
  if inList then ", ..." ++ text else text

mutual

def renderAs (inList : Bool) : MissingCase → String
  | any => afterElements inList "_"
  | bool value => afterElements inList (if value then "true" else "false")
  | unit => afterElements inList "()"
  | constructor name [] => afterElements inList name
  | constructor name args =>
    afterElements inList (name ++ "(" ++ commas (renderList args) ++ ")")
  | tuple elements => afterElements inList ("(" ++ commas (renderList elements) ++ ")")
  | record fields => afterElements inList (braced (renderFields fields))
  | nil => if inList then "" else "[]"
  | cons head tail =>
    if inList then ", " ++ head.renderAs false ++ tail.renderAs true
    else "[" ++ head.renderAs false ++ tail.renderAs true ++ "]"

def renderList : List MissingCase → List String
  | [] => []
  | c :: cs => c.renderAs false :: renderList cs

def renderFields : List (String × MissingCase) → List String
  | [] => []
  | (name, c) :: rest => (name ++ ": " ++ c.renderAs false) :: renderFields rest

end

def render (c : MissingCase) : String := c.renderAs false

end MissingCase

end Polytype
