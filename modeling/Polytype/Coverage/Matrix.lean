import Polytype.Coverage.MissingCase
import Polytype.Coverage.Pat
import Polytype.Env.Alias

/-!
# Pattern matrices

A matrix has a row for each arm and a column for each value still to be inspected. Its first
column is either split by the heads of the column's type, if the rows mention all of them, or
passed over, in which case only the rows that start with a wildcard matter.
-/

namespace Polytype

abbrev Row := List Pat

namespace Coverage

/-! ## Heads of a column -/

def splitRow : Row → List Row
  | [] => [[]]
  | p :: rest => p.choices.map (· :: rest)

def splitRows (rows : List Row) : List Row := rows.flatMap splitRow

def startsAny : Row → Bool
  | [] => true
  | .any :: _ => true
  | _ => false

def firstHead? : Row → Option Head
  | .node head _ :: _ => some head
  | _ => none

def firstFields? : Row → Option (List String)
  | .record fields :: _ => some (Assoc.keys fields)
  | _ => none

def insertName (name : String) : List String → List String
  | [] => [name]
  | other :: rest =>
    if name < other then name :: other :: rest else other :: insertName name rest

def nameSet (names : List String) : List String :=
  names.foldl (fun set name => if name ∈ set then set else insertName name set) []

def columnFields? (rows : List Row) : Option (List String) :=
  let records := rows.filterMap firstFields?
  if records.isEmpty then none else some (nameSet records.flatten)

def tupleArity? (heads : List Head) : Option Nat :=
  heads.findSome? fun
    | .tuple arity => some arity
    | _ => none

/-- All heads of the values in a column, if they can be listed. Records and tuples have a single
head, whose parts the patterns tell; numbers and strings have too many heads. -/
def signature? (env : Env) (t : Ty) (rows : List Row) : Option (List Head) :=
  match columnFields? rows, tupleArity? (rows.filterMap firstHead?), t with
  | some names, _, _ => some [.record names]
  | none, some arity, _ => some [.tuple arity]
  | none, none, .tuple elements => some [.tuple elements.length]
  | none, none, t =>
    if t.isNamed "Bool" then some [.bool true, .bool false]
    else if t.isNamed "Unit" then some [.unit]
    else if t.isNamed "List" then some [.nil, .cons]
    else (env.alternatives t).map fun alternatives => alternatives.map fun a => .variant a.name

def unknown : Ty := .var ⟨0, 0⟩

def partTypes (env : Env) (t : Ty) : Head → List Ty
  | .variant name =>
    (((env.alternatives t).bind fun alternatives =>
      alternatives.find? fun a => a.name == name).map Alternative.args).getD []
  | .tuple arity =>
    match t with
    | .tuple elements =>
      if elements.length = arity then elements else List.replicate arity unknown
    | _ => List.replicate arity unknown
  | .record names =>
    let fields := (env.recordFields t).getD []
    names.map fun name => (Assoc.get? fields name).getD unknown
  | .cons =>
    let element := t.listElement?.getD unknown
    [element, .list element]
  | _ => []

def covered (heads : List Head) : Head → Bool
  | .record _ => true
  | head => heads.contains head

def caseOf : Head → List MissingCase → MissingCase
  | .variant name, parts => .constructor name parts
  | .bool value, _ => .bool value
  | .unit, _ => .unit
  | .tuple _, parts => .tuple parts
  | .record names, parts => .record (names.zip parts)
  | .nil, _ => .nil
  | .cons, parts => .cons (parts.headD .any) (parts.tail.headD .any)
  | _, _ => .any

/-! ## Splitting or passing over a column -/

inductive Plan where
  /-- Look at the values with each of the heads, whose parts have the given types. -/
  | split (heads : List (Head × List Ty))
  /-- Look at the rows that start with a wildcard; the case is what the other rows leave out. -/
  | pass (first : MissingCase)

def plan (env : Env) (t : Ty) (rows : List Row) : Plan :=
  let heads := rows.filterMap firstHead?
  match signature? env t rows with
  | none => .pass .any
  | some all =>
    if !rows.all startsAny && all.all (covered heads) then
      .split (all.map fun head => (head, partTypes env t head))
    else if heads.isEmpty then .pass .any
    else
      .pass <| match all.find? fun head => !covered heads head with
        | some head => caseOf head ((partTypes env t head).map fun _ => .any)
        | none => .any

def resize (arity : Nat) (args : List Pat) : List Pat :=
  args.take arity ++ List.replicate (arity - args.length) .any

/-- What a row demands of the parts of a value with a given head and of the other columns, if it
can match such a value. -/
def specialize (head : Head) (arity : Nat) : Row → Option Row
  | [] => none
  | .any :: rest => some (List.replicate arity .any ++ rest)
  | .node other args :: rest => if other = head then some (resize arity args ++ rest) else none
  | .record fields :: rest =>
    match head with
    | .record names =>
      some (resize arity (names.map fun name => (Assoc.get? fields name).getD .any) ++ rest)
    | _ => none
  | .either _ :: _ => none

def specializeRows (head : Head) (arity : Nat) (rows : List Row) : List Row :=
  rows.filterMap (specialize head arity)

def passRow : Row → Option Row
  | .any :: rest => some rest
  | _ => none

def passRows (rows : List Row) : List Row := rows.filterMap passRow

end Coverage

end Polytype
