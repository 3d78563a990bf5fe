import Polytype.Env.Basic

namespace Polytype.Prelude

def v (id : Nat) : TypeVar := ⟨id, 0⟩

def size : Nat := 7

def definitions : List Definition :=
  [⟨"Int", [], .abstract⟩,
   ⟨"Float", [], .abstract⟩,
   ⟨"String", [], .abstract⟩,
   ⟨"Bool", [], .abstract⟩,
   ⟨"Unit", [], .abstract⟩,
   ⟨"List", [v 0], .abstract⟩,
   ⟨"Ref", [v 1], .abstract⟩,
   ⟨"Option", [v 2], .variant [⟨"Some", [.var (v 2)]⟩, ⟨"None", []⟩]⟩,
   ⟨"Result", [v 3, v 4], .variant [⟨"Ok", [.var (v 3)]⟩, ⟨"Error", [.var (v 4)]⟩]⟩]

def values : List (String × Scheme) :=
  [("print", .mono (.func [.string] .unit)),
   ("toString", ⟨[v 5], .func [.var (v 5)] .string⟩),
   ("intToFloat", .mono (.func [.int] .float)),
   ("floatToInt", .mono (.func [.float] .int)),
   ("length", ⟨[v 6], .func [.list (.var (v 6))] .int⟩)]

def env : Env :=
  (definitions.foldl Env.define .empty).extendAll (Assoc.mapValues .value values)

end Polytype.Prelude
