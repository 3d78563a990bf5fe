namespace Polytype

/-- A range of a source text, which the span carries along. -/
structure Span where
  startLine : Nat := 0
  startColumn : Nat := 0
  endLine : Nat := 0
  endColumn : Nat := 0
  source : String := ""
deriving Inhabited

structure Ident where
  name : String
  span : Span := {}
deriving Inhabited

end Polytype
