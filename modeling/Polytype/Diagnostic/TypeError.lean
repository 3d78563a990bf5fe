import Polytype.Clash
import Polytype.Coverage.MissingCase
import Polytype.Diagnostic.Excerpt
import Polytype.Program.Expr
import Polytype.Text.Quoted

namespace Polytype

open Text

inductive Counted where
  | call
  | tuplePattern
  | constructorArgs (name : String)
  | typeArgs (name : String)
  | parts (expected actual : Ty)
deriving Inhabited

def Counted.text : Counted → String
  | call => "function call"
  | tuplePattern => "tuple pattern"
  | constructorArgs name => "constructor " ++ name
  | typeArgs name => "type arguments of " ++ name
  | parts expected actual => expected.render ++ " and " ++ actual.render

inductive Defect where
  | emptyChoice
  | repeatedParameter (param typeName : String)
deriving Inhabited

def Defect.text : Defect → String
  | emptyChoice => "empty or-pattern"
  | repeatedParameter param typeName =>
    "type parameter '" ++ param ++ " declared twice in " ++ typeName

inductive Cause where
  | mismatch (expected actual : Ty)
  | infinite (v : TypeVar) (t : Ty)
  | arity (what : Counted) (expected actual : Nat)
  | unknownConstructor (name : String)
  | unknownVariable (name : String)
  | unknownType (name : String)
  | fieldNotFound (field : String) (t : Ty)
  | missingField (field : String) (expected actual : Ty)
  | nonExhaustive (missing : MissingCase)
  | inconsistentChoice (left right : List String)
  | notEquatable (t : Ty)
  | nonBooleanGuard (actual : Ty)
  | duplicateBinding (name : String)
  | dependsOnFailed (name : String)
  | unresolved (name : String) (t : Ty)
  | internal (defect : Defect)
deriving Inhabited

def Cause.message : Cause → String
  | mismatch expected actual =>
    "type mismatch: expected " ++ expected.render ++ ", found " ++ actual.render
  | infinite v t => "cannot construct infinite type: " ++ v.render ++ " = " ++ t.render
  | arity what expected actual =>
    "arity mismatch in " ++ what.text ++ ": expected " ++ toString expected ++ ", found "
      ++ toString actual
  | unknownConstructor name => "unknown constructor: " ++ name
  | unknownVariable name => "unknown variable: " ++ name
  | unknownType name => "unknown type: " ++ name
  | fieldNotFound field t => "type " ++ t.render ++ " has no field `" ++ field ++ "`"
  | missingField field expected actual =>
    "missing field `" ++ field ++ "`: expected " ++ expected.render ++ ", found "
      ++ actual.render
  | nonExhaustive missing => "non-exhaustive match: `" ++ missing.render ++ "` not covered"
  | inconsistentChoice left right =>
    "or-pattern alternatives bind different variables: " ++ quotedList left ++ " vs "
      ++ quotedList right
  | notEquatable t => "type " ++ t.render ++ " does not support equality"
  | nonBooleanGuard actual => "match guard must be Bool, found " ++ actual.render
  | duplicateBinding name =>
    "variable `" ++ name ++ "` is bound more than once in the same pattern"
  | dependsOnFailed name =>
    "`" ++ name ++ "` has no type because its declaration failed to type-check"
  | unresolved name t =>
    "the type of `" ++ name ++ "` cannot be fully determined: " ++ t.render
  | internal defect => "internal error: " ++ defect.text

inductive Hint where
  | addField (field : String)
  | declareParameter (name : String)
  | functionType (t : Ty)
  | onlyFunctions
  | noFunctionEquality (op : BinaryOp)
  | operandTypes (names : List String)
  | annotate
  | addCase (missing : MissingCase)
deriving Inhabited

def Hint.text : Hint → String
  | addField field => "add a field `" ++ field ++ "` to the record"
  | declareParameter name => "declare '" ++ name ++ " as a type parameter"
  | functionType t => "the function has type " ++ t.render
  | onlyFunctions => "only functions can be called"
  | noFunctionEquality op => "functions cannot be compared with `" ++ op.symbol ++ "`"
  | operandTypes names => "this operator works on " ++ commas names
  | annotate => "add a type annotation"
  | addCase missing => "add a case for `" ++ missing.render ++ "`"

structure TypeError where
  cause : Cause
  span : Span
  hint : Option Hint := none
  related : List Span := []
deriving Inhabited

namespace TypeError

def ofClash (span : Span) : Clash → TypeError
  | .mismatch expected actual => ⟨.mismatch expected actual, span, none, []⟩
  | .infinite v t => ⟨.infinite v t, span, none, []⟩
  | .arity expected actual expectedArity actualArity =>
    ⟨.arity (.parts expected actual) expectedArity actualArity, span, none, []⟩
  | .missingField field expected actual =>
    ⟨.missingField field expected actual, span, some (.addField field), []⟩

def message (e : TypeError) : String := e.cause.message

def fullMessage (e : TypeError) : String :=
  match e.hint with
  | some hint => e.message ++ "\n  Hint: " ++ hint.text
  | none => e.message

def render (e : TypeError) : String :=
  if e.span.source.isEmpty then "Type error: " ++ e.fullMessage
  else e.span.excerpt e.fullMessage

end TypeError

end Polytype
