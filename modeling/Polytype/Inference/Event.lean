import Polytype.Subst.Closing
import Polytype.Text.Quoted

namespace Polytype

open Text

inductive Severity where
  | trace
  | debug
  | warn
deriving DecidableEq, Inhabited

inductive Event where
  | generalized (level : Nat) (scheme : Scheme)
  | closed (closing : Closing)
  | instantiated (scheme : Scheme) (t : Ty)
  | inferred (name : String) (scheme : Scheme)
  | inferredMember (name : String) (scheme : Scheme)
  | declared (name : String) (scheme : Scheme)
  | declaredMember (name : String) (scheme : Scheme)
  | definedTypes (names : List String)
  | declaredForeign (name : String) (scheme : Scheme) (foreignName : String)
  | imported (moduleName name localName : String) (scheme : Scheme)
  | declarationFailed (names : List String) (moduleName message : String)
deriving Inhabited

namespace Event

def severity : Event → Severity
  | generalized _ _ => .trace
  | closed _ => .trace
  | instantiated _ _ => .trace
  | inferred _ _ => .trace
  | inferredMember _ _ => .trace
  | declared _ _ => .debug
  | declaredMember _ _ => .debug
  | definedTypes _ => .debug
  | declaredForeign _ _ _ => .debug
  | imported _ _ _ _ => .debug
  | declarationFailed _ _ _ => .warn

def message : Event → String
  | generalized level σ => "generalized at level " ++ toString level ++ ": " ++ σ.render
  | closed closing => "closed " ++ closing.v.render ++ " as " ++ closing.record.render
  | instantiated σ t => "instantiated " ++ σ.render ++ " as " ++ t.render
  | inferred name σ => "let " ++ name ++ " : " ++ σ.render
  | inferredMember name σ => "let rec " ++ name ++ " : " ++ σ.render
  | declared name σ => "let " ++ name ++ " : " ++ σ.render
  | declaredMember name σ => "let rec " ++ name ++ " : " ++ σ.render
  | definedTypes names => "defined types " ++ quotedList names
  | declaredForeign name σ foreignName =>
    "external " ++ name ++ " : " ++ σ.render ++ " = " ++ quoted foreignName
  | imported moduleName name localName σ =>
    "import " ++ moduleName ++ "." ++ name ++ " as " ++ localName ++ " : " ++ σ.render
  | declarationFailed names moduleName message =>
    "declaration of " ++ quotedList names ++ " in `" ++ moduleName ++ "` failed: " ++ message

end Event

end Polytype
