namespace Polytype.Text

def separated (separator : String) : List String → String
  | [] => ""
  | [item] => item
  | item :: rest => item ++ separator ++ separated separator rest

abbrev commas : List String → String := separated ", "

def braced : List String → String
  | [] => "\x7b\x7d"
  | items => "\x7b " ++ commas items ++ " \x7d"

end Polytype.Text
