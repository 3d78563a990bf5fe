namespace Polytype

structure Double where
  bits : UInt64
deriving DecidableEq, Inhabited

namespace Double

def infinityBits : UInt64 := 0x7FF0000000000000

def signBit : UInt64 := 0x8000000000000000

def magnitude (x : Double) : UInt64 := x.bits &&& 0x7FFFFFFFFFFFFFFF

def isNaN (x : Double) : Bool := infinityBits < x.magnitude

def equal (x y : Double) : Bool :=
  !x.isNaN && !y.isNaN && (x.bits == y.bits || (x.magnitude == 0 && y.magnitude == 0))

def signed (negative : Bool) (magnitude : UInt64) : Double :=
  ⟨if negative then magnitude ||| signBit else magnitude⟩

def ofDecimal (negative : Bool) (digits : Nat) (exponent : Int) : Double :=
  signed negative (Float.ofScientific digits (exponent < 0) exponent.natAbs).toBits

/-! ## Reading -/

def digitsValue (digits : List Char) : Nat :=
  digits.foldl (fun n c => 10 * n + (c.toNat - '0'.toNat)) 0

def takeSign : List Char → Bool × List Char
  | '-' :: rest => (true, rest)
  | '+' :: rest => (false, rest)
  | text => (false, text)

def takeDigits (text : List Char) : List Char × List Char :=
  (text.takeWhile Char.isDigit, text.dropWhile Char.isDigit)

def readExponent? : List Char → Option Int
  | [] => some 0
  | mark :: text =>
    if mark = 'e' ∨ mark = 'E' then
      let (negative, text) := takeSign text
      let (digits, rest) := takeDigits text
      if digits.isEmpty ∨ !rest.isEmpty then none
      else if negative then some (-digitsValue digits) else some (digitsValue digits)
    else none

def readDecimal? (negative : Bool) (text : List Char) : Option Double :=
  let (whole, rest) := takeDigits text
  let (fraction, rest) := match rest with
    | '.' :: rest => takeDigits rest
    | rest => ([], rest)
  if whole.isEmpty ∧ fraction.isEmpty then none
  else
    (readExponent? rest).map fun exponent =>
      ofDecimal negative (digitsValue (whole ++ fraction)) (exponent - fraction.length)

def read? (text : String) : Option Double :=
  let (negative, rest) := takeSign text.toList
  let word := String.ofList (rest.map Char.toLower)
  if word = "inf" ∨ word = "infinity" then some (signed negative infinityBits)
  else if word = "nan" then some (signed negative 0x7FF8000000000000)
  else readDecimal? negative rest

end Double

end Polytype
