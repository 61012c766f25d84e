import LayeredEnv.Text.Class

namespace LayeredEnv.Text

def hexValue? (c : Char) : Option Nat :=
  if isDigit c then some (c.toNat - 48)
  else if 'a' ≤ c && c ≤ 'f' then some (c.toNat - 87)
  else if 'A' ≤ c && c ≤ 'F' then some (c.toNat - 55)
  else none

def someDigits (cs : List Char) : Option (List Char × List Char) :=
  match cs.takeWhile isDigit with
  | [] => none
  | digits => some (digits, cs.dropWhile isDigit)

def valueInBase (base : Nat) (digits : List Char) : Nat :=
  digits.foldl (fun n c => base * n + (hexValue? c).getD 0) 0

def fixedHex (length : Nat) (cs : List Char) : Option (Nat × List Char) :=
  let digits := cs.take length
  if digits.length == length && digits.all fun c => (hexValue? c).isSome then
    some (valueInBase 16 digits, cs.drop length)
  else none

def decimalValue (digits : List Char) : Nat := valueInBase 10 digits

/-- The least number that a double rounds to infinity: half a unit above the largest one. -/
def doubleBound : Nat := 1 <<< 1024 - 1 <<< 970

def isOutOfRange (mantissa : Nat) (exponent : Int) : Bool :=
  mantissa != 0 &&
    (308 < exponent || (0 ≤ exponent && doubleBound ≤ mantissa * Nat.pow 10 exponent.toNat) ||
      (exponent < 0 && (-exponent) < 400 + mantissa.log2 &&
        doubleBound * Nat.pow 10 (-exponent).toNat ≤ mantissa))

end LayeredEnv.Text
