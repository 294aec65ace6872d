/-!
# Sizes

Numbers in options and directives are written in decimal, with an optional
plus sign, and must fit into 64 bits. Not every such number can be the length
of a text.
-/

namespace RubyIndent.Text

/-- The largest number that fits into 64 bits. -/
def maxSize : Nat := 18446744073709551615

/-- The greatest number of bytes that a text can have. -/
def maxLength : Nat := 9223372036854775807

/-- The value of a row of decimal digits, read on from `n`. -/
def decimalFrom (n : Nat) (digits : List Char) : Nat :=
  digits.foldl (fun n c => 10 * n + (c.toNat - '0'.toNat)) n

def readSize? (s : List Char) : Option Nat :=
  let digits := match s with
    | '+' :: t => t
    | _ => s
  if digits.isEmpty || !digits.all Char.isDigit then none
  else
    let n := decimalFrom 0 digits
    if n ≤ maxSize then some n else none

end RubyIndent.Text
