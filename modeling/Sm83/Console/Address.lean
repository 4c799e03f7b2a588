import Sm83.Hex

/-!
Addresses in hexadecimal text: an optional 0x or 0X, then an optional plus sign before at least one more
character, then digits of either case. Leading zeros do not count. The first problem from the left is the one
reported, and a character that is no digit comes before the overflow at its place.
-/

set_option autoImplicit false

namespace Sm83.Address

inductive Problem where
  | empty
  | notDigit
  | tooLarge
  deriving DecidableEq, Repr

def Problem.message : Problem → String
  | .empty => "cannot parse integer from empty string"
  | .notDigit => "invalid digit found in string"
  | .tooLarge => "number too large to fit in target type"

def dropMarker : List Char → List Char
  | '0' :: 'x' :: cs => cs
  | '0' :: 'X' :: cs => cs
  | cs => cs

def dropSign : List Char → List Char
  | '+' :: c :: cs => c :: cs
  | cs => cs

/-- Continues a number whose digits so far have the value `v`. -/
def extend (v : Nat) : List Char → Except Problem Nat
  | [] => .ok v
  | c :: cs =>
    match Hex.value? c with
    | none => .error .notDigit
    | some d => if 0xFFFF < 16 * v + d then .error .tooLarge else extend (16 * v + d) cs

def ofChars : List Char → Except Problem Nat
  | [] => .error .empty
  | cs => extend 0 (dropSign cs)

def read (text : String) : Except Problem Word :=
  (ofChars (dropMarker text.toList)).map UInt16.ofNat

end Sm83.Address
