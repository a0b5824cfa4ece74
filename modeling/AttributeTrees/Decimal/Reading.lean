import AttributeTrees.Decimal.Rounding
import AttributeTrees.Numeral
/-!
# Reading decimal numbers

A decimal number is an optional sign before a point number with an optional exponent, or before one
of the words `inf`, `infinity` and `nan` in any case. The point may stand first or last, but one
digit there must be. A number reads as the member of the format nearest to it.
-/
namespace AttributeTrees.Decimal

inductive Literal where
  | finite (negative : Bool) (digits : Nat) (exponent : Int)
  | infinite (negative : Bool)
  | nan
deriving DecidableEq, Repr

namespace Literal

def lower (c : Char) : Char :=
  if 'A' ≤ c ∧ c ≤ 'Z' then Char.ofNat (c.toNat + 32) else c

def isDigit (c : Char) : Bool := '0' ≤ c && c ≤ '9'

def number (digits : List Char) : Nat :=
  digits.foldl (fun n c => n * 10 + (c.toNat - '0'.toNat)) 0

def exponent? : List Char → Option Int
  | [] => some 0
  | c :: rest => if lower c = 'e' then Numeral.signed? 10 rest else none

def point? (negative : Bool) (text : List Char) : Option Literal :=
  let whole := text.takeWhile isDigit
  let rest := text.dropWhile isDigit
  let (fraction, tail) :=
    match rest with
    | '.' :: more => (more.takeWhile isDigit, more.dropWhile isDigit)
    | _ => ([], rest)
  if whole.isEmpty && fraction.isEmpty then none
  else
    (exponent? tail).map fun e =>
      finite negative (number (whole ++ fraction)) (e - (fraction.length : Int))

def unsigned? (negative : Bool) (text : List Char) : Option Literal :=
  let word := text.map lower
  if word = "inf".toList || word = "infinity".toList then some (infinite negative)
  else if word = "nan".toList then some nan
  else point? negative text

def ofText? : List Char → Option Literal
  | '-' :: rest => unsigned? true rest
  | '+' :: rest => unsigned? false rest
  | text => unsigned? false text

/-- The pattern of the nearest member of a format whose sign bit counts `signBit`; `nanPattern`
stands for what is not a number. -/
def round (fmt : BinaryFormat) (signBit nanPattern : Nat) : Literal → Nat
  | finite negative digits exponent =>
    (if negative then signBit else 0) + fmt.roundDecimal digits exponent
  | infinite negative => (if negative then signBit else 0) + fmt.infinity
  | nan => nanPattern

def toFloat (l : Literal) : Float :=
  Float.ofBits (l.round .double 0x8000000000000000 0x7FF8000000000000).toUInt64

def toFloat32 (l : Literal) : Float32 :=
  Float32.ofBits (l.round .single 0x80000000 0x7FC00000).toUInt32

end Literal

def readFloat? (text : List Char) : Option Float := (Literal.ofText? text).map Literal.toFloat

def readFloat32? (text : List Char) : Option Float32 :=
  (Literal.ofText? text).map Literal.toFloat32

end AttributeTrees.Decimal
