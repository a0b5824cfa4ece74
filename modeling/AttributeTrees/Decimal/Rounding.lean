/-!
# Rounding to a binary format

The member of a binary floating-point format nearest to a fraction or a decimal number, a tie going
to the even neighbour. A format is given by its precision and its least exponent; its bit patterns
without the sign count its members from zero upwards, so rounding yields a count.
-/
namespace AttributeTrees.Decimal

structure BinaryFormat where
  precision : Nat
  leastExponent : Int
  infinity : Nat

def BinaryFormat.double : BinaryFormat := ⟨53, -1074, 0x7FF0000000000000⟩

def BinaryFormat.single : BinaryFormat := ⟨24, -149, 0x7F800000⟩

def roundHalfEven (num den : Nat) : Nat :=
  let q := num / den
  let twice := 2 * (num % den)
  if twice < den then q else if twice > den then q + 1 else q + q % 2

def roundScaled (num den : Nat) (e : Int) : Nat :=
  if e < 0 then roundHalfEven (num * Nat.pow 2 (-e).toNat) den
  else roundHalfEven num (den * Nat.pow 2 e.toNat)

def reaches (num den : Nat) (e : Int) (p : Nat) : Bool :=
  if e < 0 then den * Nat.pow 2 p ≤ num * Nat.pow 2 (-e).toNat
  else den * Nat.pow 2 (p + e.toNat) ≤ num

/-- The exponent of the last place at a positive fraction: the one at which the scaled fraction has
exactly as many bits as the precision, but not below the least one. -/
def BinaryFormat.lastPlace (fmt : BinaryFormat) (num den : Nat) : Int :=
  let guess : Int := (num.log2 : Int) - (den.log2 : Int) - (fmt.precision : Int)
  let e := if reaches num den guess fmt.precision then guess + 1 else guess
  max e fmt.leastExponent

def BinaryFormat.roundFraction (fmt : BinaryFormat) (num den : Nat) : Nat :=
  let e := fmt.lastPlace num den
  let count := (e - fmt.leastExponent).toNat * Nat.pow 2 (fmt.precision - 1) + roundScaled num den e
  min count fmt.infinity

def digitCount (n : Nat) : Nat := (Nat.toDigits 10 n).length

/-- The pattern of the member nearest to `digits * 10 ^ exponent`. Numbers beyond any finite
member's or any positive member's size are settled by the count of their digits alone. -/
def BinaryFormat.roundDecimal (fmt : BinaryFormat) (digits : Nat) (exponent : Int) : Nat :=
  if digits = 0 then 0
  else
    let magnitude := (digitCount digits : Int) + exponent
    if magnitude > 400 then fmt.infinity
    else if magnitude < -400 then 0
    else if exponent < 0 then fmt.roundFraction digits (Nat.pow 10 (-exponent).toNat)
    else fmt.roundFraction (digits * Nat.pow 10 exponent.toNat) 1

end AttributeTrees.Decimal
