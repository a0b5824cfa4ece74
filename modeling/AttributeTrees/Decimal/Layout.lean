import AttributeTrees.Decimal.Shortest
/-!
# Writing floating-point numbers

A layout says how the shortest digits of a number are set: which numbers are written with all their
places, which with an exponent, and whether a whole number keeps a point.
-/
namespace AttributeTrees.Decimal

structure Layout where
  /-- The powers of ten between which numbers are written with all their places: from the first on,
  below the second. Without them every number is. -/
  positional : Option (Int × Int)
  marksWhole : Bool
  tie : Tie

def Layout.plain : Layout := ⟨none, false, .up⟩

/-- All places from `0.00001` to below `1e16`, an exponent with its sign beyond. -/
def Layout.json : Layout := ⟨some (-5, 16), true, .toEven⟩

namespace Layout

def zeros (n : Nat) : List Char := List.replicate n '0'

def places (layout : Layout) (digits : List Char) (point : Int) : List Char :=
  if point ≤ 0 then '0' :: '.' :: zeros (-point).toNat ++ digits
  else
    let n := point.toNat
    if digits.length ≤ n then
      digits ++ zeros (n - digits.length) ++ (if layout.marksWhole then ['.', '0'] else [])
    else digits.take n ++ '.' :: digits.drop n

def scientific (digits : List Char) (point : Int) : List Char :=
  let mantissa :=
    match digits with
    | [] => []
    | [d] => [d]
    | d :: rest => d :: '.' :: rest
  let e := point - 1
  mantissa ++ 'e' :: (if e < 0 then '-' else '+') :: (toString e.natAbs).toList

def digitsText (layout : Layout) (d : Digits) : List Char :=
  let digits := Nat.toDigits 10 d.digits
  let point := (digits.length : Int) + d.exponent
  match layout.positional with
  | some (low, high) =>
    if low < point ∧ point ≤ high then layout.places digits point else scientific digits point
  | none => layout.places digits point

def patternText (layout : Layout) (fmt : BinaryFormat) (negative : Bool) (pattern : Nat) :
    String :=
  let sign := if negative then ['-'] else []
  if fmt.infinity < pattern then "NaN"
  else if pattern = fmt.infinity then String.ofList (sign ++ "inf".toList)
  else if pattern = 0 then
    String.ofList (sign ++ (if layout.marksWhole then "0.0".toList else ['0']))
  else String.ofList (sign ++ layout.digitsText (fmt.shortest layout.tie pattern))

def float (layout : Layout) (x : Float) : String :=
  let bits := x.toBits.toNat
  layout.patternText .double (0x8000000000000000 ≤ bits) (bits % 0x8000000000000000)

def float32 (layout : Layout) (x : Float32) : String :=
  let bits := x.toBits.toNat
  layout.patternText .single (0x80000000 ≤ bits) (bits % 0x80000000)

end Layout

def plainFloat (x : Float) : String := Layout.plain.float x

def plainFloat32 (x : Float32) : String := Layout.plain.float32 x

end AttributeTrees.Decimal
