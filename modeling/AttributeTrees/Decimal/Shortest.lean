import AttributeTrees.Decimal.Rounding
/-!
# Shortest digits

The fewest decimal digits that read back as a given member of a binary format, and of those with
that many digits the nearest to it. A member `m * 2 ^ q` is read back from any decimal number that
lies between the middles to its two neighbours, the middles included if `m` is even. On a decimal
grid only the two points around the member need to be tried.
-/
namespace AttributeTrees.Decimal

inductive Tie where
  | up
  | toEven
deriving DecidableEq, Repr

structure Digits where
  digits : Nat
  exponent : Int
deriving DecidableEq, Repr

/-- A member of a format and the interval that reads back as it, all four over the same
denominator. -/
structure Interval where
  low : Nat
  value : Nat
  high : Nat
  den : Nat
  closed : Bool

def BinaryFormat.interval (fmt : BinaryFormat) (pattern : Nat) : Interval :=
  let step := Nat.pow 2 (fmt.precision - 1)
  let field := pattern / step
  let fraction := pattern % step
  let m := if field = 0 then fraction else fraction + step
  let q := fmt.leastExponent + ((if field = 0 then 0 else field - 1 : Nat) : Int) - 2
  -- below a power of two the neighbours lie twice as close
  let below := if fraction = 0 ∧ field > 1 then 1 else 2
  let closed := m % 2 = 0
  if q < 0 then ⟨4 * m - below, 4 * m, 4 * m + 2, Nat.pow 2 (-q).toNat, closed⟩
  else
    let scale := Nat.pow 2 q.toNat
    ⟨(4 * m - below) * scale, 4 * m * scale, (4 * m + 2) * scale, 1, closed⟩

def Interval.contains (i : Interval) (unit c : Nat) : Bool :=
  let x := c * unit
  if i.closed then i.low ≤ x && x ≤ i.high else i.low < x && x < i.high

def Interval.scaled (i : Interval) (k : Int) : Interval × Nat :=
  if k < 0 then
    let s := Nat.pow 10 (-k).toNat
    (⟨i.low * s, i.value * s, i.high * s, i.den, i.closed⟩, i.den)
  else (i, i.den * Nat.pow 10 k.toNat)

/-- The point of the grid of `10 ^ k` that is to stand for the value, if one lies in the
interval. -/
def Interval.onGrid? (i : Interval) (tie : Tie) (k : Int) : Option Nat :=
  let (j, unit) := i.scaled k
  let c := j.value / unit
  let rest := 2 * (j.value % unit)
  match j.contains unit c && c != 0, j.contains unit (c + 1) with
  | true, true =>
    if rest < unit then some c
    else if rest > unit then some (c + 1)
    else match tie with
      | .up => some (c + 1)
      | .toEven => some (c + c % 2)
  | true, false => some c
  | false, true => some (c + 1)
  | false, false => none

def Interval.search (i : Interval) (tie : Tie) : Nat → Int → Digits
  | 0, k => ⟨(i.scaled k).1.value / (i.scaled k).2, k⟩
  | fuel + 1, k =>
    match i.onGrid? tie k with
    | some c => ⟨c, k⟩
    | none => i.search tie fuel (k - 1)

def Interval.ceilingExponent (i : Interval) : Int :=
  ((i.value.log2 : Int) - (i.den.log2 : Int) + 1) * 30103 / 100000 + 1

def BinaryFormat.shortest (fmt : BinaryFormat) (tie : Tie) (pattern : Nat) : Digits :=
  let i := fmt.interval pattern
  i.search tie 40 i.ceilingExponent

end AttributeTrees.Decimal
