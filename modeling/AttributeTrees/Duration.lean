import AttributeTrees.Decimal.Reading
import AttributeTrees.Text.Blank
/-!
# Durations

A span of time in whole nanoseconds. Its text is a count and a unit, as in `1.5s`, `250ms` or
`2min`; a bare number counts seconds. The count is a double, and the product with the unit's length
is rounded to a whole number of nanoseconds, a half upwards. Negative lengths and lengths of
2^64 nanoseconds or more are no durations.
-/
namespace AttributeTrees

structure Duration where
  nanos : Nat
deriving DecidableEq, Repr

namespace Duration

def nanosPerSecond : Nat := 1000000000

def units : List (String × Float) :=
  [("s", 1e9), ("ms", 1e6), ("us", 1e3), ("μs", 1e3), ("ns", 1.0), ("min", 60.0 * 1e9),
    ("hr", 3600.0 * 1e9), ("dy", 86400.0 * 1e9), ("yr", 31556952.0 * 1e9),
    ("a", 31556952.0 * 1e9)]

def ofNanos? (x : Float) : Option Duration :=
  if x.isFinite && 0.0 ≤ x && x < 18446744073709551616.0 then some ⟨x.round.toUInt64.toNat⟩
  else none

def ofSeconds? (x : Float) : Option Duration := ofNanos? (x * 1e9)

/-- The first unit that ends the text behind a number settles what the text denotes. -/
def ofUnits (text : List Char) : List (String × Float) → Option (Option Duration)
  | [] => none
  | (suffix, nanos) :: rest =>
    match Text.stripSuffix? suffix.toList text with
    | none => ofUnits text rest
    | some count =>
      match Decimal.readFloat? (Text.trimRight count) with
      | some x => some (ofNanos? (x * nanos))
      | none => ofUnits text rest

def ofText? (text : String) : Option Duration :=
  let trimmed := Text.trim text.toList
  match ofUnits trimmed units with
  | some d => d
  | none => (Decimal.readFloat? trimmed).bind ofSeconds?

def seconds (d : Duration) : Float :=
  (d.nanos / nanosPerSecond).toUInt64.toFloat +
    (d.nanos % nanosPerSecond).toUInt64.toFloat / 1e9

end Duration

end AttributeTrees
