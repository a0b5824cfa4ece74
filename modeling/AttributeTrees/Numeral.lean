/-!
# Whole numerals

A whole number in decimal: digits, at least one, behind an optional sign. Where only numbers from
zero on are admitted, the sign may only be a plus. Leading zeros are allowed, white space is not.
-/
namespace AttributeTrees.Numeral

def digitIn? (base : Nat) (c : Char) : Option Nat :=
  let value :=
    if '0' ≤ c ∧ c ≤ '9' then some (c.toNat - '0'.toNat)
    else if 'a' ≤ c ∧ c ≤ 'z' then some (c.toNat - 'a'.toNat + 10)
    else if 'A' ≤ c ∧ c ≤ 'Z' then some (c.toNat - 'A'.toNat + 10)
    else none
  value.filter (· < base)

def digitsFrom? (base : Nat) : Nat → List Char → Option Nat
  | value, [] => some value
  | value, c :: rest => do
    let d ← digitIn? base c
    digitsFrom? base (value * base + d) rest

def digits? (base : Nat) (text : List Char) : Option Nat :=
  if text.isEmpty then none else digitsFrom? base 0 text

def signed? (base : Nat) : List Char → Option Int
  | '-' :: rest => (digits? base rest).map fun n => -(n : Int)
  | '+' :: rest => (digits? base rest).map Int.ofNat
  | text => (digits? base text).map Int.ofNat

def unsigned? (base : Nat) : List Char → Option Nat
  | '+' :: rest => digits? base rest
  | text => digits? base text

def maxIndex : Nat := 18446744073709551615

def index? (segment : String) : Option Nat := (unsigned? 10 segment.toList).filter (· ≤ maxIndex)

end AttributeTrees.Numeral
