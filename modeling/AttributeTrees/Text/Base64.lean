import AttributeTrees.Text.Utf8
/-!
# Base64

The standard alphabet with padding that must be there and must be canonical: the text comes in
groups of four, only the last of which may end in one or two `=`, and the bits a padded group does
not use are zero.
-/
namespace AttributeTrees.Text.Base64

open Utf8 (Bytes)

def sextet? (c : Char) : Option Nat :=
  if 'A' ≤ c ∧ c ≤ 'Z' then some (c.toNat - 'A'.toNat)
  else if 'a' ≤ c ∧ c ≤ 'z' then some (c.toNat - 'a'.toNat + 26)
  else if '0' ≤ c ∧ c ≤ '9' then some (c.toNat - '0'.toNat + 52)
  else if c = '+' then some 62
  else if c = '/' then some 63
  else none

def lastGroup? (a b c d : Char) : Option Bytes := do
  let x ← sextet? a
  let y ← sextet? b
  if c = '=' then
    if d = '=' ∧ y % 16 = 0 then some [(x * 4 + y / 16).toUInt8] else none
  else
    let z ← sextet? c
    if d = '=' then
      if z % 4 = 0 then some [(x * 4 + y / 16).toUInt8, (y % 16 * 16 + z / 4).toUInt8] else none
    else
      let w ← sextet? d
      some [(x * 4 + y / 16).toUInt8, (y % 16 * 16 + z / 4).toUInt8, (z % 4 * 64 + w).toUInt8]

def innerGroup? (a b c d : Char) : Option Bytes := do
  let x ← sextet? a
  let y ← sextet? b
  let z ← sextet? c
  let w ← sextet? d
  some [(x * 4 + y / 16).toUInt8, (y % 16 * 16 + z / 4).toUInt8, (z % 4 * 64 + w).toUInt8]

def decode? : List Char → Option Bytes
  | [] => some []
  | [a, b, c, d] => lastGroup? a b c d
  | a :: b :: c :: d :: rest => do
    let bytes ← innerGroup? a b c d
    let more ← decode? rest
    some (bytes ++ more)
  | _ => none

end AttributeTrees.Text.Base64
