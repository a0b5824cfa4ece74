import AttributeTrees.Duration
/-!
# Element types

The types a value can be read as, and how a text reads as each of them. A text that does not apply
yields nothing, never an error.
-/
namespace AttributeTrees

inductive IntType where
  | byte
  | int16
  | int32
  | int64
  | nat16
  | nat32
  | nat64
deriving DecidableEq, Repr

namespace IntType

def low : IntType → Int
  | byte | nat16 | nat32 | nat64 => 0
  | int16 => -32768
  | int32 => -2147483648
  | int64 => -9223372036854775808

def high : IntType → Int
  | byte => 255
  | int16 => 32767
  | int32 => 2147483647
  | int64 => 9223372036854775807
  | nat16 => 65535
  | nat32 => 4294967295
  | nat64 => 18446744073709551615

def hasSign : IntType → Bool
  | byte | nat16 | nat32 | nat64 => false
  | int16 | int32 | int64 => true

abbrev Value (t : IntType) : Type := { n : Int // t.low ≤ n ∧ n ≤ t.high }

def ofInt? (t : IntType) (n : Int) : Option t.Value :=
  if h : t.low ≤ n ∧ n ≤ t.high then some ⟨n, h⟩ else none

def zero (t : IntType) : t.Value := ⟨0, by cases t <;> decide⟩

def ofText? (t : IntType) (text : List Char) : Option t.Value :=
  if t.hasSign then (Numeral.signed? 10 text).bind t.ofInt?
  else (Numeral.unsigned? 10 text).bind fun n => t.ofInt? n

def ofByte (b : UInt8) : byte.Value :=
  ⟨b.toNat, by have := b.toNat_lt; simp only [low, high]; omega⟩

def toByte (v : byte.Value) : UInt8 := v.val.toNat.toUInt8

@[simp] theorem ofInt?_val (t : IntType) (v : t.Value) : t.ofInt? v.val = some v := by
  simp [ofInt?, v.property]

end IntType

inductive Element where
  | bool
  | tribool
  | char
  | int (type : IntType)
  | float
  | duration
  | text
deriving DecidableEq, Repr

namespace Element

abbrev Value : Element → Type
  | bool => Bool
  | tribool => Option Bool
  | char => Char
  | int t => t.Value
  | float => Float32
  | duration => Duration
  | text => String

def default : (t : Element) → t.Value
  | bool => false
  | tribool => none
  | char => Char.ofNat 0
  | int t => t.zero
  | float => 0
  | duration => ⟨0⟩
  | text => ""

def trueWords : List String := ["true", "True", "TRUE", "1", "t", "T", "yes", "on"]

def falseWords : List String := ["false", "False", "FALSE", "0", "f", "F", "no", "off"]

def undecidedWords : List String := ["indeterminate", "null", "~"]

def trimmed (s : String) : String := String.ofList (Text.trim s.toList)

def readBool? (s : String) : Option Bool :=
  if trueWords.contains (trimmed s) then some true
  else if falseWords.contains (trimmed s) then some false
  else none

def readTribool? (s : String) : Option (Option Bool) :=
  if undecidedWords.contains (trimmed s) then some none else (readBool? s).map some

def readChar? (s : String) : Option Char :=
  match s.toList with
  | [c] => some c
  | _ => none

def read? : (t : Element) → String → Option t.Value
  | bool, s => readBool? s
  | tribool, s => readTribool? s
  | char, s => readChar? s
  | int t, s => t.ofText? (Text.trim s.toList)
  | float, s => Decimal.readFloat32? (Text.trim s.toList)
  | duration, s => Duration.ofText? s
  | text, s => some s

end Element

end AttributeTrees
