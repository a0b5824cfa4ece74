import AttributeTrees.Members
import AttributeTrees.Run
/-!
# JSON values

A number is a whole number, if it was written as one and fits, or a double. The members of an
object keep the order in which they first came.
-/
namespace AttributeTrees.Json

/-- The whole numbers a value can hold: all that fit eight bytes, with a sign or without. -/
abbrev Whole : Type := { n : Int // -9223372036854775808 ≤ n ∧ n ≤ 18446744073709551615 }

inductive Value where
  | null
  | bool (b : Bool)
  | whole (n : Whole)
  | float (x : Float)
  | string (s : String)
  | array (items : List Value)
  | object (members : List (String × Value))
deriving Inhabited

namespace Value

def ofInt64 (v : IntType.int64.Value) : Value :=
  whole ⟨v.val, by have := v.property; simp only [IntType.low, IntType.high] at this; omega⟩

def ofNat64 (v : IntType.nat64.Value) : Value :=
  whole ⟨v.val, by have := v.property; simp only [IntType.low, IntType.high] at this; omega⟩

def ofFloat (x : Float) : Value := if x.isFinite then float x else null

def ofRun : Run → List Value
  | .nil count => List.replicate count null
  | .bool values => values.map bool
  | .int values => values.map ofInt64
  | .uint values => values.map ofNat64
  | .float values => values.map fun x => ofFloat x.toFloat
  | .double values => values.map ofFloat
  | .string values => values.map string

theorem length_ofRun (r : Run) : (ofRun r).length = r.length := by
  cases r <;> simp [ofRun, Run.length]

end Value

end AttributeTrees.Json
