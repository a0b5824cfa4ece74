import AttributeTrees.Decimal.Layout
import AttributeTrees.Element
import AttributeTrees.Text.Quoted
/-!
# Runs of values

What a traversal hands over at once: values of one sort in a row.
-/
namespace AttributeTrees

inductive Run where
  | nil (count : Nat)
  | bool (values : List Bool)
  | int (values : List IntType.int64.Value)
  | uint (values : List IntType.nat64.Value)
  | float (values : List Float32)
  | double (values : List Float)
  | string (values : List String)

namespace Run

def length : Run → Nat
  | nil count => count
  | bool values => values.length
  | int values => values.length
  | uint values => values.length
  | float values => values.length
  | double values => values.length
  | string values => values.length

def isEmpty (r : Run) : Bool := r.length == 0

def sortName : Run → String
  | nil _ => "nil"
  | bool _ => "bool"
  | int _ => "int"
  | uint _ => "uint"
  | float _ => "float"
  | double _ => "double"
  | string _ => "string"

def boolText (b : Bool) : String := if b then "true" else "false"

def texts : Run → List String
  | nil count => List.replicate count "null"
  | bool values => values.map boolText
  | int values => values.map fun v => toString v.val
  | uint values => values.map fun v => toString v.val
  | float values => values.map Decimal.plainFloat32
  | double values => values.map Decimal.plainFloat
  | string values => values

def text? (r : Run) (index : Nat) : Option String := r.texts[index]?

def display : Run → String
  | string values => ", ".intercalate (values.map Text.Quoted.string)
  | r => ", ".intercalate r.texts

end Run

end AttributeTrees
