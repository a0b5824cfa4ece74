/-!
# Kinds

What a node of a tree holds by nature. Values may be read as other types too; the kind names the
one that needs no conversion.
-/
namespace AttributeTrees

inductive Kind where
  | unknown
  | bool
  | byte
  | int16
  | int32
  | int64
  | float
  | duration
  | string
  | composite
deriving DecidableEq, Repr

namespace Kind

def name : Kind → String
  | unknown => "unknown"
  | bool => "bool"
  | byte => "byte"
  | int16 => "int16"
  | int32 => "int32"
  | int64 => "int64"
  | float => "float"
  | duration => "duration"
  | string => "string"
  | composite => "composite"

def isScalar : Kind → Bool
  | unknown | composite => false
  | _ => true

def all : List Kind :=
  [unknown, bool, byte, int16, int32, int64, float, duration, string, composite]

def ofName (text : String) : Kind := (all.find? (·.name == text)).getD unknown

end Kind

end AttributeTrees
