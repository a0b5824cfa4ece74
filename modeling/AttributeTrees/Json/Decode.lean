import AttributeTrees.Json.Value
/-!
# Decoding values

How a JSON value is read as a typed one. Nothing is converted: a double is no whole number and a
number no string. A record may be given by its members, of which others than its own are ignored,
or as an array of its fields in their order.
-/
namespace AttributeTrees.Json.Decode

def bool? : Value → Option Bool
  | .bool b => some b
  | _ => none

def string? : Value → Option String
  | .string s => some s
  | _ => none

def int? (t : IntType) : Value → Option t.Value
  | .whole n => t.ofInt? n.val
  | _ => none

def list? {α : Type} (item : Value → Option α) : Value → Option (List α)
  | .array items => items.mapM item
  | _ => none

def mapping? {α : Type} (item : Value → Option α) : Value → Option (List (String × α))
  | .object members =>
    let pairs : Option (List (String × α)) :=
      members.mapM fun (m : String × Value) => (item m.2).map (m.1, ·)
    pairs.map fun ps => ps.mergeSort fun a b => decide (a.1 ≤ b.1)
  | _ => none

/-- A field of a record; one that is not required may be missing. -/
structure Field where
  name : String
  required : Bool

def positional? : List Field → List Value → Option (List (Option Value))
  | [], [] => some []
  | [], _ :: _ => none
  | f :: fs, [] => if f.required then none else (positional? fs []).map (none :: ·)
  | _ :: fs, v :: vs => (positional? fs vs).map (some v :: ·)

def record? (fields : List Field) : Value → Option (List (Option Value))
  | .object members =>
    fields.mapM fun f =>
      match members.lookup f.name with
      | some v => some (some v)
      | none => if f.required then none else some none
  | .array items => positional? fields items
  | _ => none

end AttributeTrees.Json.Decode
