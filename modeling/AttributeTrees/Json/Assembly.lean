import AttributeTrees.Build.Placing
import AttributeTrees.Json.Value
/-!
# Assembling a document

A builder that puts together a JSON value from runs of values at paths, and decodes it to a type
when the traversal finishes. On the way to a path, what is null becomes an object, and an array
grows by one item if the segment is the index just behind its last. At anything else the path cannot
enter the change comes to nothing.
-/
namespace AttributeTrees.Json

open Build (Builder Step)

namespace Value

def opened : Value → Value
  | null => object []
  | v => v

/-- A value after a change at a path, and whether the path led to the part that `f` changes. What is
missing on the way is made before it is known how the path goes on. -/
def alter (f : Value → Value) : List String → Value → Value × Bool
  | [], v => (f v, true)
  | key :: path, v =>
    match v.opened with
    | object members =>
      let below := alter f path ((members.lookup key).getD null)
      (object (Members.put key below.1 members), below.2)
    | array items =>
      match Numeral.index? key with
      | none => (array items, false)
      | some i =>
        let items := if i = items.length then items ++ [null] else items
        match items[i]? with
        | none => (array items, false)
        | some item =>
          let below := alter f path item
          (array (items.set i below.1), below.2)
    | v => (v, false)

/-- Puts a run where a value is: an array takes it at its end, otherwise a single value stands for
itself and any other run is an array. -/
def addRun (run : Run) : Value → Value
  | array items => array (items ++ ofRun run)
  | _ =>
    match ofRun run with
    | [single] => single
    | items => array items

def toObject : Value → Value
  | object members => object members
  | _ => object []

end Value

structure Assembly (α : Type) where
  document : Value
  result : Option α

namespace Assembly

variable {α : Type}

def empty : Assembly α := ⟨.null, none⟩

def change (a : Assembly α) (path : Path) (f : Value → Value) : Assembly α :=
  { a with document := (a.document.alter f path.segments).1 }

def receive (decode : Value → Option α) (a : Assembly α) : Step → Assembly α
  | .start => empty
  | .add path run => a.change path (.addRun run)
  | .addObject path => a.change path .toObject
  | .addList path => a.change path fun _ => .array []
  | .finishObject _ | .finishList _ | .unparsed _ => a
  | .finish =>
    match decode a.document with
    | some v => { a with result := some v }
    | none => a
  | .fail => { a with result := none }

def builder (decode : Value → Option α) : Builder (Assembly α) where
  wantsMore _ := true
  receive := receive decode
  verdict a := (decode a.document).isSome

end Assembly

end AttributeTrees.Json
