import AttributeTrees.Element
/-!
# Buffers

The destination of a read: a list of slots that keeps its length. Items are stored from the first
slot on until an item has no value or no slot is left, and what always has values is copied; slots
not reached keep what they held.
-/
namespace AttributeTrees.Span

variable {α : Type}

def store (slots : List α) (index : Nat) (value : Option α) : Bool × List α :=
  match value with
  | some v => if index < slots.length then (true, slots.set index v) else (false, slots)
  | none => (false, slots)

def counted (stored : Bool × List α) : Nat × List α := (stored.1.toNat, stored.2)

/-- Stores items from an index on, up to the first that is not stored. Answers the index behind the
last that was. -/
def fillFrom (index : Nat) : List (Option α) → List α → Nat × List α
  | [], slots => (index, slots)
  | item :: items, slots =>
    match store slots index item with
    | (true, slots) => fillFrom (index + 1) items slots
    | (false, slots) => (index, slots)

def fill (items : List (Option α)) (slots : List α) : Nat × List α := fillFrom 0 items slots

def setText (t : Element) (slots : List t.Value) (index : Nat) (s : String) :
    Bool × List t.Value :=
  store slots index (t.read? s)

def fillText (t : Element) (texts : List String) (slots : List t.Value) : Nat × List t.Value :=
  fill (texts.map t.read?) slots

def copyEach : List α → List α → Nat × List α
  | v :: source, _ :: slots =>
    let (n, copied) := copyEach source slots
    (n + 1, v :: copied)
  | _, slots => (0, slots)

def copyBlock (source slots : List α) : Nat × List α :=
  let n := min source.length slots.length
  (n, source.take n ++ slots.drop n)

end AttributeTrees.Span
