import AttributeTrees.Document
import AttributeTrees.Yaml.Node
/-!
# YAML documents as trees

Scalars are texts and are read from them as any type. A sequence has its scalars as values, up to
the first part that is none.
-/
namespace AttributeTrees.Yaml.Node

def text? : Node → Option String
  | string s | real s => some s
  | whole n => some (toString n.val)
  | bool b => some (if b then "true" else "false")
  | null | bad | sequence _ | mapping _ => none

def kind : Node → Kind
  | sequence _ | mapping _ => .composite
  | string _ | real _ | whole _ | bool _ => .string
  | null | bad => .unknown

def isSequence : Node → Bool
  | sequence _ => true
  | _ => false

def childCount : Node → Nat
  | sequence items => items.length
  | mapping entries => entries.length
  | _ => 0

def child? : Node → Nat → Option (Option String × Node)
  | sequence items, i => items[i]?.map (none, ·)
  | mapping entries, i => entries[i]?.map fun (key, v) => (key.text?, v)
  | _, _ => none

def indexOf? : Node → String → Option Nat
  | mapping entries, name => entries.findIdx? (·.1.text? == some name)
  | sequence _, name => Numeral.index? name
  | _, _ => none

def valueCount : Node → Nat
  | sequence items => items.length
  | n => if n.text?.isSome then 1 else 0

def leadingTexts : List Node → List String
  | [] => []
  | n :: rest =>
    match n.text? with
    | some s => s :: leadingTexts rest
    | none => []

def fetchText (s : String) (offset : Nat) : (t : Element) → List t.Value → Nat × List t.Value
  | .char, slots => Span.copyEach (s.toList.drop offset) slots
  | t, slots => if offset = 0 then Span.counted (Span.setText t slots 0 s) else (0, slots)

def fetch (n : Node) (offset : Nat) (t : Element) (slots : List t.Value) :
    Nat × List t.Value :=
  match n with
  | sequence items => Span.fillText t (leadingTexts (items.drop offset)) slots
  | n =>
    match n.text? with
    | some s => fetchText s offset t slots
    | none => (0, slots)

mutual

def size : Node → Nat
  | sequence items => sizeItems items + 1
  | mapping entries => sizeEntries entries + 1
  | n => (n.text?.map String.length).getD 0 + 1

def sizeItems : List Node → Nat
  | [] => 0
  | n :: rest => n.size + sizeItems rest

def sizeEntries : List (Node × Node) → Nat
  | [] => 0
  | (_, n) :: rest => n.size + sizeEntries rest

end

def form : Document.Form Node where
  name _ := none
  preview := text?
  kind := kind
  isLink _ := false
  isList := isSequence
  childCount := childCount
  child? := child?
  indexOf? := indexOf?
  valueCount := valueCount
  fetch := fetch
  size := size

end AttributeTrees.Yaml.Node
