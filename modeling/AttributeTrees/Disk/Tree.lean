import AttributeTrees.Access
import AttributeTrees.Disk
import AttributeTrees.Text.Blank
/-!
# Directories as trees

The children of a directory are its entries in the order of their names. A file has its bytes as
values. Its characters are read from a byte on, with U+FFFD for what is none; as another type only
its first word is read, and only within its first 64 bytes.
-/
namespace AttributeTrees.Disk

open Text.Utf8 (Bytes)

structure Node where
  path : String
  real : String
deriving Repr

/-- Nodes are the same if they were reached by the same path. -/
instance : BEq Node := ⟨fun a b => components a.path == components b.path⟩

namespace Node

def ofPath (d : Disk) (path : String) : Node := ⟨path, d.realPath path⟩

def isEntryName (name : String) : Bool :=
  !name.isEmpty && name != "." && name != ".." && name.toList.all fun c => c != '/' && c != '\\'

def childAt (d : Disk) (n : Node) (index : Nat) : Option Node :=
  (d.names n.path)[index]?.map fun name => ofPath d (join n.path name)

def childNamed (d : Disk) (n : Node) (name : String) : Option Node :=
  if isEntryName name && (d.linkStat? (join n.path name)).isSome then
    some (ofPath d (join n.path name))
  else none

def wordWindow : Nat := 64

def word? (content : Bytes) : Option String :=
  (Text.firstWord? (Text.Utf8.decodeLossy (content.take wordWindow))).map String.ofList

/-- The characters of `count` of the longest characters' bytes. -/
def characters (content : Bytes) (offset count : Nat) : List Char :=
  Text.Utf8.decodeLossy ((content.drop offset).take (4 * count))

def fetchFile (content : Bytes) (offset : Nat) : (t : Element) → List t.Value → Nat × List t.Value
  | .int .byte, slots =>
    Span.copyBlock (((content.drop offset).take slots.length).map IntType.ofByte) slots
  | .char, slots => Span.copyEach (characters content offset slots.length) slots
  | t, slots =>
    if slots.length = 1 ∧ offset = 0 then
      match word? content with
      | some word => Span.counted (Span.setText t slots 0 word)
      | none => (0, slots)
    else (0, slots)

def fetch (d : Disk) (n : Node) (offset : Nat) (t : Element) (slots : List t.Value) :
    Nat × List t.Value :=
  match slots, d.read? n.real with
  | _ :: _, some content => fetchFile content offset t slots
  | _, _ => (0, slots)

def valueCount (d : Disk) (n : Node) : Nat := ((d.read? n.real).map List.length).getD 0

end Node

def access (d : Disk) : Access Id Node where
  name n := fileName? n.path
  preview n := some n.real
  kind _ := .byte
  isImmutable _ := false
  isLink n := d.isLink n.path
  isList _ := false
  childCount n := (d.names n.path).length
  childAt n index := n.childAt d index
  childNamed n name := n.childNamed d name
  valueCount n := n.valueCount d
  fetch n offset t slots := n.fetch d offset t slots
  release _ := ()
  size _ := d.size

end AttributeTrees.Disk
