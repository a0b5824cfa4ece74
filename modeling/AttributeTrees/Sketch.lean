import AttributeTrees.Document
/-!
# Sketched trees

A tree that is written down node by node, with all that can be asked about each. Its values are
texts and read as what their texts read as.
-/
namespace AttributeTrees

inductive Sketch where
  | node (name : Option String) (kind : Kind) (values : List String) (children : List Sketch)
    (isList isLink : Bool)

namespace Sketch

instance : Inhabited Sketch := ⟨node none .unknown [] [] false false⟩

def name : Sketch → Option String
  | node name _ _ _ _ _ => name

def kind : Sketch → Kind
  | node _ kind _ _ _ _ => kind

def values : Sketch → List String
  | node _ _ values _ _ _ => values

def children : Sketch → List Sketch
  | node _ _ _ children _ _ => children

def isList : Sketch → Bool
  | node _ _ _ _ isList _ => isList

def isLink : Sketch → Bool
  | node _ _ _ _ _ isLink => isLink

mutual

def size : Sketch → Nat
  | node _ _ values children _ _ => values.length + sizeAll children + 1

def sizeAll : List Sketch → Nat
  | [] => 0
  | s :: rest => s.size + sizeAll rest

end

def form : Document.Form Sketch where
  name := name
  preview _ := none
  kind := kind
  isLink := isLink
  isList := isList
  childCount s := s.children.length
  child? s i := s.children[i]?.map fun child => (child.name, child)
  indexOf? s name := s.children.findIdx? (·.name == some name)
  valueCount s := s.values.length
  fetch s offset t slots := Span.fillText t (s.values.drop offset) slots
  size := size

end Sketch

end AttributeTrees
