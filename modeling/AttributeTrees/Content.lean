import AttributeTrees.Disk.Tree
import AttributeTrees.Json.Reading
import AttributeTrees.Json.Tree
import AttributeTrees.Sketch
import AttributeTrees.Yaml.Tree
/-!
# Contents of trees

What a tree can be made of by itself: a document, a sketch, a directory of a disk, or nothing.
-/
namespace AttributeTrees

inductive Location where
  | document (place : Document.Place)
  | file (node : Disk.Node)
  | stacked (path : Path)

namespace Location

def same : Location → Location → Bool
  | document a, document b => a == b
  | file a, file b => a == b
  | stacked a, stacked b => a == b
  | _, _ => false

instance : BEq Location := ⟨same⟩

def place? : Location → Option Document.Place
  | document place => some place
  | _ => none

def file? : Location → Option Disk.Node
  | file node => some node
  | _ => none

def stacked? : Location → Option Path
  | stacked path => some path
  | _ => none

end Location

inductive Content where
  | json (document : Json.Value)
  | yaml (document : Yaml.Node)
  | sketch (root : Sketch)
  | files (path : String)
  | empty

namespace Content

def sort : Content → String
  | json _ => "json"
  | yaml _ => "yaml"
  | sketch _ => "toy"
  | files _ => "filesystem"
  | empty => "empty"

def size : Content → Nat
  | json document => document.size
  | yaml document => document.size
  | sketch root => root.size
  | files _ | empty => 0

def root (c : Content) (d : Disk) : Location :=
  match c with
  | files path => .file (Disk.Node.ofPath d path)
  | _ => .document []

def access (c : Content) (d : Disk) : Access Id Location :=
  match c with
  | json document => (Document.access Json.Value.form document).disguise .document Location.place?
  | yaml document => (Document.access Yaml.Node.form document).disguise .document Location.place?
  | sketch root => (Document.access Sketch.form root).disguise .document Location.place?
  | files _ => (Disk.access d).disguise .file Location.file?
  | empty => { Access.nothing with isImmutable := fun _ => true }

def ofJson? (text : String) : Option Content := (Json.Reading.ofText text).toOption.map json

def ofYaml? (text : String) : Option Content := (Yaml.Node.ofText? text.toList).map yaml

end Content

end AttributeTrees
