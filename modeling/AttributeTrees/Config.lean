import AttributeTrees.Config.Sources
import AttributeTrees.Content
/-!
# Configuration lookups

A key is looked for among the arguments, in the environment, in the documents of the groups and in
the secrets, in this order. A document is read once and kept, under the path it has without links,
until all are forgotten.
-/
namespace AttributeTrees

structure Found where
  content : Content
  node : Location

namespace Found

def access (f : Found) (d : Disk) : Access Id Location := f.content.access d

def first (f : Found) (d : Disk) (t : Element) : Option t.Value := (f.access d).first f.node t

end Found

structure Config where
  sources : Config.Sources
  documents : List (String × Content)

namespace Config

inductive Origin where
  | argument
  | environment
deriving DecidableEq, Repr

def Origin.name : Origin → String
  | argument => "command line argument"
  | environment => "environment variable"

inductive Fault where
  | conversion (key : String) (origin : Origin) (value : String)
  | wrongType (key : String)
  | missingValue (argument : String)
deriving DecidableEq, Repr

def Fault.message : Fault → String
  | conversion key origin value =>
    "cannot convert " ++ origin.name ++ " value " ++ Text.Quoted.string value ++ " for '" ++ key ++
      "'"
  | wrongType key => "configuration value for '" ++ key ++ "' has the wrong type"
  | missingValue argument => "missing value after '" ++ argument ++ "'"

def ofSources (s : Sources) : Config := ⟨s, []⟩

def reload (c : Config) : Config := { c with documents := [] }

abbrev Lookup := StateM Config

/-- The document that a file holds. What is malformed has nothing in it. -/
def parse (path text : String) : Content :=
  if Disk.extension? path == some "json" then (Content.ofJson? text).getD .empty
  else (Content.ofYaml? text).getD .empty

def document (d : Disk) (file : String) : Lookup (Option Content) := do
  match d.resolve file, d.read? file with
  | .ok names, some bytes =>
    let path := Disk.absolute names
    let c ← get
    match c.documents.lookup path with
    | some content => return some content
    | none =>
      match Text.Utf8.decode? bytes with
      | some text =>
        let content := parse path (String.ofList text)
        set { c with documents := (path, content) :: c.documents }
        return some content
      | none => return none
  | _, _ => return none

def within (d : Disk) (content : Content) (p : Path) (tags : List String) : Option Found :=
  ((content.access d).resolve (content.root d) p tags).map fun node => ⟨content, node⟩

def inFiles (d : Disk) (p : Path) (tags : List String) : List String → Lookup (Option Found)
  | [] => return none
  | file :: rest => do
    match (← document d file).bind fun content => within d content p tags with
    | some found => return some found
    | none => inFiles d p tags rest

def find (d : Disk) (key : String) (tag : Option String) : Lookup (Option Found) := do
  let s := (← get).sources
  let p := Path.ofDotted key
  let tags := s.allTags tag
  match ← inFiles d p tags (s.files tags) with
  | some found => return some found
  | none => return s.secrets.bind fun dir => within d (.files dir) p tags

def firstOf (t : Element) (texts : List (Option String)) : Option t.Value :=
  texts.findSome? fun text => text.bind t.read?

def fetch (d : Disk) (key : String) (tag : Option String) (t : Element) :
    Lookup (Option t.Value) := do
  let s := (← get).sources
  match firstOf t (s.argumentValues key ++ [s.setting? key]) with
  | some v => return some v
  | none => return (← find d key tag).bind fun found => found.first d t

def convert (key : String) (origin : Origin) (t : Element) (text : String) : Except Fault t.Value :=
  match t.read? text with
  | some v => .ok v
  | none => .error (.conversion key origin text)

/-- The values of a node, each of which has to convert. A file is one value. -/
def valuesOf (d : Disk) (key : String) (t : Element) (found : Found) :
    Except Fault (List t.Value) :=
  let a := found.access d
  let kind : Kind := a.kind found.node
  let count : Nat := a.valueCount found.node
  if kind == .byte then
    if count == 0 then .ok []
    else
      match found.first d t with
      | some v => .ok [v]
      | none => .error (.wrongType key)
  else
    let values : List t.Value := a.all found.node t
    if values.length < count then .error (.wrongType key) else .ok values

def texts (s : Sources) (key : String) (t : Element) : Except Fault (List t.Value) := do
  let fromArguments ← (s.argumentValues key).mapM fun text =>
    match text with
    | some text => convert key .argument t text
    | none => .error (.missingValue (argumentName key))
  let fromEnvironment ← (s.setting? key).toList.mapM (convert key .environment t)
  return fromArguments ++ fromEnvironment

def fetchAll (d : Disk) (key : String) (tag : Option String) (t : Element) :
    Lookup (Except Fault (List t.Value)) := do
  match texts (← get).sources key t with
  | .error f => return .error f
  | .ok before =>
    match ← find d key tag with
    | none => return .ok before
    | some found => return (valuesOf d key t found).map (before ++ ·)

def flagOf (s : Sources) (key : String) : Option Bool :=
  let read (text : String) := Element.readBool? text
  ((s.argumentValues key).findSome? fun text =>
    match text with
    | some text => read text
    | none => some true).or ((s.setting? key).bind read)

def isSet (d : Disk) (key : String) (tag : Option String) : Lookup Bool := do
  match flagOf (← get).sources key with
  | some b => return b
  | none => return ((← find d key tag).bind fun found => found.first d .bool).getD false

end Config

end AttributeTrees
