import AttributeTrees.Command.Arguments
import AttributeTrees.Config
import AttributeTrees.Feed
import AttributeTrees.Json.Stream.Machine
import AttributeTrees.Traversal
import AttributeTrees.Visit.Printer
import AttributeTrees.Yaml.Replay
/-!
# Commands

What the program does with its arguments: print the events of a document, find the values at a key,
list a tree, or look up a configuration value. What it writes and how it ends is all determined by
the arguments, the environment and the disk.
-/
namespace AttributeTrees

open Text.Utf8 (Bytes)

inductive Command where
  | print (file : String)
  | find (path key : String) (tags : List String)
  | tree (path : String)
  | config (application key : String) (directories : List String) (secrets : Option String)
    (tags : List String) (group : Option String) (all : Bool)

namespace Command

def tagChoice : Choice := ⟨"tag", some 't', true, true, false⟩

def configChoices : List Choice :=
  [⟨"dir", some 'd', true, true, true⟩, ⟨"secrets", none, true, false, true⟩, tagChoice,
    ⟨"group", some 'g', true, false, false⟩, ⟨"all", none, false, false, false⟩]

def ofArguments? : List String → Option Command
  | [] => none
  | name :: rest =>
    match name with
    | "print" => do
      match ← valid? [] rest with
      | ⟨_, [file]⟩ => if file.isEmpty then none else some (print file)
      | _ => none
    | "find" => do
      match ← valid? [tagChoice] rest with
      | ⟨options, [path, key]⟩ =>
        if path.isEmpty then none else some (find path key (Given.values ⟨options, []⟩ "tag"))
      | _ => none
    | "tree" => do
      match ← valid? [] rest with
      | ⟨_, [path]⟩ => if path.isEmpty then none else some (tree path)
      | _ => none
    | "config" => do
      let g ← valid? configChoices rest
      match g.others with
      | [application, key] =>
        some (config application key (g.values "dir") (g.values "secrets").head? (g.values "tag")
          (g.values "group").head? (g.has "all"))
      | _ => none
    | _ => none

def paths : Command → List String
  | print file => [file]
  | find path _ _ => [path]
  | tree path => [path]
  | config _ _ directories secrets _ _ _ => directories ++ secrets.toList

def neededVariable : Command → Option String
  | config application key _ _ _ _ _ =>
    some (Config.variableName (Config.variableOwner application) key)
  | _ => none

inductive Fault where
  | unsupported (path : String)
  | opening (path : String)
  | reading (path : String)
  | parsing (path : String)
  | noAccess (path : String) (cause : Disk.Fault)
  | noValue (key path : String)
  | configuration (fault : Config.Fault)
  | noConfiguration (key : String)

def Fault.message : Fault → String
  | unsupported path => "unsupported document type: " ++ path
  | opening path => "failed to open " ++ path
  | reading path => "failed to read " ++ path
  | parsing path => "failed to parse " ++ path
  | noAccess path cause => "cannot access " ++ path ++ ": " ++ cause.message
  | noValue key path => "no value at '" ++ key ++ "' in " ++ path
  | configuration fault => fault.message
  | noConfiguration key => "no configuration value for '" ++ key ++ "'"

structure Result where
  output : Bytes
  fault : Option Fault

def Result.ofLines : Except Fault (List String) → Result
  | .ok lines => ⟨Text.Utf8.encodeString (String.join (lines.map (· ++ "\n"))), none⟩
  | .error f => ⟨[], some f⟩

inductive Format where
  | json
  | yaml
deriving DecidableEq, Repr

def Format.ofPath? (path : String) : Option Format :=
  match Disk.extension? path with
  | some "json" => some json
  | some "yaml" | some "yml" => some yaml
  | _ => none

def Format.parse? (f : Format) (text : String) : Option Content :=
  match f with
  | json => Content.ofJson? text
  | yaml => Content.ofYaml? text

def isDirectory (d : Disk) (path : String) : Bool :=
  match d.stat? path with
  | some (.directory _) => true
  | _ => false

def openTree (d : Disk) (path : String) : Except Fault Content :=
  match if isDirectory d path then none else Format.ofPath? path with
  | some format =>
    match (d.contents? path).bind Text.Utf8.decode? with
    | some text =>
      match format.parse? (String.ofList text) with
      | some content => .ok content
      | none => .error (.parsing path)
    | none => .error (.reading path)
  | none =>
    match d.resolve path with
    | .ok _ => .ok (.files path)
    | .error cause => .error (.noAccess path cause)

def pieceSize : Nat := 4096

def pieces : Nat → Bytes → List Bytes
  | 0, _ => []
  | fuel + 1, bytes =>
    if bytes.isEmpty then [] else bytes.take pieceSize :: pieces fuel (bytes.drop pieceSize)

def feedAll {π : Type} (p : Parser π) (s : π) (data : List Bytes) : Bool × π :=
  let f := (data.foldl (Feed.give p) (Feed.start p s)).finish p
  (f.verdict.getD false, f.parser)

def printEvents (format : Format) (bytes : Bytes) : Bool × Bytes :=
  let printer := Visit.Printer.onto .unlimited
  let data := pieces (bytes.length + 1) bytes
  match format with
  | .json =>
    let (ok, m) := feedAll (Json.Stream.Machine.parser Visit.Printer.visitor) (.onto printer) data
    (ok, m.visitor.sink.written)
  | .yaml =>
    let (ok, p) := feedAll (Yaml.Pending.parser Visit.Printer.visitor) ⟨printer, []⟩ data
    (ok, p.visitor.sink.written)

def runPrint (d : Disk) (file : String) : Result :=
  match Format.ofPath? file with
  | none => ⟨[], some (.unsupported file)⟩
  | some format =>
    match d.stat? file, d.contents? file with
    | _, some bytes =>
      let (ok, output) := printEvents format bytes
      ⟨output, if ok then none else some (.parsing file)⟩
    | some _, none => ⟨(printEvents format []).2, some (.reading file)⟩
    | none, none => ⟨[], some (.opening file)⟩

def trimLineFeeds (s : String) : String :=
  String.ofList (s.toList.reverse.dropWhile (· == '\n')).reverse

/-- The values of a node as they are shown: a file as a whole, and what is no text by its
preview. -/
def shownValues (d : Disk) (f : Found) : List String :=
  let a := f.access d
  let kind : Kind := a.kind f.node
  if kind == .byte then
    let text : Option String := a.text f.node
    (text.map trimLineFeeds).toList
  else
    let texts : List String := a.all f.node .text
    let count : Nat := a.valueCount f.node
    let isList : Bool := a.isList f.node
    let preview (n : Location) : List String := Option.toList (a.preview n)
    if texts.length == count then texts
    else if isList then
      a.foldChildren f.node (fun _ child shown => shown ++ preview child) []
    else preview f.node

def childNames (d : Disk) (f : Found) : List String :=
  let a := f.access d
  let name (n : Location) : Option String := a.name n
  a.foldChildren f.node (fun _ child names => names ++ [(name child).getD ""]) []

def runFind (d : Disk) (path key : String) (tags : List String) : Except Fault (List String) := do
  let content ← openTree d path
  match Config.within d content (Path.ofDotted key) tags with
  | some found =>
    let values := shownValues d found
    return if values.isEmpty then childNames d found else values
  | none => throw (.noValue key path)

def nodeLine (p : Path) (kind : Kind) (link : Bool) : String :=
  p.dotted ++ ": " ++ kind.name ++ if link then " (link)" else ""

def runTree (d : Disk) (path : String) : Except Fault (List String) := do
  let content ← openTree d path
  let a := content.access d
  let line (n : Location) (p : Path) : String := nodeLine p (a.kind n) (a.isLink n)
  let lines : List String :=
    a.report (fun n p lines => (true, if p.isEmpty then lines else line n p :: lines))
      (content.root d) []
  return lines.reverse

def runConfig (d : Disk) (sources : Config.Sources) (key : String) (all : Bool) :
    Except Fault (List String) :=
  let c := Config.ofSources sources
  if all then
    match ((Config.fetchAll d key none .text).run c).1 with
    | .ok values => .ok values
    | .error f => .error (.configuration f)
  else
    let lookup : Config.Lookup (Option String) := do
      match ← Config.fetch d key none .text with
      | some value => return some value
      | none => return (← Config.find d key none).bind fun found => (shownValues d found).head?
    match (lookup.run c).1 with
    | some value => .ok [value]
    | none => .error (.noConfiguration key)

def run (d : Disk) (environment : List (String × String)) : Command → Result
  | print file => runPrint d file
  | find path key tags => .ofLines (runFind d path key tags)
  | tree path => .ofLines (runTree d path)
  | config application key directories secrets tags group all =>
    let sources : Config.Sources :=
      { Config.Sources.ofApplication application with
        directories := directories
        secrets := secrets
        tags := tags
        group := group
        environment := environment.reverse }
    .ofLines (runConfig d sources key all)

structure Outcome where
  code : Nat
  output : Bytes
  errors : String

def usage : String :=
  "Usage: attribute-trees print FILE\n" ++
  "       attribute-trees find PATH KEY [-t TAG]...\n" ++
  "       attribute-trees tree PATH\n" ++
  "       attribute-trees config APP KEY [-d DIR]... [--secrets DIR] [-t TAG]... [-g GROUP]\n" ++
  "                              [--all]\n"

def refusal : Outcome := ⟨2, [], usage⟩

def outcome (d : Disk) (environment : List (String × String)) (command : Command) : Outcome :=
  match run d environment command with
  | ⟨output, none⟩ => ⟨0, output, ""⟩
  | ⟨output, some f⟩ => ⟨1, output, "Error: " ++ f.message ++ "\n"⟩

def program (d : Disk) (environment : List (String × String)) (arguments : List String) :
    Outcome :=
  match ofArguments? arguments with
  | none => refusal
  | some command => outcome d environment command

end Command

end AttributeTrees
