import AttributeTrees.Members
import AttributeTrees.Text.Pieces
import AttributeTrees.Text.Utf8
/-!
# Disks

A disk is a tree of directories with files and links in them, and one directory in which relative
paths start. A path is a text whose pieces stand between slashes; `.` stays, `..` goes up, and a
link on the way is replaced by the path it holds. A path can be too long to be followed as it is
written, but not to have its links replaced.
-/
namespace AttributeTrees

open Text.Utf8 (Bytes)

namespace Disk

inductive Entry where
  | file (content : Bytes)
  | directory (entries : List (String × Entry))
  | link (target : String)
  | device

inductive Fault where
  | missing
  | notDirectory
  | manyLinks
  | longName
  | nul
deriving DecidableEq, Repr

def Fault.message : Fault → String
  | missing => "No such file or directory (os error 2)"
  | notDirectory => "Not a directory (os error 20)"
  | manyLinks => "Too many levels of symbolic links (os error 40)"
  | longName => "File name too long (os error 36)"
  | nul => "file name contained an unexpected NUL byte"

def pieces (path : String) : List String := (Text.split '/' path.toList).map String.ofList

def isAbsolute (path : String) : Bool := path.toList.head? == some '/'

/-- What two paths have to share to be the same: the pieces that lead anywhere, and where they
start. -/
def components (path : String) : List String :=
  let all := pieces path
  let start := if isAbsolute path then ["/"] else if all.head? == some "." then ["."] else []
  start ++ all.filter fun piece => !piece.isEmpty && piece != "."

def fileName? (path : String) : Option String :=
  (components path).getLast?.filter fun name => !(["/", ".", ".."].contains name)

def extension? (path : String) : Option String := do
  let name ← fileName? path
  let pieces := Text.split '.' name.toList
  match pieces.dropLast with
  | [] | [[]] => none
  | _ => pieces.getLast?.map String.ofList

def join (path name : String) : String :=
  if isAbsolute name || path.isEmpty then name
  else if path.toList.getLast? == some '/' then path ++ name
  else path ++ "/" ++ name

def absolute (names : List String) : String := "/" ++ "/".intercalate names

def entryAt : List String → Entry → Option Entry
  | [], e => some e
  | name :: rest, .directory entries =>
    match entries.lookup name with
    | some e => entryAt rest e
    | none => none
  | _ :: _, _ => none

def insertAt (e : Entry) : List String → List (String × Entry) → List (String × Entry)
  | [], entries => entries
  | [name], entries => Members.put name e entries
  | name :: rest, entries =>
    match entries.lookup name with
    | some (.directory inner) => Members.put name (.directory (insertAt e rest inner)) entries
    | _ => Members.put name (.directory (insertAt e rest [])) entries

def eraseAt : List String → List (String × Entry) → List (String × Entry)
  | [], entries => entries
  | [name], entries => entries.filter (·.1 != name)
  | name :: rest, entries =>
    match entries.lookup name with
    | some (.directory inner) => Members.put name (.directory (eraseAt rest inner)) entries
    | _ => entries

mutual

def Entry.size : Entry → Nat
  | .file content => content.length + 1
  | .directory entries => sizeAll entries + 1
  | .link _ | .device => 1

def sizeAll : List (String × Entry) → Nat
  | [] => 0
  | (_, e) :: rest => e.size + sizeAll rest

end

def maxLinks : Nat := 40

def maxName : Nat := 255

def maxPath : Nat := 4095

end Disk

structure Disk where
  top : List (String × Disk.Entry)
  working : List String

namespace Disk

def empty : Disk := ⟨[], []⟩

def get? (d : Disk) (names : List String) : Option Entry := entryAt names (.directory d.top)

def size (d : Disk) : Nat := (Entry.directory d.top).size

def base (d : Disk) (path : String) : List String := if isAbsolute path then [] else d.working

/-- Goes from a directory along pieces. A link at the end is replaced only if `last`. Answers the
names that lead to what is reached. -/
def walk (d : Disk) (last : Bool) (links : Nat) (here : List String) :
    List String → Except Fault (List String)
  | [] => .ok here
  | piece :: rest =>
    match d.get? here with
    | some (.directory entries) =>
      if piece.isEmpty || piece == "." then walk d last links here rest
      else if piece == ".." then walk d last links here.dropLast rest
      else if maxName < piece.utf8ByteSize then .error .longName
      else
        match entries.lookup piece with
        | none => .error .missing
        | some (.link target) =>
          if rest.isEmpty && !last then .ok (here ++ [piece])
          else
            match links with
            | 0 => .error .manyLinks
            | links + 1 =>
              walk d last links (if isAbsolute target then [] else here) (pieces target ++ rest)
        | some _ => walk d last links (here ++ [piece]) rest
    | _ => .error .notDirectory
termination_by todo => (links, todo.length)

def follow (d : Disk) (last : Bool) (path : String) : Except Fault (List String) :=
  if path.toList.contains (Char.ofNat 0) then .error .nul
  else if path.isEmpty then .error .missing
  else if maxPath < path.utf8ByteSize then .error .longName
  else d.walk last maxLinks (d.base path) (pieces path)

def resolve (d : Disk) (path : String) : Except Fault (List String) := d.follow true path

def stat? (d : Disk) (path : String) : Option Entry :=
  (d.resolve path).toOption.bind d.get?

def linkStat? (d : Disk) (path : String) : Option Entry :=
  (d.follow false path).toOption.bind d.get?

def isLink (d : Disk) (path : String) : Bool :=
  match d.linkStat? path with
  | some (.link _) => true
  | _ => false

def read? (d : Disk) (path : String) : Option Bytes :=
  match d.stat? path with
  | some (.file content) => some content
  | _ => none

def contents? (d : Disk) (path : String) : Option Bytes :=
  match d.stat? path with
  | some (.file content) => some content
  | some .device => some []
  | _ => none

def names (d : Disk) (path : String) : List String :=
  match d.stat? path with
  | some (.directory entries) => (entries.map (·.1)).mergeSort fun a b => decide (a ≤ b)
  | _ => []

/-- The path with its links replaced, however long it is; the path itself if it leads nowhere. -/
def realPath (d : Disk) (path : String) : String :=
  if path.isEmpty then path
  else
    match d.walk true maxLinks (d.base path) (pieces path) with
    | .ok names => absolute names
    | .error _ => path

/-- The names at which something is put for a path; what is missing on the way does not matter. -/
def locate (d : Disk) (links : Nat) (here : List String) : List String → List String
  | [] => here
  | piece :: rest =>
    if piece.isEmpty || piece == "." then locate d links here rest
    else if piece == ".." then locate d links here.dropLast rest
    else
      match d.get? (here ++ [piece]) with
      | some (.link target) =>
        match links with
        | 0 => locate d 0 (here ++ [piece]) rest
        | links + 1 =>
          locate d links (if isAbsolute target then [] else here) (pieces target ++ rest)
      | _ => locate d links (here ++ [piece]) rest
termination_by todo => (links, todo.length)

def target (d : Disk) (path : String) : List String := d.locate maxLinks (d.base path) (pieces path)

def write (d : Disk) (path : String) (content : Bytes) : Disk :=
  { d with top := insertAt (.file content) (d.target path) d.top }

def makeDirectory (d : Disk) (path : String) : Disk :=
  match d.stat? path with
  | some (.directory _) => d
  | _ => { d with top := insertAt (.directory []) (d.target path) d.top }

def makeLink (d : Disk) (path target : String) : Disk :=
  { d with top := insertAt (.link target) (d.target path) d.top }

def makeDevice (d : Disk) (path : String) : Disk :=
  { d with top := insertAt .device (d.target path) d.top }

def remove (d : Disk) (path : String) : Disk :=
  match d.walk false maxLinks (d.base path) (pieces path) with
  | .ok names => { d with top := eraseAt names d.top }
  | .error _ => d

end Disk

end AttributeTrees
