import AttributeTrees.Yaml.Event
import AttributeTrees.Yaml.Lexer
/-!
# Grammar of YAML

Turns tokens into events. What may come next is kept as a stack of expectations, so that one event
is found at a time and the ones before a fault are found whatever follows.
-/
namespace AttributeTrees.Yaml

/-- What may come next. `first` tells that the token that opened the collection is still ahead. -/
inductive Expected where
  | streamStart
  | implicitDocument
  | document
  | documentContent
  | documentEnd
  | blockNode
  | blockEntry (first : Bool)
  | indentlessEntry
  | blockKey (first : Bool)
  | blockValue
  | flowEntry (first : Bool)
  | pairKey
  | pairValue
  | pairEnd
  | flowKey (first : Bool)
  | flowValue
  | flowNoValue
  | nothing
deriving DecidableEq, Repr

structure Grammar where
  lexer : Lexer
  ahead : Option Token
  expected : Expected
  outer : List Expected
  anchors : List (String × Nat)
  nextAnchor : Nat
  handle : Option (String × String)

abbrev Parse := StateT Grammar (Except Fault)

namespace Grammar

def ofText (text : List Char) : Grammar where
  lexer := Lexer.ofText text
  ahead := none
  expected := .streamStart
  outer := []
  anchors := []
  nextAnchor := 1
  handle := none

def peek : Parse Token := do
  let s ← get
  match s.ahead with
  | some t => return t
  | none =>
    let (t, lexer) ← Lexer.next.run s.lexer
    set { s with lexer := lexer, ahead := some t }
    return t

def skip : Parse Unit := do
  let _ ← peek
  modify ({ · with ahead := none })

def emit (e : Event) (x : Expected) : Parse Event := do
  modify ({ · with expected := x })
  return e

def complete (e : Event) : Parse Event := do
  modify fun s =>
    match s.outer with
    | x :: rest => { s with expected := x, outer := rest }
    | [] => { s with expected := .nothing }
  return e

def expectAfter (x : Expected) : Parse Unit := modify fun s => { s with outer := x :: s.outer }

def addAnchor (name : String) : Parse Nat := do
  let s ← get
  set { s with anchors := (name, s.nextAnchor) :: s.anchors, nextAnchor := s.nextAnchor + 1 }
  return s.nextAnchor

def standardTags : String := "tag:yaml.org,2002:"

/-- Writes the handle of a tag out. A handle without a mark at its end needs no declaration. -/
def resolveTag (handle suffix : String) : Parse Tag := do
  match (← get).handle with
  | some (declared, start) =>
    if declared == handle then return ⟨start, suffix⟩
  | none => pure ()
  if handle == "!!" then return ⟨standardTags, suffix⟩
  else if Lexer.isClosedHandle handle.toList then throw .unknownHandle
  else return ⟨handle, suffix⟩

def properties : Parse (Option Nat × Option Tag) := do
  match ← peek with
  | .anchor name _ =>
    skip
    let anchor ← addAnchor name
    match ← peek with
    | .tag handle suffix _ =>
      skip
      return (some anchor, some (← resolveTag handle suffix))
    | _ => return (some anchor, none)
  | .tag handle suffix _ =>
    skip
    let tag ← resolveTag handle suffix
    match ← peek with
    | .anchor name _ =>
      skip
      return (some (← addAnchor name), some tag)
    | _ => return (none, some tag)
  | _ => return (none, none)

/-- Reads a node or the start of one. `block` tells whether it may be a block collection and
`indentless` whether it may be a sequence that is not indented. -/
def node (block indentless : Bool) : Parse Event := do
  match ← peek with
  | .alias name =>
    skip
    match (← get).anchors.lookup name with
    | some anchor => complete (.alias anchor)
    | none => throw .unknownAnchor
  | _ =>
    let (anchor, tag) ← properties
    match ← peek, block, indentless with
    | .blockEntry, _, true => emit (.sequenceStart anchor) .indentlessEntry
    | .scalar style text, _, _ =>
      skip
      complete (.scalar style text anchor tag)
    | .flowSequenceStart, _, _ => emit (.sequenceStart anchor) (.flowEntry true)
    | .flowMappingStart, _, _ => emit (.mappingStart anchor) (.flowKey true)
    | .blockSequenceStart, true, _ => emit (.sequenceStart anchor) (.blockEntry true)
    | .blockMappingStart, true, _ => emit (.mappingStart anchor) (.blockKey true)
    | _, _, _ =>
      if anchor.isSome || tag.isSome then complete (.bare anchor tag)
      else throw .missingContent

def directives : Nat → Bool → Parse Unit
  | 0, _ => pure ()
  | fuel + 1, versioned => do
    match ← peek with
    | .versionDirective =>
      if versioned then throw .directive
      else
        modify ({ · with handle := none })
        skip
        directives fuel true
    | .tagDirective handle start =>
      modify ({ · with handle := some (handle, start) })
      skip
      directives fuel versioned
    | _ => pure ()

def fuel : Parse Nat := do
  let s ← get
  return s.lexer.place.rest.length + s.lexer.queue.length + 2

def explicitDocument : Parse Event := do
  directives (← fuel) false
  match ← peek with
  | .documentStart =>
    skip
    expectAfter .documentEnd
    emit .documentStart .documentContent
  | _ => throw .missingStart

def skipDocumentEnds : Nat → Parse Unit
  | 0 => pure ()
  | fuel + 1 => do
    match ← peek with
    | .documentEnd =>
      skip
      skipDocumentEnds fuel
    | _ => pure ()

def document (implicit : Bool) : Parse Event := do
  skipDocumentEnds (← fuel)
  match ← peek, implicit with
  | .streamEnd, _ =>
    skip
    emit .streamEnd .nothing
  | .versionDirective, _ | .tagDirective .., _ | .documentStart, _ => explicitDocument
  | _, true =>
    expectAfter .documentEnd
    emit .documentStart .blockNode
  | _, false => explicitDocument

def documentContent : Parse Event := do
  match ← peek with
  | .versionDirective | .tagDirective .. | .documentStart | .documentEnd | .streamEnd =>
    complete .missing
  | _ => node true false

def documentEnd : Parse Event := do
  let t ← peek
  modify ({ · with handle := none })
  if t == .documentEnd then
    skip
    emit .documentEnd .implicitDocument
  else
    match t with
    | .versionDirective | .tagDirective .. => throw .directive
    | _ => emit .documentEnd .document

def blockEntry (first : Bool) : Parse Event := do
  if first then skip
  match ← peek with
  | .blockEnd =>
    skip
    complete .sequenceEnd
  | .blockEntry =>
    skip
    match ← peek with
    | .blockEntry | .blockEnd => emit .missing (.blockEntry false)
    | _ =>
      expectAfter (.blockEntry false)
      node true false
  | _ => throw .missingEntry

def indentlessEntry : Parse Event := do
  match ← peek with
  | .blockEntry =>
    skip
    match ← peek with
    | .blockEntry | .key | .value | .blockEnd => emit .missing .indentlessEntry
    | _ =>
      expectAfter .indentlessEntry
      node true false
  | _ => complete .sequenceEnd

def blockKey (first : Bool) : Parse Event := do
  if first then skip
  match ← peek with
  | .key =>
    skip
    match ← peek with
    | .key | .value | .blockEnd => emit .missing .blockValue
    | _ =>
      expectAfter .blockValue
      node true true
  | .value => emit .missing .blockValue
  | .blockEnd =>
    skip
    complete .mappingEnd
  | _ => throw .missingEntry

def blockValue : Parse Event := do
  match ← peek with
  | .value =>
    skip
    match ← peek with
    | .key | .value | .blockEnd => emit .missing (.blockKey false)
    | _ =>
      expectAfter (.blockKey false)
      node true true
  | _ => emit .missing (.blockKey false)

def separator (first : Bool) (close : Token) : Parse Unit := do
  if first then skip
  else
    let t ← peek
    if t == .flowEntry then skip
    else if t != close then throw .missingEntry

def flowEntry (first : Bool) : Parse Event := do
  separator first .flowSequenceEnd
  match ← peek with
  | .flowSequenceEnd =>
    skip
    complete .sequenceEnd
  | .key =>
    skip
    emit (.mappingStart none) .pairKey
  | _ =>
    expectAfter (.flowEntry false)
    node false false

def pairKey : Parse Event := do
  match ← peek with
  | .value | .flowEntry | .flowSequenceEnd =>
    skip
    emit .missing .pairValue
  | _ =>
    expectAfter .pairValue
    node false false

def pairValue : Parse Event := do
  match ← peek with
  | .value =>
    skip
    match ← peek with
    | .flowEntry | .flowSequenceEnd => emit .missing .pairEnd
    | _ =>
      expectAfter .pairEnd
      node false false
  | _ => emit .missing .pairEnd

def flowKey (first : Bool) : Parse Event := do
  separator first .flowMappingEnd
  match ← peek with
  | .flowMappingEnd =>
    skip
    complete .mappingEnd
  | .key =>
    skip
    match ← peek with
    | .value | .flowEntry | .flowMappingEnd => emit .missing .flowValue
    | _ =>
      expectAfter .flowValue
      node false false
  | .value => emit .missing .flowValue
  | _ =>
    expectAfter .flowNoValue
    node false false

def flowValue : Parse Event := do
  match ← peek with
  | .value =>
    skip
    match ← peek with
    | .flowEntry | .flowMappingEnd => emit .missing (.flowKey false)
    | _ =>
      expectAfter (.flowKey false)
      node false false
  | _ => emit .missing (.flowKey false)

def next : Parse Event := do
  match (← get).expected with
  | .streamStart =>
    skip
    emit .streamStart .implicitDocument
  | .implicitDocument => document true
  | .document => document false
  | .documentContent => documentContent
  | .documentEnd => documentEnd
  | .blockNode => node true false
  | .blockEntry first => blockEntry first
  | .indentlessEntry => indentlessEntry
  | .blockKey first => blockKey first
  | .blockValue => blockValue
  | .flowEntry first => flowEntry first
  | .pairKey => pairKey
  | .pairValue => pairValue
  | .pairEnd => emit .mappingEnd (.flowEntry false)
  | .flowKey first => flowKey first
  | .flowValue => flowValue
  | .flowNoValue => do
    let _ ← peek
    emit .missing (.flowKey false)
  | .nothing => return .streamEnd

def forgetAnchors (e : Event) (s : Grammar) : Grammar :=
  if e == .documentStart then { s with anchors := [] } else s

def events (last : Event → Bool) : Nat → Grammar → List Event × Option Fault
  | 0, _ => ([], none)
  | fuel + 1, s =>
    match next.run s with
    | .ok (e, s) =>
      if last e || e == .streamEnd then ([e], none)
      else
        let (rest, f) := events last fuel (forgetAnchors e s)
        (e :: rest, f)
    | .error f => ([], some f)

end Grammar

namespace Event

def bound (length : Nat) : Nat := 16 * (length + 4)

def ofText (text : List Char) : List Event × Option Fault :=
  Grammar.events (fun _ => false) (bound text.length) (Grammar.ofText text)

def ofFirst (text : List Char) : List Event × Option Fault :=
  Grammar.events (· == .documentEnd) (bound text.length) (Grammar.ofText text)

end Event

end AttributeTrees.Yaml
