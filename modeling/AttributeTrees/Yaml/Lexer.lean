import AttributeTrees.Yaml.Lexer.Block
import AttributeTrees.Yaml.Lexer.Plain
import AttributeTrees.Yaml.Lexer.Property
/-!
# Lexer of YAML

Cuts a text into tokens, one at a time. A token is held back as long as a `:` further on may make it
a mapping key.
-/
namespace AttributeTrees.Yaml.Lexer

def endPair : Lex Unit := do
  if (← get).pairOpen then
    modify ({ · with flowMapping := false, pairOpen := false })
    push .flowMappingEnd

def streamEnd : Lex Unit := do
  let s ← get
  if s.place.column != 0 then
    setPlace { s.place with column := 0, line := s.place.line + 1 }
  require (!(s.keys.any fun k => k.possible && k.required)) .missingKeyMark
  modify fun s => { s with keys := s.keys.map fun k => { k with possible := false } }
  unroll (-1)
  removeKey
  allowKey false
  push .streamEnd

def documentMark (t : Token) : Lex Unit := do
  unroll (-1)
  removeKey
  allowKey false
  past 3
  push t

def flowStart (mapping : Bool) : Lex Unit := do
  saveKey
  rollLoose
  require ((← get).flowLevel < 255) .nesting
  modify fun s => { s with keys := KeyPlace.nowhere :: s.keys, flowLevel := s.flowLevel + 1 }
  allowKey true
  past 1
  if mapping then modify ({ · with flowMapping := true })
  let _ ← skipToLineEnd true
  push (if mapping then .flowMappingStart else .flowSequenceStart)

def flowEnd (mapping : Bool) : Lex Unit := do
  removeKey
  modify fun s =>
    if s.flowLevel > 0 then { s with flowLevel := s.flowLevel - 1, keys := s.keys.tail } else s
  allowKey false
  endPair
  past 1
  let _ ← skipToLineEnd true
  modify fun s => if s.flowLevel > 0 then { s with adjacentValue := s.place.index } else s
  push (if mapping then .flowMappingEnd else .flowSequenceEnd)

def flowEntry : Lex Unit := do
  removeKey
  allowKey true
  endPair
  past 1
  let _ ← skipToLineEnd true
  push .flowEntry

def isAtMargin : Token → Bool
  | .anchor _ atMargin => atMargin
  | .tag _ _ atMargin => atMargin
  | _ => false

def atEntry (c : Cursor) : Bool := c.head == '-' && isGap (c.peek 1)

def blockEntry : Lex Unit := do
  let s ← get
  require (s.flowLevel == 0 && s.keyAllowed) .misplacedEntry
  require (!((s.queue.getLast?.map isAtMargin).getD false && s.place.column == 0 && s.indent > -1))
    .misplacedEntry
  past 1
  roll s.place.column none .blockSequenceStart
  let (tabs, _) ← skipToLineEnd true
  require (!(tabs && atEntry (← get).place)) .tab
  let _ ← skipToLineEnd false
  let x ← head
  if isBreak x || isFlow x then rollLoose
  removeKey
  allowKey true
  push .blockEntry

def keyMark : Lex Unit := do
  let s ← get
  if s.flowLevel == 0 then
    require s.keyAllowed .misplacedKey
    roll s.place.column none .blockMappingStart
  else modify ({ · with flowMapping := true })
  removeKey
  allowKey (s.flowLevel == 0)
  past 1
  skipKeyGap (← fuel) false
  require ((← head) != '\t') .tab
  push .key

/-- Puts the tokens of a mapping key in before the token that turned out to be one. -/
def insertKey (k : KeyPlace) (isPair : Bool) (line : Nat) : Lex Unit := do
  insert k.token .key
  if isPair then
    require (line ≤ k.line) .misplacedValue
    insert k.token .flowMappingStart
  roll k.column (some k.token) .blockMappingStart
  rollLoose
  modify fun s => { s with keys := { k with possible := false } :: s.keys.tail }
  allowKey false

def valueMark : Lex Unit := do
  let s ← get
  let c := s.place
  let isPair := s.flowLevel > 0 && !s.flowMapping
  modify ({ · with pairOpen := isPair })
  past 1
  if (← head) == '\t' then
    let (_, spaces) ← skipToLineEnd true
    let x ← head
    require (spaces || !(x == '-' || isWord x)) .tab
  match s.keys with
  | k :: _ =>
    if k.possible then insertKey k isPair c.line
    else
      if isPair then push .flowMappingStart
      if s.flowLevel == 0 then
        require s.keyAllowed .misplacedValue
        roll c.column none .blockMappingStart
      rollLoose
      allowKey (s.flowLevel == 0)
  | [] => pure ()
  push .value

def nodeStart (keyAfter : Bool) (read : Lex Token) : Lex Unit := do
  saveKey
  allowKey keyAfter
  push (← read)

def quotedStart (single : Bool) : Lex Unit := do
  saveKey
  allowKey false
  let t ← quotedScalar single
  skipToToken (← fuel)
  modify fun s => { s with adjacentValue := s.place.index }
  push t

def marksValue (s : Lexer) : Bool :=
  let next := s.place.peek 1
  isGap next || (s.flowLevel > 0 && (isFlow next || s.place.index == s.adjacentValue))

def tokenHere : Lex Unit := do
  let s ← get
  let block := s.flowLevel == 0
  let gap := isGap (s.place.peek 1)
  match s.place.head with
  | '[' => flowStart false
  | '\x7b' => flowStart true
  | ']' => flowEnd false
  | '\x7d' => flowEnd true
  | ',' => flowEntry
  | '-' => if gap then blockEntry else nodeStart false plainScalar
  | '?' => if gap then keyMark else nodeStart false plainScalar
  | ':' => if marksValue s then valueMark else nodeStart false plainScalar
  | '*' => nodeStart false (return .alias (← anchorName))
  | '&' => nodeStart false (return .anchor (← anchorName) (s.place.column == 0))
  | '!' => nodeStart false tagToken
  | '|' => if block then nodeStart true (blockScalar true) else nodeStart false plainScalar
  | '>' => if block then nodeStart true (blockScalar false) else nodeStart false plainScalar
  | '\'' => quotedStart true
  | '"' => quotedStart false
  | x =>
    require (!(['%', '@', '\x60'].contains x)) .unexpectedCharacter
    nodeStart false plainScalar

def more : Lex Unit := do
  if !(← get).started then
    modify ({ · with started := true, keyAllowed := true, keys := [KeyPlace.nowhere] })
    push .streamStart
  else
    skipToToken (← fuel)
    staleKeys
    unroll (← get).place.column
    let s ← get
    let c := s.place
    if isEnd c.head then streamEnd
    else if c.column == 0 && c.head == '%' then
      unroll (-1)
      removeKey
      allowKey false
      push (← directive)
    else if c.column == 0 && c.atDocumentStart then documentMark .documentStart
    else if c.column == 0 && c.atDocumentEnd then
      documentMark .documentEnd
      let _ ← skipToLineEnd true
      require (isBreakOrEnd (← head)) .documentEndContent
    else
      require (s.indent ≤ (c.column : Int)) .indentation
      tokenHere

def settle : Nat → Lex Unit
  | 0 => pure ()
  | fuel + 1 => do
    if !(← get).queue.isEmpty then staleKeys
    let s ← get
    if s.queue.isEmpty || s.keys.any (fun k => k.possible && k.token == s.given) then
      more
      settle fuel

def next : Lex Token := do
  settle ((← fuel) + 2)
  let s ← get
  match s.queue with
  | t :: rest =>
    set { s with queue := rest, given := s.given + 1 }
    return t
  | [] => return .streamEnd

end AttributeTrees.Yaml.Lexer
