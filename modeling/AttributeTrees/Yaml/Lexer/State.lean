import AttributeTrees.Yaml.Cursor
import AttributeTrees.Yaml.Token
/-!
# State of the lexer

Besides its place in the text a lexer keeps the tokens it has found and not yet given away, the
columns at which blocks were opened, and for each level of flow collections the place at which a
mapping key may have started: only a later `:` tells whether it did, and the tokens for it are then
put in there.
-/
namespace AttributeTrees.Yaml

structure KeyPlace where
  possible : Bool
  required : Bool
  token : Nat
  index : Nat
  line : Nat
  column : Nat

def KeyPlace.nowhere : KeyPlace := ⟨false, false, 0, 0, 0, 0⟩

structure Indent where
  column : Int
  isBlock : Bool

structure Lexer where
  place : Cursor
  bound : Nat
  queue : List Token
  given : Nat
  started : Bool
  adjacentValue : Nat
  keyAllowed : Bool
  keys : List KeyPlace
  indent : Int
  indents : List Indent
  flowLevel : Nat
  flowMapping : Bool
  pairOpen : Bool

abbrev Lex := StateT Lexer (Except Fault)

namespace Lexer

def ofText (text : List Char) : Lexer where
  place := Cursor.start text
  bound := text.length + 1
  queue := []
  given := 0
  started := false
  adjacentValue := 0
  keyAllowed := false
  keys := []
  indent := -1
  indents := []
  flowLevel := 0
  flowMapping := false
  pairOpen := false

def require (condition : Bool) (reason : Fault) : Lex Unit := unless condition do throw reason

def head : Lex Char := return (← get).place.head

def setPlace (c : Cursor) : Lex Unit := modify ({ · with place := c })

def past (n : Nat) : Lex Unit := modify fun s => { s with place := s.place.past n }

def push (t : Token) : Lex Unit := modify fun s => { s with queue := s.queue ++ [t] }

def insert (number : Nat) (t : Token) : Lex Unit :=
  modify fun s =>
    let n := number - s.given
    { s with queue := s.queue.take n ++ t :: s.queue.drop n }

def allowKey (allowed : Bool) : Lex Unit := modify ({ · with keyAllowed := allowed })

def inFlow : Lex Bool := return (← get).flowLevel > 0

/-- What is left of the indentations above a column, the column reached, and the number of blocks
that end. -/
def unrolled (column : Int) : Int → List Indent → Int × List Indent × Nat
  | indent, [] => (indent, [], 0)
  | indent, i :: rest =>
    if indent > column then
      let (reached, left, ends) := unrolled column i.column rest
      (reached, left, ends + if i.isBlock then 1 else 0)
    else (indent, i :: rest, 0)

def unroll (column : Int) : Lex Unit := do
  unless (← inFlow) do
    modify fun s =>
      let (indent, indents, ends) := unrolled column s.indent s.indents
      { s with
        indent := indent
        indents := indents
        queue := s.queue ++ List.replicate ends .blockEnd }

def unrollLoose : Int → List Indent → Int × List Indent
  | indent, [] => (indent, [])
  | indent, i :: rest => if i.isBlock then (indent, i :: rest) else unrollLoose i.column rest

def unrollLooseIndents : Lex Unit :=
  modify fun s =>
    let (indent, indents) := unrollLoose s.indent s.indents
    { s with indent := indent, indents := indents }

/-- Opens a block at a column that is indented more than what is open. Its token goes to the end of
the queue or before the token of a given number. -/
def roll (column : Nat) (number : Option Nat) (t : Token) : Lex Unit := do
  unless (← inFlow) do
    let s ← get
    if s.indent ≤ column then
      match s.indents with
      | i :: rest => if !i.isBlock then set { s with indent := i.column, indents := rest }
      | [] => pure ()
    let s ← get
    if s.indent < column then
      set { s with indent := (column : Int), indents := ⟨s.indent, true⟩ :: s.indents }
      match number with
      | some n => insert n t
      | none => push t

def rollLoose : Lex Unit :=
  modify fun s =>
    match s.flowLevel, s.indents with
    | 0, ⟨_, true⟩ :: _ =>
      { s with indent := s.indent + 1, indents := ⟨s.indent, false⟩ :: s.indents }
    | _, _ => s

def saveKey : Lex Unit :=
  modify fun s =>
    if s.keyAllowed then
      let required := s.flowLevel == 0 && s.indent == (s.place.column : Int) &&
        (s.indents.head?.map (·.isBlock)).getD false
      let place : KeyPlace :=
        ⟨true, required, s.given + s.queue.length, s.place.index, s.place.line, s.place.column⟩
      { s with keys := place :: s.keys.tail }
    else s

def removeKey : Lex Unit := do
  match (← get).keys with
  | k :: rest =>
    require (!(k.possible && k.required)) .missingKeyMark
    modify ({ · with keys := { k with possible := false } :: rest })
  | [] => pure ()

/-- Whether a key that may have started can no longer be one: outside of flow collections it ends on
its line and within 1024 characters. -/
def isStale (s : Lexer) (k : KeyPlace) : Bool :=
  k.possible && s.flowLevel == 0 &&
    (k.line < s.place.line || k.index + 1024 < s.place.index)

def staleKeys : Lex Unit := do
  let s ← get
  require (!(s.keys.any fun k => isStale s k && k.required)) .missingKeyMark
  let keys := s.keys.map fun k => { k with possible := k.possible && !isStale s k }
  set { s with keys := keys }

def skipToLineEnd (tabs : Bool) : Lex (Bool × Bool) := do
  let c := (← get).place
  let run := c.rest.takeWhile fun x => x == ' ' || (tabs && x == '\t')
  let d := c.pastBlanks run.length
  if d.head == '#' then
    require (!run.isEmpty) .misplacedComment
    setPlace d.toLineEnd
  else setPlace d
  return (run.contains '\t', run.contains ' ')

def newLine : Lex Unit :=
  modify fun s =>
    { s with place := s.place.pastBreak, keyAllowed := s.keyAllowed || s.flowLevel == 0 }

def skipToToken : Nat → Lex Unit
  | 0 => pure ()
  | fuel + 1 => do
    let s ← get
    let c := s.place.head
    if c == '\t' && !s.indents.isEmpty && s.place.leading && (s.place.column : Int) < s.indent then
      let _ ← skipToLineEnd true
      require (isBreakOrEnd (← head)) .tab
      skipToToken fuel
    else if isBlank c then
      setPlace (s.place.pastBlanks 1)
      skipToToken fuel
    else if isBreak c then
      newLine
      skipToToken fuel
    else if c == '#' then
      setPlace s.place.toLineEnd
      skipToToken fuel

def skipKeyGap : Nat → Bool → Lex Unit
  | 0, _ => pure ()
  | fuel + 1, found => do
    let s ← get
    let c := s.place.head
    if c == ' ' then
      setPlace (s.place.pastBlanks 1)
      skipKeyGap fuel true
    else if isBreak c then
      newLine
      skipKeyGap fuel true
    else if c == '#' then
      setPlace s.place.toLineEnd
      skipKeyGap fuel true
    else require found .misplacedKey

def fuel : Lex Nat := return (← get).bound

end Lexer

end AttributeTrees.Yaml
