import AttributeTrees.Yaml.Lexer.State
/-!
# Block scalars

A scalar whose lines are those that are indented at least as its first, or as its header says. A
literal one keeps its line breaks. In a folded one a break between two lines that start with no
white space becomes a space, or goes if more breaks follow it. The header also says what becomes of
the breaks at the end.
-/
namespace AttributeTrees.Yaml.Lexer

inductive Chomping where
  | strip
  | clip
  | keep
deriving DecidableEq, Repr

def chompingOf? (c : Char) : Option Chomping :=
  if c == '+' then some .keep else if c == '-' then some .strip else none

/-- The header behind the mark: how to chomp, and how many columns of indentation the lines have, if
it says so. -/
def blockHeader : Lex (Chomping × Nat) := do
  let x ← head
  match chompingOf? x with
  | some chomping =>
    past 1
    let d ← head
    if d.isDigit then
      require (d != '0') .blockScalar
      past 1
      return (chomping, d.toNat - '0'.toNat)
    else return (chomping, 0)
  | none =>
    if x.isDigit then
      require (x != '0') .blockScalar
      past 1
      match chompingOf? (← head) with
      | some chomping =>
        past 1
        return (chomping, x.toNat - '0'.toNat)
      | none => return (.clip, x.toNat - '0'.toNat)
    else return (.clip, 0)

def blockIndent (indent : Nat) : Nat → Nat → Lex Nat
  | 0, breaks => return breaks
  | fuel + 1, breaks => do
    let c := (← get).place
    let n := min ((c.rest.takeWhile (· == ' ')).length) (indent - c.column)
    let c := c.pastBlanks n
    if isBreak c.head then
      setPlace c.pastBreak
      blockIndent indent fuel (breaks + 1)
    else
      setPlace c
      return breaks

def firstIndent : Nat → Nat → Nat → Lex (Nat × Nat)
  | 0, deepest, breaks => return (deepest, breaks)
  | fuel + 1, deepest, breaks => do
    let c := (← get).place
    let c := c.pastBlanks (c.rest.takeWhile (· == ' ')).length
    let deepest := max deepest c.column
    if isBreak c.head then
      setPlace c.pastBreak
      firstIndent fuel deepest (breaks + 1)
    else
      setPlace c
      return (deepest, breaks)

structure BlockText where
  text : List Char
  broken : Bool
  more : Nat
  blank : Bool

/-- What is put between the lines read before and a line that starts with white space or not, last
character first. -/
def BlockText.joint (b : BlockText) (literal blank : Bool) : List Char :=
  if !literal && b.broken && !b.blank && !blank then
    if b.more == 0 then [' '] else List.replicate b.more '\n'
  else List.replicate (b.more + if b.broken then 1 else 0) '\n'

def blockLines (literal : Bool) (indent : Nat) : Nat → BlockText → Lex BlockText
  | 0, b => return b
  | fuel + 1, b => do
    let c := (← get).place
    if c.column != indent || isEnd c.head || (indent == 0 && c.atDocumentEnd) then return b
    else
      let blank := isBlank c.head
      let line := c.rest.takeWhile (!isBreakOrEnd ·)
      let text := line.reverse ++ (b.joint literal blank ++ b.text)
      let c := c.pastBlanks line.length
      setPlace c.pastBreak
      if isEnd c.head then return ⟨text, false, 0, blank⟩
      else
        let more ← blockIndent indent (fuel + 1) 0
        blockLines literal indent fuel ⟨text, true, more, blank⟩

def emptyBlock (chomping : Chomping) (sameLine headerBroken : Bool) (breaks : Nat) : List Char :=
  match chomping with
  | .strip => []
  | .clip => if !sameLine && headerBroken then ['\n'] else []
  | .keep =>
    if sameLine then []
    else if breaks == 0 then (if headerBroken then ['\n'] else [])
    else List.replicate breaks '\n'

def blockScalar (literal : Bool) : Lex Token := do
  let startLine := (← get).place.line
  let style : Style := if literal then .literal else .folded
  past 1
  unrollLooseIndents
  let (chomping, increment) ← blockHeader
  let _ ← skipToLineEnd true
  let s ← get
  require (isBreakOrEnd s.place.head) .blockScalar
  let headerBroken := isBreak s.place.head
  setPlace s.place.pastBreak
  require ((← head) != '\t') .blockScalar
  let outer := (← get).indent
  let bound ← fuel
  let (indent, breaks) ←
    if increment > 0 then do
      let indent := if outer ≥ 0 then outer.toNat + increment else increment
      pure (indent, ← blockIndent indent bound 0)
    else do
      let (deepest, breaks) ← firstIndent bound 0 0
      let indent := max deepest (outer + 1).toNat
      pure (if outer > 0 then max indent 1 else indent, breaks)
  let c := (← get).place
  if isEnd c.head then
    return .scalar style
      (String.ofList (emptyBlock chomping (c.line == startLine) headerBroken breaks))
  else
    require (!(c.column < indent && (c.column : Int) > outer)) .blockScalar
    let b ← blockLines literal indent (bound + 1) ⟨[], false, breaks, false⟩
    let c := (← get).place
    let closing :=
      (if b.broken then ['\n'] else []) ++
        (if isEnd c.head && c.column ≥ max indent 1 then ['\n'] else [])
    let tail :=
      match chomping with
      | .strip => []
      | .clip => closing
      | .keep => closing ++ List.replicate b.more '\n'
    return .scalar style (String.ofList (b.text.reverse ++ tail))

end AttributeTrees.Yaml.Lexer
