import AttributeTrees.Yaml.Characters
/-!
# Places in a text

A cursor stands before the rest of a text and knows its line and column and whether only white
space came before it on its line.
-/
namespace AttributeTrees.Yaml

structure Cursor where
  rest : List Char
  index : Nat
  line : Nat
  column : Nat
  leading : Bool

namespace Cursor

def start (text : List Char) : Cursor := ⟨text, 0, 0, 0, true⟩

def peek (c : Cursor) (n : Nat) : Char := c.rest.getD n endMark

def head (c : Cursor) : Char := c.peek 0

def pastBlanks (c : Cursor) (n : Nat) : Cursor :=
  { c with rest := c.rest.drop n, index := c.index + n, column := c.column + n }

def past (c : Cursor) (n : Nat) : Cursor :=
  if n = 0 then c else { c.pastBlanks n with leading := false }

def pastBreak (c : Cursor) : Cursor :=
  let n := if c.head == '\r' && c.peek 1 == '\n' then 2 else 1
  if isBreak c.head then ⟨c.rest.drop n, c.index + n, c.line + 1, 0, true⟩ else c

def span (c : Cursor) (p : Char → Bool) : List Char × Cursor :=
  let run := c.rest.takeWhile p
  (run, c.past run.length)

def toLineEnd (c : Cursor) : Cursor := (c.span (!isBreakOrEnd ·)).2

def skipBlanks (c : Cursor) : Cursor := c.pastBlanks (c.rest.takeWhile isBlank).length

def atMark (c : Cursor) (mark : Char) : Bool :=
  c.peek 0 == mark && c.peek 1 == mark && c.peek 2 == mark && isGap (c.peek 3)

def atDocumentStart (c : Cursor) : Bool := c.atMark '-'

def atDocumentEnd (c : Cursor) : Bool := c.atMark '.'

def atIndicator (c : Cursor) : Bool := c.column == 0 && (c.atDocumentStart || c.atDocumentEnd)

end Cursor

end AttributeTrees.Yaml
