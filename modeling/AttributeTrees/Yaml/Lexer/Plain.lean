import AttributeTrees.Yaml.Lexer.Quoted
/-!
# Plain scalars

A scalar without quotes ends where a comment, a mapping mark or, in a flow collection, a bracket or
comma begins, or where a line is not indented enough. Its line breaks are folded as in a quoted one.
-/
namespace AttributeTrees.Yaml.Lexer

def continuesPlain (flow : Bool) (c : Cursor) : Bool :=
  let x := c.head
  !isGap x && !(x == ':' && (isGap (c.peek 1) || (flow && isFlow (c.peek 1)))) &&
    !(flow && isFlow x)

def plainWord (flow : Bool) : Nat → Cursor → Nat
  | 0, _ => 0
  | fuel + 1, c => if continuesPlain flow c then plainWord flow fuel (c.past 1) + 1 else 0

/-- Reads white space behind a word. A tabulator may stand where the indentation should only on a
line that is empty. A line with a comment behind such a tabulator counts as one with a word. -/
def plainGap (indent : Int) : Nat → Gap → Lex Gap
  | 0, g => return g
  | fuel + 1, g => do
    let c := (← get).place
    let x := c.head
    if isBlank x then
      if !c.leading then
        setPlace (c.pastBlanks 1)
        plainGap indent fuel { g with blanks := g.blanks ++ [x] }
      else if (c.column : Int) < indent && x == '\t' then
        let _ ← skipToLineEnd true
        require (isBreakOrEnd (← head)) .tab
        plainGap indent fuel g
      else
        setPlace (c.pastBlanks 1)
        plainGap indent fuel g
    else if isBreak x then
      setPlace c.pastBreak
      plainGap indent fuel
        (if c.leading then { g with more := g.more + 1 }
        else { g with broken := true, counted := true })
    else return g

def plainText (indent : Int) : Nat → List Char → List Char → Lex (List Char)
  | 0, text, _ => return text
  | fuel + 1, text, gap => do
    let s ← get
    let c := s.place
    let flow := s.flowLevel > 0
    if c.atIndicator || c.head == '#' then return text
    else
      require (!(flow && c.head == '-' && isFlow (c.peek 1))) .plainScalar
      let n := plainWord flow (fuel + 1) c
      let text := if n == 0 then text else (c.rest.take n).reverse ++ (gap.reverse ++ text)
      past n
      let x ← head
      if !(isBlank x || isBreak x) then return text
      else
        let g ← plainGap indent (fuel + 1) ⟨[], false, false, 0⟩
        let s ← get
        if s.flowLevel == 0 && (s.place.column : Int) < indent then return text
        else plainText indent fuel text g.text

def plainScalar : Lex Token := do
  unrollLooseIndents
  let s ← get
  let indent := s.indent + 1
  require (s.flowLevel == 0 || indent ≤ (s.place.column : Int)) .indentation
  let text ← plainText indent (← fuel) [] []
  if (← get).place.leading then allowKey true
  require (!text.isEmpty) .plainScalar
  return .scalar .plain (String.ofList text.reverse)

end AttributeTrees.Yaml.Lexer
