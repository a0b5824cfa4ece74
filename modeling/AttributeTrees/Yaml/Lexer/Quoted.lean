import AttributeTrees.Numeral
import AttributeTrees.Yaml.Lexer.State
/-!
# Quoted scalars

A scalar between single quotes, in which a quote is written twice, or between double quotes, with
escapes behind a backslash. A line break inside is folded: white space around it goes, a single
break becomes a space, and of several all but the first stay.
-/
namespace AttributeTrees.Yaml.Lexer

def shortEscape? (c : Char) : Option Char :=
  match c with
  | '0' => some (Char.ofNat 0)
  | 'a' => some (Char.ofNat 0x07)
  | 'b' => some (Char.ofNat 0x08)
  | 't' | '\t' => some '\t'
  | 'n' => some '\n'
  | 'v' => some (Char.ofNat 0x0B)
  | 'f' => some (Char.ofNat 0x0C)
  | 'r' => some '\r'
  | 'e' => some (Char.ofNat 0x1B)
  | ' ' => some ' '
  | '"' => some '"'
  | '/' => some '/'
  | '\\' => some '\\'
  | 'N' => some (Char.ofNat 0x85)
  | '_' => some (Char.ofNat 0xA0)
  | 'L' => some (Char.ofNat 0x2028)
  | 'P' => some (Char.ofNat 0x2029)
  | _ => none

def escapeDigits (c : Char) : Nat :=
  match c with
  | 'x' => 2
  | 'u' => 4
  | 'U' => 8
  | _ => 0

def escape : Lex Char := do
  let c := (← get).place
  let letter := c.peek 1
  match shortEscape? letter with
  | some x =>
    past 2
    return x
  | none =>
    let n := escapeDigits letter
    let digits := (c.rest.drop 2).take n
    require (n != 0 && digits.length == n && digits.all isHex) .quotedScalar
    let code := (Numeral.digits? 16 digits).getD 0
    require (code < 0xD800 || (0xE000 ≤ code && code < 0x110000)) .quotedScalar
    past (2 + n)
    return Char.ofNat code

def quotedWord (single : Bool) : Nat → List Char → Lex (List Char × Bool)
  | 0, text => return (text, false)
  | fuel + 1, text => do
    let c := (← get).place
    let x := c.head
    if isGap x then return (text, false)
    else if single && x == '\'' then
      if c.peek 1 == '\'' then
        past 2
        quotedWord single fuel ('\'' :: text)
      else return (text, false)
    else if !single && x == '"' then return (text, false)
    else if !single && x == '\\' && isBreak (c.peek 1) then
      setPlace (c.past 1).pastBreak
      return (text, true)
    else if !single && x == '\\' then
      let e ← escape
      quotedWord single fuel (e :: text)
    else
      past 1
      quotedWord single fuel (x :: text)

/-- White space between two words of a scalar: the blanks before the first line break, whether there
was a break at all, and the breaks behind the first. -/
structure Gap where
  blanks : List Char
  broken : Bool
  counted : Bool
  more : Nat

def Gap.text (g : Gap) : List Char :=
  if !g.broken then g.blanks
  else if g.counted && g.more == 0 then [' ']
  else List.replicate g.more '\n'

def quotedGap : Nat → Gap → Lex Gap
  | 0, g => return g
  | fuel + 1, g => do
    let s ← get
    let x := s.place.head
    if isBlank x then
      require (!(g.broken && x == '\t' && (s.place.column : Int) < s.indent)) .tab
      setPlace (s.place.pastBlanks 1)
      quotedGap fuel (if g.broken then g else { g with blanks := g.blanks ++ [x] })
    else if isBreak x then
      setPlace s.place.pastBreak
      quotedGap fuel
        (if g.broken then { g with more := g.more + 1 }
        else { g with broken := true, counted := true })
    else return g

def quotedText (single : Bool) : Nat → List Char → Lex (List Char)
  | 0, text => return text
  | fuel + 1, text => do
    let s ← get
    let c := s.place
    require (!c.atIndicator && !isEnd c.head && s.indent ≤ (c.column : Int)) .quotedScalar
    let (text, escaped) ← quotedWord single (fuel + 1) text
    let x ← head
    if x == (if single then '\'' else '"') then return text
    else
      let gap ← quotedGap (fuel + 1) ⟨[], escaped, false, 0⟩
      quotedText single fuel (gap.text.reverse ++ text)

def mayFollowQuoted (flow sameLine : Bool) (c : Char) : Bool :=
  isBreakOrEnd c || (flow && (c == ',' || c == '\x7d' || c == ']')) ||
    (c == ':' && (flow || sameLine))

def quotedScalar (single : Bool) : Lex Token := do
  let line := (← get).place.line
  past 1
  let text ← quotedText single (← fuel) []
  past 1
  let _ ← skipToLineEnd true
  let s ← get
  require (mayFollowQuoted (s.flowLevel > 0) (line == s.place.line) s.place.head) .quotedScalar
  return .scalar (if single then .singleQuoted else .doubleQuoted) (String.ofList text.reverse)

end AttributeTrees.Yaml.Lexer
