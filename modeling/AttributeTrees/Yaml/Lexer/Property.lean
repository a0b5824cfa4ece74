import AttributeTrees.Numeral
import AttributeTrees.Yaml.Lexer.State
/-!
# Names, tags and directives

What stands in front of a node, an anchor, an alias or a tag, and what stands in front of a
document.
-/
namespace AttributeTrees.Yaml.Lexer

def takeRun (p : Char → Bool) : Lex (List Char) := do
  let (run, c) := (← get).place.span p
  setPlace c
  return run

def anchorName : Lex String := do
  past 1
  let name ← takeRun isAnchorCharacter
  require (!name.isEmpty) .anchor
  return String.ofList name

def escapeWidth? (byte : Nat) : Option Nat :=
  if byte < 0x80 then some 1
  else if byte < 0xC0 then none
  else if byte < 0xE0 then some 2
  else if byte < 0xF0 then some 3
  else if byte < 0xF8 then some 4
  else none

def escapedByte : Lex Nat := do
  let c := (← get).place
  let digits := [c.peek 1, c.peek 2]
  require (c.head == '%' && digits.all isHex) .tag
  past 3
  return (Numeral.digits? 16 digits).getD 0

def escapedRest : Nat → Nat → Lex Nat
  | 0, code => return code
  | n + 1, code => do
    let byte ← escapedByte
    require (0x80 ≤ byte && byte < 0xC0) .tag
    escapedRest n (code * 256 + byte)

def tagEscape : Lex Char := do
  let byte ← escapedByte
  match escapeWidth? byte with
  | some width =>
    let code ← escapedRest (width - 1) byte
    require (code < 0xD800 || (0xE000 ≤ code && code < 0x110000)) .tag
    return Char.ofNat code
  | none => throw .tag

def tagText (p : Char → Bool) : Nat → Lex (List Char)
  | 0 => return []
  | fuel + 1 => do
    let x ← head
    if !p x then return []
    else if x == '%' then
      let e ← tagEscape
      return e :: (← tagText p fuel)
    else
      past 1
      return x :: (← tagText p fuel)

def tagHandle (directive : Bool) : Lex (List Char) := do
  require ((← head) == '!') .tag
  past 1
  let word ← takeRun isWord
  if (← head) == '!' then
    past 1
    return '!' :: word ++ ['!']
  else
    require (!directive || word.isEmpty) .tag
    return '!' :: word

def isClosedHandle (handle : List Char) : Bool :=
  decide (2 ≤ handle.length) && handle.getLast? == some '!'

def verbatimTag : Lex (String × String) := do
  past 2
  let suffix ← tagText isUriCharacter (← fuel)
  require ((← head) == '>') .tag
  past 1
  return ("", String.ofList suffix)

/-- Reads a tag of the form `!handle!suffix` or `!suffix`. The tag `!` has no handle. -/
def shorthandTag : Lex (String × String) := do
  let handle ← tagHandle false
  let suffix ← tagText isTagCharacter (← fuel)
  if isClosedHandle handle then
    require (!suffix.isEmpty) .tag
    return (String.ofList handle, String.ofList suffix)
  else
    let suffix := handle.drop 1 ++ suffix
    return if suffix.isEmpty then ("", "!") else ("!", String.ofList suffix)

def tagToken : Lex Token := do
  let s ← get
  let (handle, suffix) ← if s.place.peek 1 == '<' then verbatimTag else shorthandTag
  let x ← head
  require (isGap x || (s.flowLevel > 0 && isFlow x)) .tag
  return .tag handle suffix (s.place.column == 0)

def versionNumber : Lex Unit := do
  let digits ← takeRun Char.isDigit
  require (!digits.isEmpty && digits.length ≤ 9) .directive

def versionDirective : Lex Token := do
  modify fun s => { s with place := s.place.skipBlanks }
  versionNumber
  require ((← head) == '.') .directive
  past 1
  versionNumber
  return .versionDirective

def tagDirective : Lex Token := do
  modify fun s => { s with place := s.place.skipBlanks }
  let handle ← tagHandle true
  modify fun s => { s with place := s.place.skipBlanks }
  let x ← head
  let first ←
    if x == '!' then do
      past 1
      pure ['!']
    else do
      require (isTagCharacter x) .tag
      tagText isTagCharacter 1
  let start := first ++ (← tagText isUriCharacter (← fuel))
  require (isGap (← head)) .tag
  return .tagDirective (String.ofList handle) (String.ofList start)

def directive : Lex Token := do
  past 1
  let name ← takeRun isWord
  require (!name.isEmpty && isGap (← head)) .directive
  let t ←
    if name == "YAML".toList then versionDirective
    else if name == "TAG".toList then tagDirective
    else do
      modify fun s => { s with place := s.place.toLineEnd }
      pure (.tagDirective "" "")
  let _ ← skipToLineEnd true
  require (isBreakOrEnd (← head)) .directive
  modify fun s => { s with place := s.place.pastBreak }
  return t

end AttributeTrees.Yaml.Lexer
