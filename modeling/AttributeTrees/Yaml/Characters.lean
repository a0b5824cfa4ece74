/-!
# Characters of YAML

The classes by which the syntax tells characters apart. NUL marks the end of a text, and a text that
holds one ends there.
-/
namespace AttributeTrees.Yaml

def endMark : Char := Char.ofNat 0

def isEnd (c : Char) : Bool := c == endMark

def isBreak (c : Char) : Bool := c == '\n' || c == '\r'

def isBreakOrEnd (c : Char) : Bool := isBreak c || isEnd c

def isBlank (c : Char) : Bool := c == ' ' || c == '\t'

def isGap (c : Char) : Bool := isBlank c || isBreakOrEnd c

def isFlow (c : Char) : Bool := c == ',' || c == '[' || c == ']' || c == '\x7b' || c == '\x7d'

def isWord (c : Char) : Bool := c.isAlphanum || c == '_' || c == '-'

def isHex (c : Char) : Bool :=
  c.isDigit || ('a' ≤ c && c ≤ 'f') || ('A' ≤ c && c ≤ 'F')

def isAnchorCharacter (c : Char) : Bool :=
  !isGap c && !isFlow c && c != Char.ofNat 0xFEFF

def isUriCharacter (c : Char) : Bool :=
  c.isAlphanum || c == '-' || "#;/?:@&=+$,_.!~*'()[]%".toList.contains c

def isTagCharacter (c : Char) : Bool := isUriCharacter c && !isFlow c && c != '!'

end AttributeTrees.Yaml
