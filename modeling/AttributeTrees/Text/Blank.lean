/-!
# White space

The characters with the property `White_Space`, and the two cuts made at them: a text without the
white space at its ends, and the words between runs of it.
-/
namespace AttributeTrees.Text

/-- The twenty-five code points of `White_Space`. -/
def isBlank (c : Char) : Bool :=
  let n := c.toNat
  (0x09 ≤ n && n ≤ 0x0D) || n == 0x20 || n == 0x85 || n == 0xA0 || n == 0x1680 ||
    (0x2000 ≤ n && n ≤ 0x200A) || n == 0x2028 || n == 0x2029 || n == 0x202F || n == 0x205F ||
    n == 0x3000

def trimLeft (s : List Char) : List Char := s.dropWhile isBlank

def trimRight (s : List Char) : List Char := (s.reverse.dropWhile isBlank).reverse

def trim (s : List Char) : List Char := trimRight (trimLeft s)

def firstWord? (s : List Char) : Option (List Char) :=
  match trimLeft s with
  | [] => none
  | word => some (word.takeWhile (!isBlank ·))

def stripSuffix? (suffix text : List Char) : Option (List Char) :=
  if suffix.isSuffixOf text then some (text.take (text.length - suffix.length)) else none

end AttributeTrees.Text
