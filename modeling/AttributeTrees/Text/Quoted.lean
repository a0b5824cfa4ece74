import AttributeTrees.Text.Hidden
/-!
# Quoted text

A quoted text stands between two marks on one line. The mark itself and the backslash are written
after a backslash; tabulator, line feed, carriage return and NUL have escapes of one letter; every
other character that cannot be shown is written `\u` and its code point in hexadecimal between
braces.
-/
namespace AttributeTrees.Text.Quoted

def hexDigit (n : Nat) : Char :=
  if n < 10 then Char.ofNat ('0'.toNat + n) else Char.ofNat ('a'.toNat + (n - 10))

def hexDigits (n : Nat) : List Char :=
  if n < 16 then [hexDigit n] else hexDigits (n / 16) ++ [hexDigit (n % 16)]
termination_by n

def character (mark c : Char) : List Char :=
  if c = Char.ofNat 0 then ['\\', '0']
  else if c = '\t' then ['\\', 't']
  else if c = '\n' then ['\\', 'n']
  else if c = '\r' then ['\\', 'r']
  else if c = '\\' || c = mark then ['\\', c]
  else if isHidden c then '\\' :: 'u' :: '\x7b' :: hexDigits c.toNat ++ ['\x7d']
  else [c]

def encode (mark : Char) (text : List Char) : List Char :=
  mark :: text.flatMap (character mark) ++ [mark]

def string (text : String) : String := String.ofList (encode '"' text.toList)

def char (c : Char) : String := String.ofList (encode '\'' [c])

end AttributeTrees.Text.Quoted
