import AttributeTrees.Decimal.Reading
import AttributeTrees.Element
import AttributeTrees.Text.Quoted
import AttributeTrees.Text.Utf8
/-!
# Tokens of a JSON stream

A token is looked for at the start of the bytes that are there. If they may still be continued, a
token that runs up to their end is not settled yet: a number needs a byte behind it, and a literal,
a string or an escape has to be complete. What no continuation can mend is a fault at once.
-/
namespace AttributeTrees.Json.Stream

open Text.Utf8 (Bytes)

inductive Number where
  | uint (n : IntType.nat64.Value)
  | int (n : IntType.int64.Value)
  | float (x : Float)

inductive Token where
  | openObject
  | closeObject
  | openArray
  | closeArray
  | colon
  | comma
  | string (s : String)
  | number (n : Number)
  | bool (b : Bool)
  | null

namespace Token

def description : Token → String
  | openObject => "'\x7b'"
  | closeObject => "'\x7d'"
  | openArray => "'['"
  | closeArray => "']'"
  | colon => "':'"
  | comma => "','"
  | string _ => "string"
  | number _ => "number"
  | bool _ => "boolean"
  | null => "null"

end Token

/-- Why a stream is no document. Offsets count the bytes from the start of the stream. -/
inductive Fault where
  | unexpectedByte (found : UInt8) (offset : Nat)
  | unexpectedToken (description : String) (offset : Nat)
  | badEscape (offset : Nat)
  | badNumber (text : String) (offset : Nat)
  | badEncoding (offset : Nat)
  | unexpectedEnd
deriving DecidableEq, Repr

def Fault.message : Fault → String
  | unexpectedByte found offset =>
    "unexpected character " ++ Text.Quoted.char (Char.ofNat found.toNat) ++ " at offset " ++
      toString offset
  | unexpectedToken description offset =>
    "unexpected " ++ description ++ " at offset " ++ toString offset
  | badEscape offset => "invalid escape sequence at offset " ++ toString offset
  | badNumber text offset =>
    "invalid number " ++ Text.Quoted.string text ++ " at offset " ++ toString offset
  | badEncoding offset => "invalid UTF-8 in string at offset " ++ toString offset
  | unexpectedEnd => "unexpected end of input"

inductive Scan where
  | token (t : Token) (length : Nat)
  | more
  | fault (f : Fault)

def Scan.incomplete (atEnd : Bool) : Scan := if atEnd then fault .unexpectedEnd else more

def isSpace (b : UInt8) : Bool := b == 0x20 || b == 0x09 || b == 0x0A || b == 0x0D

def isDigit (b : UInt8) : Bool := 0x30 ≤ b && b ≤ 0x39

def isNumberByte (b : UInt8) : Bool :=
  isDigit b || b == 0x2D || b == 0x2B || b == 0x2E || b == 0x65 || b == 0x45

/-- A number without point and exponent is whole if it fits, with a minus a signed one; everything
else is a double, which must be finite. -/
def readNumber? (text : List Char) : Option Number :=
  let float := ((Decimal.readFloat? text).filter Float.isFinite).map Number.float
  if text.any fun c => c = '.' || c = 'e' || c = 'E' then float
  else if text.head? = some '-' then
    ((IntType.int64.ofText? text).map Number.int).or float
  else ((IntType.nat64.ofText? text).map Number.uint).or float

def scanNumber (bytes : Bytes) (offset : Nat) (atEnd : Bool) : Scan :=
  let run := bytes.takeWhile isNumberByte
  if run.length = bytes.length && !atEnd then .more
  else
    let text := run.map fun b => Char.ofNat b.toNat
    match readNumber? text with
    | some n => .token (.number n) run.length
    | none => .fault (.badNumber (String.ofList text) offset)

def scanWord (t : Token) (offset : Nat) (atEnd : Bool) : Bytes → Nat → Bytes → Scan
  | [], done, _ => .token t done
  | _ :: _, _, [] => .incomplete atEnd
  | w :: word, done, b :: bytes =>
    if b == w then scanWord t offset atEnd word (done + 1) bytes
    else .fault (.unexpectedByte b (offset + done))

def hexValue? (b : UInt8) : Option Nat :=
  if isDigit b then some (b.toNat - 0x30)
  else if 0x41 ≤ b && b ≤ 0x46 then some (b.toNat - 0x41 + 10)
  else if 0x61 ≤ b && b ≤ 0x66 then some (b.toNat - 0x61 + 10)
  else none

inductive Part (α : Type) where
  | found (value : α)
  | more
  | never

def fourDigits : Bytes → Part Nat
  | a :: b :: c :: d :: _ =>
    match hexValue? a, hexValue? b, hexValue? c, hexValue? d with
    | some w, some x, some y, some z => .found (((w * 16 + x) * 16 + y) * 16 + z)
    | _, _, _, _ => .never
  | few => if few.all fun b => (hexValue? b).isSome then .more else .never

def lowSurrogate : Bytes → Part Nat
  | [] => .more
  | [b] => if b == 0x5C then .more else .never
  | b :: u :: rest =>
    if b == 0x5C && u == 0x75 then
      match fourDigits rest with
      | .found low => if 0xDC00 ≤ low && low < 0xE000 then .found low else .never
      | .more => .more
      | .never => .never
    else .never

def unicodeEscape (bytes : Bytes) : Part (Char × Nat) :=
  match fourDigits bytes with
  | .more => .more
  | .never => .never
  | .found high =>
    if 0xD800 ≤ high && high < 0xDC00 then
      match lowSurrogate (bytes.drop 4) with
      | .found low => .found (Char.ofNat (0x10000 + (high - 0xD800) * 1024 + (low - 0xDC00)), 10)
      | .more => .more
      | .never => .never
    else if 0xDC00 ≤ high && high < 0xE000 then .never
    else .found (Char.ofNat high, 4)

def shortEscape? (b : UInt8) : Option UInt8 :=
  if b == 0x22 || b == 0x5C || b == 0x2F then some b
  else if b == 0x62 then some 0x08
  else if b == 0x66 then some 0x0C
  else if b == 0x6E then some 0x0A
  else if b == 0x72 then some 0x0D
  else if b == 0x74 then some 0x09
  else none

def closeString (offset : Nat) (decoded : Bytes) (length : Nat) : Scan :=
  match Text.Utf8.decode? decoded with
  | some text => .token (.string (String.ofList text)) length
  | none => .fault (.badEncoding offset)

/-- The rest of a string literal that starts at `offset` and of which `done` bytes were read; they
denote the bytes `decoded`, last first. -/
def scanString (offset : Nat) (atEnd : Bool) (decoded : Bytes) (done : Nat) : Bytes → Scan
  | [] => .incomplete atEnd
  | b :: rest =>
    if b == 0x22 then closeString offset decoded.reverse (done + 1)
    else if b == 0x5C then
      match rest with
      | [] => .incomplete atEnd
      | e :: more =>
        if e == 0x75 then
          match unicodeEscape more with
          | .found (c, n) =>
            scanString offset atEnd ((Text.Utf8.encodeChar c).reverse ++ decoded) (done + 2 + n)
              (more.drop n)
          | .more => .incomplete atEnd
          | .never => .fault (.badEscape (offset + done))
        else
          match shortEscape? e with
          | some byte => scanString offset atEnd (byte :: decoded) (done + 2) more
          | none => .fault (.badEscape (offset + done))
    else if b < 0x20 then .fault (.unexpectedByte b (offset + done))
    else scanString offset atEnd (b :: decoded) (done + 1) rest
termination_by bytes => bytes.length
decreasing_by all_goals (simp; try omega)

def punctuation? (b : UInt8) : Option Token :=
  if b == 0x7B then some .openObject
  else if b == 0x7D then some .closeObject
  else if b == 0x5B then some .openArray
  else if b == 0x5D then some .closeArray
  else if b == 0x3A then some .colon
  else if b == 0x2C then some .comma
  else none

def word? (b : UInt8) : Option (Token × Bytes) :=
  if b == 0x74 then some (.bool true, [0x72, 0x75, 0x65])
  else if b == 0x66 then some (.bool false, [0x61, 0x6C, 0x73, 0x65])
  else if b == 0x6E then some (.null, [0x75, 0x6C, 0x6C])
  else none

def scan (bytes : Bytes) (offset : Nat) (atEnd : Bool) : Scan :=
  match bytes with
  | [] => .incomplete atEnd
  | b :: rest =>
    match punctuation? b with
    | some t => .token t 1
    | none =>
      if b == 0x22 then scanString offset atEnd [] 1 rest
      else if b == 0x2D || isDigit b then scanNumber (b :: rest) offset atEnd
      else
        match word? b with
        | some (t, word) => scanWord t offset atEnd word 1 rest
        | none => .fault (.unexpectedByte b offset)

theorem le_of_scanWord {t u : Token} {offset : Nat} {atEnd : Bool} {word bytes : Bytes}
    {done n : Nat} (h : scanWord t offset atEnd word done bytes = .token u n) : done ≤ n := by
  fun_induction scanWord t offset atEnd word done bytes with
  | case1 done => cases h; exact Nat.le_refl _
  | case2 => unfold Scan.incomplete at h; split at h <;> cases h
  | case3 w word done b bytes _ ih => exact Nat.le_of_succ_le (ih h)
  | case4 => cases h

theorem eq_of_closeString {offset length n : Nat} {decoded : Bytes} {t : Token}
    (h : closeString offset decoded length = .token t n) : n = length := by
  unfold closeString at h
  split at h <;> cases h
  rfl

theorem lt_of_scanString {offset : Nat} {atEnd : Bool} {decoded bytes : Bytes} {done n : Nat}
    {t : Token} (h : scanString offset atEnd decoded done bytes = .token t n) : done < n := by
  fun_induction scanString offset atEnd decoded done bytes with
  | case1 => unfold Scan.incomplete at h; split at h <;> cases h
  | case2 => rw [eq_of_closeString h]; exact Nat.lt_succ_self _
  | case3 => unfold Scan.incomplete at h; split at h <;> cases h
  | case4 decoded done b _ _ e more _ c k _ ih => have := ih h; omega
  | case5 => unfold Scan.incomplete at h; split at h <;> cases h
  | case6 => cases h
  | case7 decoded done b _ _ e more _ _ _ ih => have := ih h; omega
  | case8 => cases h
  | case9 => cases h
  | case10 decoded done b rest _ _ _ ih => have := ih h; omega

theorem pos_of_scanNumber {b : UInt8} {rest : Bytes} {offset n : Nat} {atEnd : Bool} {t : Token}
    (hb : isNumberByte b = true) (h : scanNumber (b :: rest) offset atEnd = .token t n) :
    0 < n := by
  simp only [scanNumber, List.takeWhile_cons_of_pos hb] at h
  split at h
  · cases h
  · split at h <;> cases h
    simp

theorem scan_length_pos {bytes : Bytes} {offset n : Nat} {atEnd : Bool} {t : Token}
    (h : scan bytes offset atEnd = .token t n) : 0 < n := by
  unfold scan at h
  split at h
  · unfold Scan.incomplete at h; split at h <;> cases h
  · split at h
    · cases h; exact Nat.one_pos
    · split at h
      · exact Nat.lt_trans Nat.one_pos (lt_of_scanString h)
      · split at h
        next hb =>
          refine pos_of_scanNumber ?_ h
          simp only [Bool.or_eq_true] at hb
          rcases hb with hb | hb <;> simp [isNumberByte, hb]
        · split at h
          · exact Nat.lt_of_lt_of_le Nat.one_pos (le_of_scanWord h)
          · cases h

end AttributeTrees.Json.Stream
