import AttributeTrees.Json.Stream.Token
import AttributeTrees.Json.Value
/-!
# Reading JSON texts

A text is one value with white space around it. A reader answers what it found at the start of the
bytes and the bytes behind that. Of a repeated key the last value counts, at the place of the first.
Collections may be nested 127 deep.
-/
namespace AttributeTrees.Json.Reading

open Text.Utf8 (Bytes)
open Json.Stream (isSpace isDigit)

inductive Fault where
  | ended
  | malformed
deriving DecidableEq, Repr

def skipSpace (bytes : Bytes) : Bytes := bytes.dropWhile isSpace

def maxWhole : Nat := 18446744073709551615

def appendDigits : Nat → Bytes → Nat × Bytes
  | n, [] => (n, [])
  | n, d :: rest =>
    let next := n * 10 + (d.toNat - 0x30)
    if next ≤ maxWhole then appendDigits next rest else (n, d :: rest)

def powerOfTen (n : Nat) : Float := (Decimal.Literal.finite false 1 n).toFloat

def scale? (x : Float) (power : Int) : Option Float :=
  if power.natAbs ≤ 308 then
    let factor := powerOfTen power.natAbs
    if 0 ≤ power then
      let y := x * factor
      if y.isInf then none else some y
    else some (x / factor)
  else if x == 0.0 then some x
  else if 0 ≤ power then none
  else scale? (x / 1e308) (power + 308)
termination_by (-power).toNat
decreasing_by omega

structure Parts where
  negative : Bool
  whole : Bytes
  fraction : Bytes
  exponent : Option Int
  hasPoint : Bool

/-- The value of a number. Of the digits of the whole part, those that take it to 2^64 or beyond
only count by their number; so do, from the first such digit on, those of the fraction not at
all. -/
def Parts.value (p : Parts) : Option Value :=
  let (n, dropped) := appendDigits 0 p.whole
  if !p.hasPoint && p.exponent.isNone && dropped.isEmpty then
    if !p.negative then
      (IntType.nat64.ofInt? n).map .ofNat64
    else if n = 0 then some (.float (-0.0))
    else
      match IntType.int64.ofInt? (-(n : Int)) with
      | some v => some (.ofInt64 v)
      | none => some (.float (-n.toUInt64.toFloat))
  else
    let (m, left) := appendDigits n p.fraction
    let power : Int := dropped.length - (p.fraction.length - left.length : Nat) + p.exponent.getD 0
    (scale? m.toUInt64.toFloat power).map fun x => .float (if p.negative then -x else x)

def digits (bytes : Bytes) : Except Fault (Bytes × Bytes) :=
  match bytes with
  | [] => .error .ended
  | b :: _ =>
    if isDigit b then .ok (bytes.takeWhile isDigit, bytes.dropWhile isDigit) else .error .malformed

def wholePart (bytes : Bytes) : Except Fault (Bytes × Bytes) := do
  let (run, rest) ← digits bytes
  if run.head? == some 0x30 && run.length != 1 then .error .malformed else .ok (run, rest)

def fractionPart (bytes : Bytes) : Except Fault ((Bytes × Bool) × Bytes) := do
  match bytes with
  | b :: rest =>
    if b == 0x2E then
      let (run, rest) ← digits rest
      return ((run, true), rest)
    else return (([], false), bytes)
  | [] => return (([], false), [])

def decimal (run : Bytes) : Nat := run.foldl (fun n d => n * 10 + (d.toNat - 0x30)) 0

def exponentPart (bytes : Bytes) : Except Fault ((Option Int) × Bytes) := do
  match bytes with
  | b :: rest =>
    if b == 0x65 || b == 0x45 then
      let minus := rest.head? == some 0x2D
      let (run, rest) ← digits (if minus || rest.head? == some 0x2B then rest.drop 1 else rest)
      let n : Int := decimal run
      return (some (if minus then -n else n), rest)
    else return (none, bytes)
  | [] => return (none, [])

def number (negative : Bool) (bytes : Bytes) : Except Fault (Value × Bytes) := do
  let (whole, rest) ← wholePart bytes
  let ((fraction, hasPoint), rest) ← fractionPart rest
  let (exponent, rest) ← exponentPart rest
  match (Parts.mk negative whole fraction exponent hasPoint).value with
  | some v => .ok (v, rest)
  | none => .error .malformed

/-- Four hexadecimal digits; fewer bytes than four end the text too early, whatever they are. -/
def fourDigits (bytes : Bytes) : Except Fault (Nat × Bytes) :=
  if (bytes.take 4).length < 4 then .error .ended
  else
    match Stream.fourDigits bytes with
    | .found n => .ok (n, bytes.drop 4)
    | _ => .error .malformed

def lowSurrogate (bytes : Bytes) : Except Fault (Nat × Bytes) :=
  match bytes with
  | [] => .error .ended
  | [b] => .error (if b == 0x5C then .ended else .malformed)
  | b :: u :: rest =>
    if b == 0x5C && u == 0x75 then do
      let (n, rest) ← fourDigits rest
      if 0xDC00 ≤ n && n < 0xE000 then .ok (n, rest) else .error .malformed
    else .error .malformed

def unicodeEscape (bytes : Bytes) : Except Fault (Char × Bytes) := do
  let (high, rest) ← fourDigits bytes
  if 0xDC00 ≤ high && high < 0xE000 then .error .malformed
  else if 0xD800 ≤ high && high < 0xDC00 then
    let (low, rest) ← lowSurrogate rest
    .ok (Char.ofNat (0x10000 + (high - 0xD800) * 1024 + (low - 0xDC00)), rest)
  else .ok (Char.ofNat high, rest)

def literal : Nat → Bytes → Bytes → Except Fault (Bytes × Bytes)
  | 0, _, _ => .error .malformed
  | _ + 1, _, [] => .error .ended
  | fuel + 1, decoded, b :: rest =>
    if b == 0x22 then .ok (decoded.reverse, rest)
    else if b == 0x5C then
      match rest with
      | [] => .error .ended
      | e :: more =>
        if e == 0x75 then
          match unicodeEscape more with
          | .ok (c, more) => literal fuel ((Text.Utf8.encodeChar c).reverse ++ decoded) more
          | .error f => .error f
        else
          match Stream.shortEscape? e with
          | some byte => literal fuel (byte :: decoded) more
          | none => .error .malformed
    else if b < 0x20 then .error .malformed
    else literal fuel (b :: decoded) rest

def string (bytes : Bytes) : Except Fault (String × Bytes) := do
  let (decoded, rest) ← literal (bytes.length + 1) [] bytes
  match Text.Utf8.decode? decoded with
  | some text => .ok (String.ofList text, rest)
  | none => .error .malformed

def word : Bytes → Bytes → Except Fault Bytes
  | [], rest => .ok rest
  | _ :: _, [] => .error .ended
  | w :: ws, b :: rest => if b == w then word ws rest else .error .malformed

def key (bytes : Bytes) : Except Fault (String × Bytes) :=
  match bytes with
  | [] => .error .ended
  | b :: rest =>
    if b == 0x22 then do
      let (k, rest) ← string rest
      match skipSpace rest with
      | [] => .error .ended
      | c :: rest => if c == 0x3A then .ok (k, rest) else .error .malformed
    else .error .malformed

/-- Whether a collection goes on, at its start or behind an item: nothing if its closing byte comes,
otherwise the bytes from the next item on. -/
def next (close : UInt8) (first : Bool) (bytes : Bytes) : Except Fault (Option Bytes × Bytes) :=
  match skipSpace bytes with
  | [] => .error .ended
  | b :: rest =>
    if b == close then .ok (none, rest)
    else if first then .ok (some (b :: rest), [])
    else if b == 0x2C then
      match skipSpace rest with
      | [] => .error .ended
      | c :: more => if c == close then .error .malformed else .ok (some (c :: more), [])
    else .error .malformed

mutual

def value : Nat → Nat → Bytes → Except Fault (Value × Bytes)
  | 0, _, _ => .error .malformed
  | fuel + 1, depth, bytes =>
    match skipSpace bytes with
    | [] => .error .ended
    | b :: rest =>
      if b == 0x6E then do .ok (.null, ← word [0x75, 0x6C, 0x6C] rest)
      else if b == 0x74 then do .ok (.bool true, ← word [0x72, 0x75, 0x65] rest)
      else if b == 0x66 then do .ok (.bool false, ← word [0x61, 0x6C, 0x73, 0x65] rest)
      else if b == 0x2D then number true rest
      else if isDigit b then number false (b :: rest)
      else if b == 0x22 then do
        let (s, rest) ← string rest
        .ok (.string s, rest)
      else
        match depth with
        | 0 => .error .malformed
        | depth + 1 =>
          if b == 0x5B then do
            let (items, rest) ← items fuel depth true rest
            .ok (.array items, rest)
          else if b == 0x7B then do
            let (members, rest) ← members fuel depth true [] rest
            .ok (.object members, rest)
          else .error .malformed

def items : Nat → Nat → Bool → Bytes → Except Fault ((List Value) × Bytes)
  | 0, _, _, _ => .error .malformed
  | fuel + 1, depth, first, bytes => do
    match ← next 0x5D first bytes with
    | (none, rest) => .ok ([], rest)
    | (some bytes, _) =>
      let (v, rest) ← value fuel depth bytes
      let (vs, rest) ← items fuel depth false rest
      .ok (v :: vs, rest)

def members : Nat → Nat → Bool → List (String × Value) → Bytes →
    Except Fault ((List (String × Value)) × Bytes)
  | 0, _, _, _, _ => .error .malformed
  | fuel + 1, depth, first, before, bytes => do
    match ← next 0x7D first bytes with
    | (none, rest) => .ok (before, rest)
    | (some bytes, _) =>
      let (k, rest) ← key bytes
      let (v, rest) ← value fuel depth rest
      members fuel depth false (Members.put k v before) rest

end

def maxDepth : Nat := 127

def ofText (text : String) : Except Fault Value := do
  let bytes := Text.Utf8.encodeString text
  let (v, rest) ← value (2 * bytes.length + 2) maxDepth bytes
  if (skipSpace rest).isEmpty then .ok v else .error .malformed

theorem string_of_literal {bytes decoded rest : Bytes} {text : List Char}
    (hl : literal (bytes.length + 1) [] bytes = .ok (decoded, rest))
    (hd : Text.Utf8.decode? decoded = some text) :
    string bytes = .ok (String.ofList text, rest) := by
  rw [string, hl]
  simp only [bind, Except.bind, hd]

theorem key_of_string {bytes rest : Bytes} {k : String}
    (h : string bytes = .ok (k, 0x3A :: rest)) : key (0x22 :: bytes) = .ok (k, rest) := by
  simp only [key, h]
  rfl

theorem members_of_key {fuel depth : Nat} {first : Bool} {before : List (String × Value)}
    {bytes named more rest : Bytes} {k : String} {v : Value}
    (hn : next 0x7D first bytes = .ok (some named, [])) (hk : key named = .ok (k, more))
    (hv : value fuel depth more = .ok (v, rest)) :
    members (fuel + 1) depth first before bytes =
      members fuel depth false (Members.put k v before) rest := by
  rw [members, hn]
  simp only [bind, Except.bind, hk, hv]

theorem ofText_of_members {text : String} {bytes : Bytes} {found : List (String × Value)}
    (ht : Text.Utf8.encodeString text = 0x7B :: bytes)
    (hm : members (2 * bytes.length + 3) 126 true [] bytes = .ok (found, [])) :
    ofText text = .ok (.object found) := by
  have hv : value (2 * bytes.length + 4) 127 (0x7B :: bytes) = .ok (.object found, []) := by
    rw [value]
    change (members (2 * bytes.length + 3) 126 true [] bytes >>= fun x => _) = _
    rw [hm]
    rfl
  rw [ofText, ht]
  change (value (2 * bytes.length + 4) 127 (0x7B :: bytes) >>= fun x => _) = _
  rw [hv]
  rfl

end AttributeTrees.Json.Reading
