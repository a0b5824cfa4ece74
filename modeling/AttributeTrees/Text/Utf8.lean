/-!
# UTF-8

Bytes are read unit by unit: a unit is one well-formed character, or the longest run of bytes that
begins one and breaks off (one byte if none can begin there). A text is well-formed when every unit
is a character; the forgiving reading puts U+FFFD for every other unit.
-/
namespace AttributeTrees.Text.Utf8

abbrev Bytes := List UInt8

def isContinuation (b : UInt8) : Bool := 0x80 ≤ b && b ≤ 0xBF

def followsLead (lead second : UInt8) : Bool :=
  if lead == 0xE0 then 0xA0 ≤ second && second ≤ 0xBF
  else if lead == 0xED then 0x80 ≤ second && second ≤ 0x9F
  else if lead == 0xF0 then 0x90 ≤ second && second ≤ 0xBF
  else if lead == 0xF4 then 0x80 ≤ second && second ≤ 0x8F
  else isContinuation second

def payload (b : UInt8) (bits : Nat) : Nat := b.toNat % Nat.pow 2 bits

/-- The unit that starts with `lead`: its character, if it is one, and how many of the following
bytes belong to it. -/
def unit (lead : UInt8) (rest : Bytes) : Option Char × Nat :=
  if lead < 0x80 then (some (Char.ofNat lead.toNat), 0)
  else if 0xC2 ≤ lead && lead ≤ 0xDF then
    match rest with
    | b :: _ =>
      if isContinuation b then (some (Char.ofNat (payload lead 5 * 64 + payload b 6)), 1)
      else (none, 0)
    | [] => (none, 0)
  else if 0xE0 ≤ lead && lead ≤ 0xEF then
    match rest with
    | b :: more =>
      if followsLead lead b then
        match more with
        | c :: _ =>
          if isContinuation c then
            (some (Char.ofNat ((payload lead 4 * 64 + payload b 6) * 64 + payload c 6)), 2)
          else (none, 1)
        | [] => (none, 1)
      else (none, 0)
    | [] => (none, 0)
  else if 0xF0 ≤ lead && lead ≤ 0xF4 then
    match rest with
    | b :: more =>
      if followsLead lead b then
        match more with
        | c :: final =>
          if isContinuation c then
            match final with
            | d :: _ =>
              if isContinuation d then
                (some (Char.ofNat
                  (((payload lead 3 * 64 + payload b 6) * 64 + payload c 6) * 64 + payload d 6)), 3)
              else (none, 2)
            | [] => (none, 2)
          else (none, 1)
        | [] => (none, 1)
      else (none, 0)
    | [] => (none, 0)
  else (none, 0)

def units : Bytes → List (Option Char)
  | [] => []
  | lead :: rest => (unit lead rest).1 :: units (rest.drop (unit lead rest).2)
termination_by bytes => bytes.length
decreasing_by simp only [List.length_drop, List.length_cons]; omega

def decode? (bytes : Bytes) : Option (List Char) := (units bytes).mapM id

def replacement : Char := Char.ofNat 0xFFFD

def decodeLossy (bytes : Bytes) : List Char := (units bytes).map (·.getD replacement)

def encodeChar (c : Char) : Bytes :=
  let n := c.toNat
  if n < 0x80 then [n.toUInt8]
  else if n < 0x800 then [(0xC0 + n / 64).toUInt8, (0x80 + n % 64).toUInt8]
  else if n < 0x10000 then
    [(0xE0 + n / 4096).toUInt8, (0x80 + n / 64 % 64).toUInt8, (0x80 + n % 64).toUInt8]
  else
    [(0xF0 + n / 262144).toUInt8, (0x80 + n / 4096 % 64).toUInt8, (0x80 + n / 64 % 64).toUInt8,
      (0x80 + n % 64).toUInt8]

def encode (text : List Char) : Bytes := text.flatMap encodeChar

def encodeString (text : String) : Bytes := encode text.toList

@[simp] theorem units_nil : units [] = [] := by simp [units]

theorem units_cons (lead : UInt8) (rest : Bytes) :
    units (lead :: rest) = (unit lead rest).1 :: units (rest.drop (unit lead rest).2) := by
  rw [units]

theorem unit_of_lt {lead : UInt8} (h : lead < 0x80) (rest : Bytes) :
    unit lead rest = (some (Char.ofNat lead.toNat), 0) := by
  simp [unit, h]

end AttributeTrees.Text.Utf8
