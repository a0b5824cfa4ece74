import AttributeTrees.Document
import AttributeTrees.Json.Value
import AttributeTrees.Text.Base64
/-!
# JSON documents as trees

Values keep their own kinds. Texts are read as any type, bytes as base64; numbers are converted to
the other types, but not to texts. Members can also be named by their index, where no key is that
text.
-/
namespace AttributeTrees.Json

namespace Whole

def toFloat (n : Whole) : Float :=
  if n.val < 0 then -n.val.natAbs.toUInt64.toFloat else n.val.toNat.toUInt64.toFloat

def kind (n : Whole) : Kind :=
  if -2147483648 ≤ n.val ∧ n.val ≤ 2147483647 then .int32 else .int64

end Whole

namespace Value

def scalarKind : Value → Kind
  | bool _ => .bool
  | whole n => n.kind
  | float _ => .float
  | string _ => .string
  | null => .unknown
  | array _ | object _ => .composite

def sharedKind : List Value → Kind
  | [] => .composite
  | v :: rest =>
    if v.scalarKind.isScalar && rest.all (·.scalarKind == v.scalarKind) then v.scalarKind
    else .composite

def kind : Value → Kind
  | array items => sharedKind items
  | v => v.scalarKind

def number? : Value → Option Float
  | whole n => some n.toFloat
  | float x => some x
  | _ => none

def readBool? : Value → Option Bool
  | bool b => some b
  | string s => Element.readBool? s
  | v => v.number?.map (· != 0.0)

def read? : (t : Element) → Value → Option t.Value
  | .bool, v => v.readBool?
  | .tribool, null => some none
  | .tribool, string s => Element.readTribool? s
  | .tribool, v => v.readBool?.map some
  | .char, string s => Element.readChar? s
  | .int t, whole n => t.ofInt? n.val
  | .int t, string s => Element.read? (.int t) s
  | .float, string s => Element.read? .float s
  | .float, v => v.number?.map Float.toFloat32
  | .duration, string s => Duration.ofText? s
  | .duration, v => v.number?.bind Duration.ofSeconds?
  | .text, string s => some s
  | _, _ => none

/-- Puts the characters of a text into slots, the bytes it encodes, or what it reads as into the
first. -/
def fetchText (s : String) (offset : Nat) : (t : Element) → List t.Value → Nat × List t.Value
  | .char, slots => Span.copyEach (s.toList.drop offset) slots
  | .int .byte, slots =>
    match Text.Base64.decode? s.toList with
    | some bytes => Span.copyBlock ((bytes.drop offset).map IntType.ofByte) slots
    | none => (0, slots)
  | t, slots =>
    if offset = 0 then Span.counted (Span.store slots 0 (read? t (string s))) else (0, slots)

def fetch (v : Value) (offset : Nat) (t : Element) (slots : List t.Value) :
    Nat × List t.Value :=
  match v with
  | array items => Span.fill ((items.drop offset).map (read? t)) slots
  | string s => fetchText s offset t slots
  | null | object _ => (0, slots)
  | v => if offset = 0 then Span.counted (Span.store slots 0 (read? t v)) else (0, slots)

def valueCount : Value → Nat
  | array items => items.length
  | null | object _ => 0
  | _ => 1

def preview : Value → Option String
  | null => some "null"
  | bool b => some (Run.boolText b)
  | whole n => some (toString n.val)
  | float x => some (Decimal.Layout.json.float x)
  | string s => some s
  | array _ | object _ => none

def isArray : Value → Bool
  | array _ => true
  | _ => false

def childCount : Value → Nat
  | array items => items.length
  | object members => members.length
  | _ => 0

def child? : Value → Nat → Option (Option String × Value)
  | array items, i => items[i]?.map (none, ·)
  | object members, i => members[i]?.map fun (key, v) => (some key, v)
  | _, _ => none

def indexOf? : Value → String → Option Nat
  | object members, name => (members.findIdx? (·.1 == name)).or (Numeral.index? name)
  | array _, name => Numeral.index? name
  | _, _ => none

mutual

def size : Value → Nat
  | string s => s.length + 1
  | array items => sizeItems items + 1
  | object members => sizeMembers members + 1
  | _ => 1

def sizeItems : List Value → Nat
  | [] => 0
  | v :: rest => v.size + sizeItems rest

def sizeMembers : List (String × Value) → Nat
  | [] => 0
  | (_, v) :: rest => v.size + sizeMembers rest

end

def form : Document.Form Value where
  name _ := none
  preview := preview
  kind := kind
  isLink _ := false
  isList := isArray
  childCount := childCount
  child? := child?
  indexOf? := indexOf?
  valueCount := valueCount
  fetch := fetch
  size := size

end Value

end AttributeTrees.Json
