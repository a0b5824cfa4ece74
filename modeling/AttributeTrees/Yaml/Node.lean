import AttributeTrees.Decimal.Reading
import AttributeTrees.Element
import AttributeTrees.Yaml.Event.Grammar
/-!
# Nodes of YAML

A document as a tree. Plain scalars are told apart by their text; a number keeps its text if it is
no whole number. The keys of a mapping are nodes too and differ from each other.
-/
namespace AttributeTrees.Yaml

inductive Node where
  | null
  /-- A scalar that its tag does not allow, or an alias of a node around it. -/
  | bad
  | bool (b : Bool)
  | whole (n : IntType.int64.Value)
  | real (text : String)
  | string (text : String)
  | sequence (items : List Node)
  | mapping (entries : List (Node × Node))
deriving Inhabited

namespace Node

mutual

def same : Node → Node → Bool
  | null, null => true
  | bad, bad => true
  | bool a, bool b => a == b
  | whole a, whole b => a == b
  | real a, real b => a == b
  | string a, string b => a == b
  | sequence a, sequence b => sameItems a b
  | mapping a, mapping b => sameEntries a b
  | _, _ => false

def sameItems : List Node → List Node → Bool
  | [], [] => true
  | a :: as, b :: bs => same a b && sameItems as bs
  | _, _ => false

def sameEntries : List (Node × Node) → List (Node × Node) → Bool
  | [], [] => true
  | (k, a) :: as, (l, b) :: bs => same k l && same a b && sameEntries as bs
  | _, _ => false

end

def isBad : Node → Bool
  | bad => true
  | _ => false

def ofWhole? (base : Nat) (text : List Char) : Option Node :=
  ((Numeral.signed? base text).bind (IntType.int64.ofInt?)).map whole

def infinities : List String :=
  [".inf", ".Inf", ".INF", "+.inf", "+.Inf", "+.INF", "-.inf", "-.Inf", "-.INF"]

def notNumbers : List String := [".nan", ".NaN", ".NAN"]

def isReal (text : String) : Bool :=
  infinities.contains text || notNumbers.contains text ||
    (text.toList.any Char.isDigit && (Decimal.readFloat? text.toList).isSome)

def ofReal? (text : String) : Option Node := if isReal text then some (real text) else none

def ofMarked? (text : String) : Option Node :=
  match text.toList with
  | '0' :: 'x' :: digits => ofWhole? 16 digits
  | '0' :: 'o' :: digits => ofWhole? 8 digits
  | '+' :: digits => ofWhole? 10 digits
  | _ => none

def ofTruth? (text : String) : Option Node :=
  if ["true", "True", "TRUE"].contains text then some (bool true)
  else if ["false", "False", "FALSE"].contains text then some (bool false)
  else none

def ofWord? (text : String) : Option Node :=
  if ["", "~", "null"].contains text then some null else ofTruth? text

def ofPlain (text : String) : Node :=
  (ofMarked? text <|> ofWord? text <|> ofWhole? 10 text.toList <|> ofReal? text).getD (string text)

def ofTagged (tag : Tag) (text : String) : Node :=
  if tag.start != Grammar.standardTags then string text
  else
    match tag.suffix with
    | "bool" => (ofTruth? text).getD bad
    | "int" => (ofWhole? 10 text.toList).getD bad
    | "float" => (ofReal? text).getD bad
    | "null" => if ["~", "null"].contains text then null else bad
    | _ => string text

def ofScalar (style : Style) (text : String) (tag : Option Tag) : Node :=
  if style != .plain then string text
  else
    match tag with
    | some t => ofTagged t text
    | none => ofPlain text

inductive Frame where
  | sequence (anchor : Option Nat) (items : List Node)
  | mapping (anchor : Option Nat) (entries : List (Node × Node)) (key : Node)

structure Assembly where
  frames : List Frame
  root : Option Node
  anchored : List (Nat × Node)
  documents : List Node

namespace Assembly

def empty : Assembly := ⟨[], none, [], []⟩

/-- Puts a node in at the open place; there is no place for a value whose key is there already. -/
def put (a : Assembly) (anchor : Option Nat) (n : Node) : Except Fault Assembly :=
  let a :=
    match anchor with
    | some i => { a with anchored := (i, n) :: a.anchored }
    | none => a
  match a.frames with
  | [] => .ok { a with root := some n }
  | .sequence i items :: rest => .ok { a with frames := .sequence i (n :: items) :: rest }
  | .mapping i entries key :: rest =>
    if key.isBad then .ok { a with frames := .mapping i entries n :: rest }
    else if entries.any fun e => e.1.same key then .error .duplicateKey
    else .ok { a with frames := .mapping i ((key, n) :: entries) .bad :: rest }

def close (a : Assembly) : Except Fault Assembly :=
  match a.frames with
  | .sequence i items :: rest =>
    { a with frames := rest }.put i (.sequence items.reverse)
  | .mapping i entries _ :: rest =>
    { a with frames := rest }.put i (.mapping entries.reverse)
  | [] => .ok a

def receive (a : Assembly) : Event → Except Fault Assembly
  | .streamStart | .streamEnd | .documentStart => .ok a
  | .documentEnd => .ok { a with root := none, documents := a.root.getD .bad :: a.documents }
  | .sequenceStart i => .ok { a with frames := .sequence i [] :: a.frames }
  | .mappingStart i => .ok { a with frames := .mapping i [] .bad :: a.frames }
  | .sequenceEnd | .mappingEnd => a.close
  | .scalar style text i tag => a.put i (ofScalar style text tag)
  | .alias i => a.put none ((a.anchored.lookup i).getD .bad)

end Assembly

def documents (text : List Char) : Except Fault (List Node) := do
  let (events, fault) := Event.ofText text
  let a ← events.foldlM Assembly.receive Assembly.empty
  match fault with
  | some f => throw f
  | none => return a.documents.reverse

def ofText? (text : List Char) : Option Node :=
  match documents text with
  | .ok (n :: _) => some n
  | .ok [] => some null
  | .error _ => none

end Node

end AttributeTrees.Yaml
