import AttributeTrees.Feed
import AttributeTrees.Visit.Event
import AttributeTrees.Yaml.Event.Grammar
/-!
# Replay of YAML events

A YAML text is collected whole. At its end the events of its first document are handed to a visitor
as traversal events: mappings as structures, sequences as lists, scalars as strings, and nil for an
alias and for a plain scalar that says so. Only scalars can name attributes.
-/
namespace AttributeTrees.Yaml

open Visit (Visitor)
open Text.Utf8 (Bytes)

/-- A collection that is open. A mapping knows the key whose value is awaited. -/
inductive Open where
  | mapping (key : Option String)
  | sequence
deriving DecidableEq, Repr

structure Replay (σ : Type) where
  visitor : σ
  frames : List Open
  stopped : Bool
  unsupported : Bool

def isNil (style : Style) (text : String) : Bool :=
  style == .plain && ["", "~", "null", "Null", "NULL"].contains text

namespace Replay

variable {σ : Type}

def onto (s : σ) : Replay σ := ⟨s, [], false, false⟩

def awaitsKey (r : Replay σ) : Bool := r.frames.head? == some (.mapping none)

def tell (v : Visitor σ) (r : Replay σ) (e : Visit.Event) : Replay σ :=
  { r with visitor := v.receive r.visitor e }

def valueDone (v : Visitor σ) (r : Replay σ) : Replay σ :=
  match r.frames with
  | .mapping (some name) :: rest =>
    { r.tell v (.leaveAttribute name) with frames := .mapping none :: rest }
  | _ => r

def openFrame (v : Visitor σ) (r : Replay σ) (e : Visit.Event) (f : Open) : Replay σ :=
  if r.awaitsKey then { r with unsupported := true }
  else { r.tell v e with frames := f :: r.frames }

def closeFrame (v : Visitor σ) (r : Replay σ) (e : Visit.Event) : Replay σ :=
  { r.tell v e with frames := r.frames.tail }.valueDone v

def deliver (v : Visitor σ) (r : Replay σ) : Event → Replay σ
  | .streamStart | .streamEnd | .documentStart | .documentEnd => r
  | .scalar style text _ _ =>
    if r.awaitsKey then
      { r.tell v (.enterAttribute text) with frames := .mapping (some text) :: r.frames.tail }
    else
      (r.tell v (.values (if isNil style text then .nil 1 else .string [text]))).valueDone v
  | .sequenceStart _ => r.openFrame v .enterList .sequence
  | .sequenceEnd => r.closeFrame v .leaveList
  | .mappingStart _ => r.openFrame v .enterStruct (.mapping none)
  | .mappingEnd => r.closeFrame v .leaveStruct
  | .alias _ =>
    if r.awaitsKey then { r with unsupported := true }
    else (r.tell v (.values (.nil 1))).valueDone v

def receive (v : Visitor σ) (r : Replay σ) (e : Event) : Replay σ :=
  if r.stopped || r.unsupported then r
  else if v.wantsMore r.visitor then r.deliver v e
  else { r with stopped := true }

def run (v : Visitor σ) (s : σ) (events : List Event × Option Fault) : Bool × σ :=
  let r := events.1.foldl (receive v) (onto s)
  (events.2.isNone && !r.unsupported, r.visitor)

end Replay

structure Pending (σ : Type) where
  visitor : σ
  input : Bytes

namespace Pending

variable {σ : Type}

def finish (v : Visitor σ) (p : Pending σ) : Bool × Pending σ :=
  let (well, s) :=
    match Text.Utf8.decode? p.input with
    | some text => Replay.run v p.visitor (Event.ofFirst text)
    | none => (false, p.visitor)
  if well then
    let s := v.receive (v.receive s .flush) .finish
    (v.verdict s, { p with visitor := s })
  else (false, { p with visitor := v.receive s .fail })

def parser (v : Visitor σ) : Parser (Pending σ) where
  start p := { p with visitor := v.receive p.visitor .start }
  take p data := (true, { p with input := p.input ++ data })
  finish p := p.finish v

end Pending

end AttributeTrees.Yaml
