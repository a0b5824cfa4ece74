import AttributeTrees.Build.Step
/-!
# Placing events

A visitor that hands everything it receives to a builder, with the path it belongs to. The name of
an attribute is a segment. A structure or list that is an item of a list is placed at its index;
single values of a list are placed, in order, at the list's own path and count towards the index of
the items behind them.
-/
namespace AttributeTrees.Build

open Visit (Event Visitor)

/-- An open structure or list; `indexed` if its own index was pushed onto the path. -/
inductive Frame where
  | struct (indexed : Bool)
  | list (indexed : Bool) (next : Nat)
deriving DecidableEq, Repr

structure Placing (β : Type) where
  builder : β
  path : Path
  frames : List Frame

namespace Placing

variable {β : Type}

def onto (builder : β) : Placing β := ⟨builder, Path.here, []⟩

/-- Opens an item: inside a list its index is pushed and counted. Answers whether it was. -/
def enterItem (p : Placing β) : Bool × Placing β :=
  match p.frames with
  | .list indexed next :: rest =>
    (true,
      { p with path := p.path.push (toString next), frames := .list indexed (next + 1) :: rest })
  | _ => (false, p)

def countItems (n : Nat) : List Frame → List Frame
  | .list indexed next :: rest => .list indexed (next + n) :: rest
  | frames => frames

def leaveItem (p : Placing β) (indexed : Bool) : Placing β :=
  if indexed then { p with path := p.path.pop } else p

variable (b : Builder β)

def hand (p : Placing β) (step : Step) : Placing β := { p with builder := b.receive p.builder step }

def enterStruct (p : Placing β) : Placing β :=
  let (indexed, q) := p.enterItem
  hand b { q with frames := .struct indexed :: q.frames } (.addObject q.path)

def enterList (p : Placing β) : Placing β :=
  let (indexed, q) := p.enterItem
  hand b { q with frames := .list indexed 0 :: q.frames } (.addList q.path)

def leaveStruct (p : Placing β) : Placing β :=
  let q := hand b p (.finishObject p.path)
  match q.frames with
  | [] => q
  | .struct indexed :: rest => leaveItem { q with frames := rest } indexed
  | _ :: rest => { q with frames := rest }

def leaveList (p : Placing β) : Placing β :=
  let q := hand b p (.finishList p.path)
  match q.frames with
  | [] => q
  | .list indexed _ :: rest => leaveItem { q with frames := rest } indexed
  | _ :: rest => { q with frames := rest }

def receive (p : Placing β) : Event → Placing β
  | .start => hand b { p with path := Path.here, frames := [] } .start
  | .values run =>
    { hand b p (.add p.path run) with frames := countItems run.length p.frames }
  | .enterStruct => enterStruct b p
  | .enterAttribute name => { p with path := p.path.push name }
  | .leaveAttribute _ => { p with path := p.path.pop }
  | .leaveStruct => leaveStruct b p
  | .enterList => enterList b p
  | .leaveList => leaveList b p
  | .flush => p
  | .unparsed blocks => hand b p (.unparsed blocks)
  | .finish => hand b p .finish
  | .fail => hand b p .fail

def visitor : Visitor (Placing β) where
  wantsMore p := b.wantsMore p.builder
  receive := receive b
  verdict p := b.verdict p.builder

end Placing

end AttributeTrees.Build
