import AttributeTrees.Visit.Event
/-!
# Printing events

A printer writes a line for every event, indented by the depth of nesting. A line is three writes:
the indentation, the text, the line feed. After the first write or flush that fails nothing more is
written, and the printer wants no more.
-/
namespace AttributeTrees.Visit

open Text.Utf8 (Bytes encodeString)

structure Sink where
  writes : List Bytes
  /-- How many bytes it still takes; without a number it takes all. -/
  room : Option Nat
  flushFails : Bool

namespace Sink

def ofRoom (room : Option Nat) (flushFails : Bool) : Sink := ⟨[], room, flushFails⟩

def unlimited : Sink := ofRoom none false

def written (s : Sink) : Bytes := s.writes.reverse.flatten

def write (s : Sink) (data : Bytes) : Bool × Sink :=
  match s.room with
  | none => (true, { s with writes := data :: s.writes })
  | some n =>
    (data.length ≤ n,
      { s with writes := data.take n :: s.writes, room := some (n - data.length) })

@[simp] theorem written_ofRoom (room : Option Nat) (flushFails : Bool) :
    (ofRoom room flushFails).written = [] := rfl

theorem written_write (s : Sink) (data : Bytes) :
    (s.write data).2.written =
      s.written ++ (s.room.elim data fun n => data.take n) := by
  unfold write
  split <;> simp [written, *]

end Sink

structure Printer where
  sink : Sink
  depth : Nat
  broken : Bool

namespace Printer

def onto (sink : Sink) : Printer := ⟨sink, 0, false⟩

def put (p : Printer) (data : Bytes) : Printer :=
  if p.broken then p
  else
    let (ok, sink) := p.sink.write data
    { p with sink := sink, broken := !ok }

def indentation (depth : Nat) : Bytes := List.replicate (2 * depth) 0x20

def line (p : Printer) (text : String) : Printer :=
  ((p.put (indentation p.depth)).put (encodeString text)).put [0x0A]

def deeper (p : Printer) : Printer := { p with depth := p.depth + 1 }

def shallower (p : Printer) : Printer := { p with depth := p.depth - 1 }

def flush (p : Printer) : Printer := { p with broken := p.broken || p.sink.flushFails }

def receive (p : Printer) : Event → Printer
  | .start => p.line "begin"
  | .values run => p.line (run.sortName ++ ": " ++ run.display)
  | .enterStruct => (p.line "\x7b").deeper
  | .enterAttribute name => (p.line (Text.Quoted.string name ++ ":")).deeper
  | .leaveAttribute _ => p.shallower
  | .leaveStruct => p.shallower.line "\x7d"
  | .enterList => (p.line "[").deeper
  | .leaveList => p.shallower.line "]"
  | .flush => p.flush
  | .unparsed blocks =>
    p.line ("unparsed: " ++ toString blocks.flatten.length ++ " bytes")
  | .finish => (p.line "finish").flush
  | .fail => (p.line "failed").flush

def visitor : Visitor Printer where
  wantsMore p := !p.broken
  receive := receive
  verdict p := !p.broken

end Printer

end AttributeTrees.Visit
