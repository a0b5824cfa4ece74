import AttributeTrees.Proofs.Text.Utf8
import AttributeTrees.Visit.Printer
/-!
# What a printer writes

An event is told in one line or in none, and the line stands as deep as the structures, attributes
and lists that are open around it. What a printer writes into a sink without bounds is the encoding
of these lines.
-/
namespace AttributeTrees.Visit

open Text.Utf8 (Bytes encode encodeString)

namespace Event

def text? : Event → Option String
  | start => some "begin"
  | values run => some (run.sortName ++ ": " ++ run.display)
  | enterStruct => some "\x7b"
  | enterAttribute name => some (Text.Quoted.string name ++ ":")
  | leaveStruct => some "\x7d"
  | enterList => some "["
  | leaveList => some "]"
  | unparsed blocks => some ("unparsed: " ++ toString blocks.flatten.length ++ " bytes")
  | finish => some "finish"
  | fail => some "failed"
  | leaveAttribute _ | flush => none

def standing (depth : Nat) : Event → Nat
  | leaveAttribute _ | leaveStruct | leaveList => depth - 1
  | _ => depth

def depthAfter (depth : Nat) : Event → Nat
  | enterStruct | enterAttribute _ | enterList => depth + 1
  | e => e.standing depth

end Event

def lineAt (depth : Nat) (text : List Char) : List Char :=
  List.replicate (2 * depth) ' ' ++ (text ++ ['\n'])

def transcript : Nat → List Event → List Char
  | _, [] => []
  | depth, e :: rest =>
    (e.text?.elim [] fun text => lineAt (e.standing depth) text.toList) ++
      transcript (e.depthAfter depth) rest

namespace Printer

def behind (sink : Sink) (told : List Event) : Printer := visitor.receiveAll (onto sink) told

def log (told : List Event) : Bytes := (behind .unlimited told).sink.written

theorem behind_append (sink : Sink) (told more : List Event) :
    behind sink (told ++ more) = visitor.receiveAll (behind sink told) more :=
  visitor.receiveAll_append _ _ _

structure Free (p : Printer) : Prop where
  unbroken : p.broken = false
  unbounded : p.sink.room = none
  flushes : p.sink.flushFails = false

variable {p : Printer}

theorem free_onto : (onto .unlimited).Free := ⟨rfl, rfl, rfl⟩

theorem Free.put (h : p.Free) (data : Bytes) :
    p.put data = { p with sink := { p.sink with writes := data :: p.sink.writes } } := by
  obtain ⟨⟨writes, room, flushFails⟩, depth, broken⟩ := p
  obtain ⟨rfl, rfl, rfl⟩ := h
  rfl

theorem Free.deeper (h : p.Free) : p.deeper.Free := ⟨h.unbroken, h.unbounded, h.flushes⟩

theorem Free.shallower (h : p.Free) : p.shallower.Free := ⟨h.unbroken, h.unbounded, h.flushes⟩

theorem Free.flush (h : p.Free) : p.flush = p := by
  simp [Printer.flush, h.flushes]

theorem Free.of_put (h : p.Free) (data : Bytes) : (p.put data).Free := by
  rw [h.put]
  exact ⟨h.unbroken, h.unbounded, h.flushes⟩

theorem Free.of_line (h : p.Free) (text : String) : (p.line text).Free :=
  ((h.of_put _).of_put _).of_put _

theorem Free.written_put (h : p.Free) (data : Bytes) :
    (p.put data).sink.written = p.sink.written ++ data := by
  rw [h.put]
  simp [Sink.written]

theorem encode_spaces (n : Nat) : encode (List.replicate n ' ') = List.replicate n 0x20 := by
  induction n with
  | zero => rfl
  | succ n ih =>
    rw [List.replicate_succ, Text.Utf8.encode_cons, ih]
    rfl

theorem Free.written_line (h : p.Free) (text : String) :
    (p.line text).sink.written = p.sink.written ++ encode (lineAt p.depth text.toList) := by
  rw [line, ((h.of_put _).of_put _).written_put, (h.of_put _).written_put, h.written_put, lineAt,
    Text.Utf8.encode_append, Text.Utf8.encode_append, encode_spaces, List.append_assoc,
    List.append_assoc]
  rfl

theorem depth_put (p : Printer) (data : Bytes) : (p.put data).depth = p.depth := by
  unfold put
  split <;> rfl

theorem depth_line (p : Printer) (text : String) : (p.line text).depth = p.depth := by
  simp only [line, depth_put]

/-- One event is written as one line or none, and the depth follows the nesting. -/
theorem Free.receive (h : p.Free) (e : Event) :
    (p.receive e).Free ∧ (p.receive e).depth = e.depthAfter p.depth ∧
      (p.receive e).sink.written = p.sink.written ++
        encode (e.text?.elim [] fun text => lineAt (e.standing p.depth) text.toList) := by
  have hs : p.shallower.Free := h.shallower
  cases e with
  | start | values _ | unparsed _ => exact ⟨h.of_line _, depth_line p _, h.written_line _⟩
  | enterStruct | enterAttribute _ | enterList =>
    exact ⟨(h.of_line _).deeper, congrArg (· + 1) (depth_line p _), h.written_line _⟩
  | leaveAttribute _ => exact ⟨hs, rfl, (List.append_nil _).symm⟩
  | leaveStruct | leaveList => exact ⟨hs.of_line _, depth_line p.shallower _, hs.written_line _⟩
  | flush =>
    rw [Printer.receive, h.flush]
    exact ⟨h, rfl, (List.append_nil _).symm⟩
  | finish | fail =>
    rw [Printer.receive, (h.of_line _).flush]
    exact ⟨h.of_line _, depth_line p _, h.written_line _⟩

theorem Free.written_receiveAll (h : p.Free) (told : List Event) :
    (visitor.receiveAll p told).sink.written =
      p.sink.written ++ encode (transcript p.depth told) := by
  induction told generalizing p with
  | nil => exact (List.append_nil _).symm
  | cons e told ih =>
    obtain ⟨hfree, hdepth, hwritten⟩ := h.receive e
    refine (ih hfree).trans ?_
    rw [hdepth, hwritten, transcript, Text.Utf8.encode_append, List.append_assoc]

theorem log_eq_encode (told : List Event) : log told = encode (transcript 0 told) :=
  free_onto.written_receiveAll told

end Printer

end AttributeTrees.Visit
