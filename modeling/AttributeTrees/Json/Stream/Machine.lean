import AttributeTrees.Feed
import AttributeTrees.Json.Stream.Token
import AttributeTrees.Visit.Event
/-!
# Reading a JSON stream

The machine keeps the bytes that are not settled yet, reads tokens off their start and tells a
visitor what they mean. Where it stands in the document is an expectation and the stack of open
structures and lists. A comma may stand before a closing bracket. What lies behind the document is
reported as unparsed.
-/
namespace AttributeTrees.Json.Stream

open Text.Utf8 (Bytes)
open Visit (Event Visitor)

/-- An open structure, with the attribute whose value is awaited, or an open list. -/
inductive Frame where
  | object (key : Option String)
  | array
deriving DecidableEq, Repr

inductive Expect where
  | value
  | key
  | colon
  | item
  | next
  | nothing
deriving DecidableEq, Repr

structure Machine (σ : Type) where
  visitor : σ
  pending : Bytes
  offset : Nat
  frames : List Frame
  expect : Expect
  fault : Option Fault
  stopped : Bool

namespace Machine

variable {σ : Type}

def onto (visitor : σ) : Machine σ := ⟨visitor, [], 0, [], .value, none, false⟩

variable (v : Visitor σ)

def tell (m : Machine σ) (e : Event) : Machine σ := { m with visitor := v.receive m.visitor e }

def fail (m : Machine σ) (f : Fault) : Machine σ := { m with fault := some f }

def advance (m : Machine σ) (n : Nat) : Machine σ :=
  { m with pending := m.pending.drop n, offset := m.offset + n }

/-- After a value: the attribute it belongs to ends, and the next of what is open is awaited. -/
def valueDone (m : Machine σ) : Machine σ :=
  match m.frames with
  | .object (some name) :: rest =>
    { tell v m (.leaveAttribute name) with frames := .object none :: rest, expect := .next }
  | .object none :: _ => { m with expect := .next }
  | .array :: _ => { m with expect := .next }
  | [] => { m with expect := .nothing }

def scalar? : Token → Option Run
  | .string s => some (.string [s])
  | .number (.uint n) => some (.uint [n])
  | .number (.int n) => some (.int [n])
  | .number (.float x) => some (.double [x])
  | .bool b => some (.bool [b])
  | .null => some (.nil 1)
  | _ => none

def acceptValue (m : Machine σ) (t : Token) : Option (Machine σ) :=
  match t with
  | .openObject =>
    some { tell v m .enterStruct with frames := .object none :: m.frames, expect := .key }
  | .openArray => some { tell v m .enterList with frames := .array :: m.frames, expect := .item }
  | t => (scalar? t).map fun run => valueDone v (tell v m (.values run))

def closeArray (m : Machine σ) : Option (Machine σ) :=
  match m.frames with
  | .array :: rest => some (valueDone v (tell v { m with frames := rest } .leaveList))
  | _ => none

def closeObject (m : Machine σ) : Option (Machine σ) :=
  match m.frames with
  | .object _ :: rest => some (valueDone v (tell v { m with frames := rest } .leaveStruct))
  | _ => none

def acceptKey (m : Machine σ) (name : String) : Machine σ :=
  { tell v m (.enterAttribute name) with
    frames :=
      match m.frames with
      | .object _ :: rest => .object (some name) :: rest
      | frames => frames
    expect := .colon }

def accept? (m : Machine σ) (t : Token) : Option (Machine σ) :=
  match m.expect, t with
  | .item, .closeArray => closeArray v m
  | .value, t => acceptValue v m t
  | .item, t => acceptValue v m t
  | .next, .closeArray => closeArray v m
  | .next, .closeObject => closeObject v m
  | .next, .comma =>
    some { m with expect := if m.frames.head? = some .array then .item else .key }
  | .key, .closeObject => closeObject v m
  | .key, .string name => some (acceptKey v m name)
  | .colon, .colon => some { m with expect := .value }
  | _, _ => none

def accept (m : Machine σ) (t : Token) (offset : Nat) : Machine σ :=
  (accept? v m t).getD (m.fail (.unexpectedToken t.description offset))

@[simp] theorem pending_tell (m : Machine σ) (e : Event) : (tell v m e).pending = m.pending := rfl

@[simp] theorem pending_valueDone (m : Machine σ) : (valueDone v m).pending = m.pending := by
  unfold valueDone; split <;> rfl

theorem pending_accept? {m n : Machine σ} {t : Token} (h : accept? v m t = some n) :
    n.pending = m.pending := by
  have value {n : Machine σ} (h : acceptValue v m t = some n) : n.pending = m.pending := by
    unfold acceptValue at h
    split at h
    · cases h; rfl
    · cases h; rfl
    · obtain ⟨run, _, rfl⟩ := Option.map_eq_some_iff.1 h
      simp
  have array {n : Machine σ} (h : closeArray v m = some n) : n.pending = m.pending := by
    unfold closeArray at h
    split at h <;> cases h
    simp
  have object {n : Machine σ} (h : closeObject v m = some n) : n.pending = m.pending := by
    unfold closeObject at h
    split at h <;> cases h
    simp
  unfold accept? at h
  split at h
  · exact array h
  · exact value h
  · exact value h
  · exact array h
  · exact object h
  · cases h; rfl
  · exact object h
  · cases h; rfl
  · cases h; rfl
  · cases h

@[simp] theorem pending_accept (m : Machine σ) (t : Token) (offset : Nat) :
    (accept v m t offset).pending = m.pending := by
  unfold accept
  cases h : accept? v m t with
  | none => rfl
  | some n => exact pending_accept? v h

def skipSpace (m : Machine σ) : Machine σ := m.advance (m.pending.takeWhile isSpace).length

theorem length_skipSpace_le (m : Machine σ) : m.skipSpace.pending.length ≤ m.pending.length := by
  simp [skipSpace, advance]

def read (atEnd : Bool) (m : Machine σ) : Machine σ :=
  if m.fault.isSome then m
  else
    let n := m.skipSpace
    if n.pending.isEmpty then n
    else if n.expect = .nothing then
      (tell v n (.unparsed [n.pending])).advance n.pending.length
    else
      match _h : scan n.pending n.offset atEnd with
      | .more => n
      | .fault f => n.fail f
      | .token t k => read atEnd ((accept v n t n.offset).advance k)
termination_by m.pending.length
decreasing_by
  have hk := scan_length_pos _h
  have hn := length_skipSpace_le m
  rename_i hne _
  have : 0 < m.skipSpace.pending.length := List.length_pos_iff.2 (by simpa using hne)
  simp only [advance, List.length_drop, pending_accept]
  omega

def begin (m : Machine σ) : Machine σ := tell v m .start

def wantsMore (m : Machine σ) : Bool := m.fault.isNone && !m.stopped && m.expect != .nothing

def take (m : Machine σ) (data : Bytes) : Bool × Machine σ :=
  if m.wantsMore then
    let n := tell v (read v false { m with pending := m.pending ++ data }) .flush
    let n := if v.wantsMore n.visitor then n else { n with stopped := true }
    (n.wantsMore, n)
  else (false, m)

def readEnd (m : Machine σ) : Machine σ :=
  if m.fault.isSome || m.stopped then m
  else
    let n := read v true m
    if n.fault.isNone && n.expect != .nothing then n.fail .unexpectedEnd else n

def finish (m : Machine σ) : Bool × Machine σ :=
  let n := readEnd v m
  if n.fault.isSome then (false, tell v n .fail)
  else
    let done := tell v n .finish
    (v.verdict done.visitor, done)

def parser : Parser (Machine σ) := ⟨begin v, take v, finish v⟩

end Machine

end AttributeTrees.Json.Stream
