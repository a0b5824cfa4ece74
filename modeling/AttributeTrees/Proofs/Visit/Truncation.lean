import AttributeTrees.Proofs.Visit.Printing
/-!
# Sinks that fail

A printer onto a bounded sink is run beside one onto a sink that takes everything. Both go through
the same depths; the first has written what is within its room of what the second has, and is broken
as soon as that is not all. After a flush that fails a printer stays as it is.
Main statement: what is left in a sink is the first part of the log, a printer wants more as long as
no write has failed, and it is satisfied if the whole log fits and every flush succeeds.
-/
namespace AttributeTrees.Visit

open Text.Utf8 (Bytes)

namespace Sink

def fits (room : Option Nat) (bytes : Bytes) : Bool := room.all (bytes.length ≤ ·)

def cut (room : Option Nat) (bytes : Bytes) : Bytes := room.elim bytes bytes.take

def takesAll (s : Sink) : List Bytes → Bool
  | [] => true
  | data :: rest => (s.write data).1 && takesAll (s.write data).2 rest

def remaining (room : Option Nat) (bytes : Bytes) : Option Nat := room.map (· - bytes.length)

theorem fits_append (room : Option Nat) (xs ys : Bytes) :
    fits room (xs ++ ys) = (fits room xs && fits (remaining room xs) ys) := by
  cases room with
  | none => rfl
  | some n =>
    simp only [fits, remaining, Option.all_some, Option.map_some, List.length_append,
      ← Bool.decide_and]
    exact decide_eq_decide.2 (by omega)

theorem cut_append (room : Option Nat) (xs ys : Bytes) :
    cut room (xs ++ ys) = cut room xs ++ cut (remaining room xs) ys := by
  cases room with
  | none => rfl
  | some n => exact List.take_append

theorem cut_append_of_not_fits {room : Option Nat} {xs : Bytes} (h : fits room xs = false)
    (ys : Bytes) :
    cut room (xs ++ ys) = cut room xs ∧ remaining room (xs ++ ys) = remaining room xs := by
  cases room with
  | none => cases h
  | some n =>
    have hn : n < xs.length := by simpa [fits] using h
    refine ⟨List.take_append_of_le_length (Nat.le_of_lt hn), ?_⟩
    simp only [remaining, Option.map_some, List.length_append]
    exact congrArg some (by omega)

theorem remaining_append (room : Option Nat) (xs ys : Bytes) :
    remaining room (xs ++ ys) = remaining (remaining room xs) ys := by
  cases room with
  | none => rfl
  | some n => simp [remaining, Nat.sub_sub]

theorem write_fst (s : Sink) (data : Bytes) : (s.write data).1 = fits s.room data := by
  unfold write
  split <;> simp [fits, *]

theorem room_write (s : Sink) (data : Bytes) :
    (s.write data).2.room = remaining s.room data := by
  unfold write
  split <;> simp [remaining, *]

theorem flushFails_write (s : Sink) (data : Bytes) :
    (s.write data).2.flushFails = s.flushFails := by
  unfold write
  split <;> rfl

theorem takesAll_eq_fits (s : Sink) (writes : List Bytes) :
    s.takesAll writes = fits s.room writes.flatten := by
  induction writes generalizing s with
  | nil => cases h : s.room <;> simp [takesAll, fits]
  | cons data rest ih =>
    rw [takesAll, ih, write_fst, room_write, List.flatten_cons, fits_append]

end Sink

def Event.flushes : Event → Bool
  | flush | finish | fail => true
  | _ => false

/-- Events up to the first on which a printer flushes. -/
def upToFlush : List Event → List Event
  | [] => []
  | e :: rest => if e.flushes then [e] else e :: upToFlush rest

theorem exists_upToFlush (es : List Event) :
    ∃ before e rest, es ++ [.finish] = before ++ e :: rest ∧
      upToFlush (es ++ [.finish]) = before ++ [e] ∧ e.flushes = true ∧
      ∀ f ∈ before, f.flushes = false := by
  induction es with
  | nil => exact ⟨[], .finish, [], rfl, rfl, rfl, nofun⟩
  | cons e es ih =>
    rw [List.cons_append, upToFlush]
    cases he : e.flushes with
    | true => exact ⟨[], e, es ++ [.finish], rfl, rfl, he, nofun⟩
    | false =>
      obtain ⟨before, f, rest, hs, hu, hf, hb⟩ := ih
      refine ⟨e :: before, f, rest, by rw [hs]; rfl, ?_, hf, List.forall_mem_cons.2 ⟨he, hb⟩⟩
      rw [hu]
      rfl

namespace Printer

/-- `p.Follows room q`: so far `p` has written into a sink of some room what `q` has written into
one without bounds. -/
structure Follows (room : Option Nat) (p q : Printer) : Prop where
  depth : p.depth = q.depth
  written : p.sink.written = Sink.cut room q.sink.written
  left : p.sink.room = Sink.remaining room q.sink.written
  broken : p.broken = !Sink.fits room q.sink.written
  free : q.Free

variable {room : Option Nat} {p q : Printer}

theorem follows_onto (room : Option Nat) (flushFails : Bool) :
    Follows room (onto (.ofRoom room flushFails)) (onto .unlimited) where
  depth := rfl
  written := by cases room <;> simp [onto, Sink.cut, Sink.unlimited]
  left := by cases room <;> rfl
  broken := by cases room <;> rfl
  free := free_onto

theorem put_of_broken (hp : p.broken = true) (data : Bytes) : p.put data = p := if_pos hp

theorem put_of_unbroken (hp : p.broken = false) (data : Bytes) :
    p.put data = { p with sink := (p.sink.write data).2, broken := !(p.sink.write data).1 } :=
  if_neg (Bool.eq_false_iff.1 hp)

theorem flushFails_put (p : Printer) (data : Bytes) :
    (p.put data).sink.flushFails = p.sink.flushFails := by
  cases hp : p.broken with
  | true => rw [put_of_broken hp]
  | false =>
    rw [put_of_unbroken hp]
    exact Sink.flushFails_write _ _

theorem flushFails_line (p : Printer) (text : String) :
    (p.line text).sink.flushFails = p.sink.flushFails := by
  simp only [line, flushFails_put]

theorem flushFails_receive (p : Printer) (e : Event) :
    (p.receive e).sink.flushFails = p.sink.flushFails := by
  cases e <;> simp only [receive, deeper, shallower, flush, flushFails_line]

namespace Follows

theorem put (h : Follows room p q) (data : Bytes) : Follows room (p.put data) (q.put data) := by
  have hdepth : (p.put data).depth = (q.put data).depth := by
    rw [depth_put, depth_put, h.depth]
  have hw : (q.put data).sink.written = q.sink.written ++ data := h.free.written_put data
  cases hp : p.broken with
  | true =>
    have hfits : Sink.fits room q.sink.written = false := by simpa [hp] using h.broken
    obtain ⟨hcut, hleft⟩ := Sink.cut_append_of_not_fits hfits data
    refine ⟨hdepth, ?_, ?_, ?_, h.free.of_put data⟩
    · rw [put_of_broken hp, hw, hcut, h.written]
    · rw [put_of_broken hp, hw, hleft, h.left]
    · rw [put_of_broken hp, hw, Sink.fits_append, hfits, hp]
      rfl
  | false =>
    have hfits : Sink.fits room q.sink.written = true := by simpa [hp] using h.broken
    refine ⟨hdepth, ?_, ?_, ?_, h.free.of_put data⟩
    · rw [put_of_unbroken hp, hw, Sink.written_write, h.written, h.left, Sink.cut_append]
      rfl
    · rw [put_of_unbroken hp, hw, Sink.room_write, h.left, Sink.remaining_append]
    · rw [put_of_unbroken hp, hw, Sink.write_fst, h.left, Sink.fits_append, hfits, Bool.true_and]

theorem line (h : Follows room p q) (text : String) :
    Follows room (p.line text) (q.line text) := by
  unfold Printer.line
  rw [h.depth]
  exact ((h.put _).put _).put _

theorem deeper (h : Follows room p q) : Follows room p.deeper q.deeper :=
  ⟨congrArg (· + 1) h.depth, h.written, h.left, h.broken, h.free.deeper⟩

theorem shallower (h : Follows room p q) : Follows room p.shallower q.shallower :=
  ⟨congrArg (· - 1) h.depth, h.written, h.left, h.broken, h.free.shallower⟩

theorem flush (h : Follows room p q) (hp : p.sink.flushFails = false) :
    Follows room p.flush q.flush := by
  have hsame : p.flush = p := by simp [Printer.flush, hp]
  rwa [hsame, h.free.flush]

theorem receive (h : Follows room p q) (e : Event)
    (hp : e.flushes = true → p.sink.flushFails = false) :
    Follows room (p.receive e) (q.receive e) := by
  cases e with
  | start => exact h.line _
  | values run => exact h.line _
  | enterStruct => exact (h.line _).deeper
  | enterAttribute name => exact (h.line _).deeper
  | leaveAttribute name => exact h.shallower
  | leaveStruct => exact h.shallower.line _
  | enterList => exact (h.line _).deeper
  | leaveList => exact h.shallower.line _
  | flush => exact h.flush (hp rfl)
  | unparsed blocks => exact h.line _
  | finish => exact (h.line _).flush ((flushFails_line p _).trans (hp rfl))
  | fail => exact (h.line _).flush ((flushFails_line p _).trans (hp rfl))

theorem written_receive (h : Follows room p q) (e : Event) :
    (p.receive e).sink.written = Sink.cut room (q.receive e).sink.written := by
  cases he : e.flushes with
  | false => exact (h.receive e fun ht => absurd (he.symm.trans ht) nofun).written
  | true =>
    cases e with
    | flush => exact h.written
    | finish | fail => exact (h.line _).written
    | _ => cases he

theorem receiveAll (h : Follows room p q) (told : List Event)
    (hp : ∀ e ∈ told, e.flushes = true → p.sink.flushFails = false) :
    Follows room (visitor.receiveAll p told) (visitor.receiveAll q told) := by
  induction told generalizing p q with
  | nil => exact h
  | cons e told ih =>
    obtain ⟨he, ht⟩ := List.forall_mem_cons.1 hp
    refine ih (h.receive e he) fun f hf hflush => ?_
    exact (flushFails_receive p e).trans (ht f hf hflush)

end Follows

theorem line_of_broken (hp : p.broken = true) (text : String) : p.line text = p := by
  simp only [line, put_of_broken hp]

theorem receive_of_broken (hp : p.broken = true) (e : Event) :
    (p.receive e).sink = p.sink ∧ (p.receive e).broken = true := by
  have hflush : p.flush.broken = true := by simp [flush, hp]
  cases e with
  | start | values _ | unparsed _ | enterStruct | enterAttribute _ | enterList =>
    rw [receive, line_of_broken hp]
    exact ⟨rfl, hp⟩
  | leaveAttribute _ => exact ⟨rfl, hp⟩
  | leaveStruct | leaveList =>
    rw [receive, line_of_broken (p := p.shallower) hp]
    exact ⟨rfl, hp⟩
  | flush => exact ⟨rfl, hflush⟩
  | finish | fail =>
    rw [receive, line_of_broken hp]
    exact ⟨rfl, hflush⟩

theorem receiveAll_of_broken (hp : p.broken = true) (told : List Event) :
    (visitor.receiveAll p told).sink = p.sink ∧ (visitor.receiveAll p told).broken = true := by
  induction told generalizing p with
  | nil => exact ⟨rfl, hp⟩
  | cons e told ih =>
    obtain ⟨hsink, hbroken⟩ := receive_of_broken hp e
    obtain ⟨hs, hb⟩ := ih hbroken
    exact ⟨hs.trans hsink, hb⟩

theorem broken_of_flush (hp : p.sink.flushFails = true) {e : Event} (he : e.flushes = true) :
    (p.receive e).broken = true := by
  cases e with
  | flush => simp [receive, flush, hp]
  | finish | fail => simp [receive, flush, flushFails_line, hp]
  | _ => cases he

theorem flushFails_behind (sink : Sink) (told : List Event) :
    (behind sink told).sink.flushFails = sink.flushFails := by
  have hrun (p : Printer) : (visitor.receiveAll p told).sink.flushFails = p.sink.flushFails := by
    induction told generalizing p with
    | nil => rfl
    | cons e told ih => exact (ih _).trans (flushFails_receive p e)
  exact hrun _

/-- Of the log of any events that end in a finish, a sink of so many bytes gets the first bytes. At
every point the printer wants more if none of the writes so far has failed, and it is satisfied at
the end if the whole log fits. If flushing fails, nothing is written after the first flush and the
printer is not satisfied. -/
theorem log_truncated (es : List Event) :
    let events := es ++ [Event.finish]
    (∀ n : Nat,
      let sink := Sink.ofRoom (some n) false
      (∀ k, let told := events.take k
        (behind sink told).sink.written = (log told).take n ∧
        visitor.wantsMore (behind sink told) =
          sink.takesAll (behind .unlimited told).sink.writes.reverse) ∧
      visitor.verdict (behind sink events) = decide ((log events).length ≤ n)) ∧
    ∀ room : Option Nat,
      let sink := Sink.ofRoom room true
      (behind sink events).sink = (behind sink (upToFlush events)).sink ∧
      (behind sink events).sink.written = Sink.cut room (log (upToFlush events)) ∧
      visitor.verdict (behind sink events) = false := by
  intro events
  refine ⟨fun n => ?_, fun room => ?_⟩
  · intro sink
    have hfollows (told : List Event) :
        Follows (some n) (behind sink told) (behind .unlimited told) :=
      (follows_onto (some n) false).receiveAll told fun _ _ _ => rfl
    have hmore (told : List Event) :
        visitor.wantsMore (behind sink told) = Sink.fits (some n) (log told) := by
      change (!(behind sink told).broken) = _
      rw [(hfollows told).broken, Bool.not_not]
      rfl
    refine ⟨fun k => ⟨(hfollows _).written, ?_⟩, hmore events⟩
    rw [hmore, Sink.takesAll_eq_fits]
    rfl
  · intro sink
    obtain ⟨before, e, rest, hs, hu, he, hb⟩ :
        ∃ before e rest, events = before ++ e :: rest ∧ upToFlush events = before ++ [e] ∧
          e.flushes = true ∧ ∀ f ∈ before, f.flushes = false := exists_upToFlush es
    have hbefore : Follows room (behind sink before) (behind .unlimited before) :=
      (follows_onto room true).receiveAll before fun f hf hflush =>
        absurd ((hb f hf).symm.trans hflush) nofun
    have hflushed (s : Sink) : behind s (upToFlush events) = (behind s before).receive e := by
      rw [hu, behind_append]
      rfl
    have hbehind : behind sink events =
        visitor.receiveAll ((behind sink before).receive e) rest := by
      rw [hs, behind_append]
      rfl
    have hbroken : ((behind sink before).receive e).broken = true :=
      broken_of_flush (flushFails_behind sink before) he
    obtain ⟨hsink, hstays⟩ := receiveAll_of_broken hbroken rest
    refine ⟨by rw [hbehind, hsink, hflushed], ?_, ?_⟩
    · rw [hbehind, hsink, hbefore.written_receive e, log, hflushed]
    · rw [hbehind]
      exact congrArg (!·) hstays

end Printer

end AttributeTrees.Visit
