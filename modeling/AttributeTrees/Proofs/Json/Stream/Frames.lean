import AttributeTrees.Proofs.Json.Stream.Grammar
import AttributeTrees.Proofs.Json.Stream.Transport
import AttributeTrees.Proofs.Visit.Handing
/-!
# Frames and expectations

What a machine expects fits what it has open: a key or a comma is expected in a structure only where
no attribute is awaited, a colon or its value only where one is, and below the innermost frame every
structure awaits the attribute that is open in it. So a value that ends never ends in a structure
without an attribute, and a key is never read outside of one. Main statement: this holds of a
machine at any time, whatever it is fed.
-/
namespace AttributeTrees.Json.Stream

open Text.Utf8 (Bytes)
open Visit (Event Visitor closers closersFrom_append)

def Frame.closers : Frame → List Event
  | object (some name) => [.leaveAttribute name, .leaveStruct]
  | object none => [.leaveStruct]
  | array => [.leaveList]

/-- What the innermost frame is, by what is expected behind the tokens `ts`. -/
def Expect.Fits (ts : List Token) (frames : List Frame) : Expect → Prop
  | value => frames = [] ∧ ts = [] ∨ ∃ name, frames.head? = some (.object (some name))
  | key => frames.head? = some (.object none)
  | colon => ∃ name, frames.head? = some (.object (some name))
  | item => frames.head? = some .array
  | next => frames.head? = some (.object none) ∨ frames.head? = some .array
  | nothing => frames = []

def Token.isScalar : Token → Bool
  | string _ | number _ | bool _ | null => true
  | _ => false

theorem Token.exists_scalar {t : Token} (h : t.isScalar = true) : ∃ run, Scalar t run := by
  cases t with
  | string s => exact ⟨_, .string s⟩
  | number n =>
    cases n with
    | uint n => exact ⟨_, .uint n⟩
    | int n => exact ⟨_, .int n⟩
    | float x => exact ⟨_, .float x⟩
  | bool b => exact ⟨_, .bool b⟩
  | null => exact ⟨_, .null⟩
  | _ => cases h

namespace Machine

variable {σ : Type} {v : Visitor σ} {s : σ} {m n : Machine σ} {t : Token} {ts : List Token}

inductive Completes (v : Visitor σ) (m : Machine σ) : Machine σ → Prop
  | member {name : String} {rest : List Frame} (hf : m.frames = .object (some name) :: rest) :
    Completes v m
      { tell v m (.leaveAttribute name) with frames := .object none :: rest, expect := .next }
  | item {rest : List Frame} (hf : m.frames = .array :: rest) :
    Completes v m { m with expect := .next }
  | document (hf : m.frames = []) : Completes v m { m with expect := .nothing }

/-- What an accepted token leads to. -/
inductive Move (v : Visitor σ) (m : Machine σ) : Token → Machine σ → Prop
  | openObject (he : m.expect = .value ∨ m.expect = .item) :
    Move v m .openObject
      { tell v m .enterStruct with frames := .object none :: m.frames, expect := .key }
  | openArray (he : m.expect = .value ∨ m.expect = .item) :
    Move v m .openArray { tell v m .enterList with frames := .array :: m.frames, expect := .item }
  | scalar {t : Token} {run : Run} {n : Machine σ} (he : m.expect = .value ∨ m.expect = .item)
    (hr : Scalar t run) (hc : Completes v (tell v m (.values run)) n) : Move v m t n
  | closeArray {rest : List Frame} {n : Machine σ} (he : m.expect = .item ∨ m.expect = .next)
    (hf : m.frames = .array :: rest)
    (hc : Completes v (tell v { m with frames := rest } .leaveList) n) : Move v m .closeArray n
  | closeObject {rest : List Frame} {n : Machine σ} (he : m.expect = .key ∨ m.expect = .next)
    (hf : m.frames = .object none :: rest)
    (hc : Completes v (tell v { m with frames := rest } .leaveStruct) n) : Move v m .closeObject n
  | key {name : String} {rest : List Frame} (he : m.expect = .key)
    (hf : m.frames = .object none :: rest) :
    Move v m (.string name)
      { tell v m (.enterAttribute name) with
        frames := .object (some name) :: rest, expect := .colon }
  | colon (he : m.expect = .colon) : Move v m .colon { m with expect := .value }
  | nextItem {rest : List Frame} (he : m.expect = .next) (hf : m.frames = .array :: rest) :
    Move v m .comma { m with expect := .item }
  | nextMember {rest : List Frame} (he : m.expect = .next) (hf : m.frames = .object none :: rest) :
    Move v m .comma { m with expect := .key }

structure Fits (ts : List Token) (m : Machine σ) : Prop where
  top : m.expect.Fits ts m.frames
  below : .object none ∉ m.frames.tail

def Opened (m : Machine (List Event)) : Prop := closers m.visitor = m.frames.flatMap Frame.closers

theorem fits_onto (s : σ) : (Machine.onto s).Fits [] :=
  ⟨.inl ⟨rfl, rfl⟩, List.not_mem_nil⟩

theorem Fits.not_mem_rest {frame : Frame} {rest : List Frame} (hm : m.Fits ts)
    (hf : m.frames = frame :: rest) : .object none ∉ rest := by
  have hb := hm.below
  rwa [hf] at hb

theorem Fits.not_mem_frames (hm : m.Fits ts) (he : m.expect = .value ∨ m.expect = .item) :
    .object none ∉ m.frames := by
  have hcons {frame : Frame} (hh : m.frames.head? = some frame) (hne : .object none ≠ frame) :
      .object none ∉ m.frames := by
    obtain ⟨rest, hf⟩ := List.head?_eq_some_iff.1 hh
    rw [hf]
    exact List.not_mem_cons_of_ne_of_not_mem hne (hm.not_mem_rest hf)
  have htop := hm.top
  rcases he with he | he
  · rw [he] at htop
    rcases htop with ⟨hf, -⟩ | ⟨name, hh⟩
    · rw [hf]
      exact List.not_mem_nil
    · exact hcons hh nofun
  · rw [he] at htop
    exact hcons htop nofun

theorem Fits.key_eq_none {key : Option String} {rest : List Frame} (hm : m.Fits ts)
    (he : m.expect = .key ∨ m.expect = .next) (hf : m.frames = .object key :: rest) :
    key = none := by
  have htop := hm.top
  rcases he with he | he <;> rw [he, hf] at htop <;> simpa [Expect.Fits] using htop

theorem completes_valueDone (hm : .object none ∉ m.frames) : Completes v m (valueDone v m) := by
  unfold valueDone
  split
  · next hf => exact .member hf
  · next hf => exact absurd (hf ▸ List.mem_cons_self) hm
  · next hf => exact .item hf
  · next hf => exact .document hf

theorem move_of_acceptValue (hm : m.Fits ts) (he : m.expect = .value ∨ m.expect = .item)
    (h : acceptValue v m t = some n) : Move v m t n := by
  unfold acceptValue at h
  split at h
  · cases h
    exact .openObject he
  · cases h
    exact .openArray he
  · obtain ⟨run, hr, rfl⟩ := Option.map_eq_some_iff.1 h
    exact .scalar he (scalar?_eq_some_iff.1 hr) (completes_valueDone (hm.not_mem_frames he))

theorem move_of_closeArray (hm : m.Fits ts) (he : m.expect = .item ∨ m.expect = .next)
    (h : closeArray v m = some n) : Move v m .closeArray n := by
  unfold closeArray at h
  split at h <;> cases h
  next hf => exact .closeArray he hf (completes_valueDone (hm.not_mem_rest hf))

theorem move_of_closeObject (hm : m.Fits ts) (he : m.expect = .key ∨ m.expect = .next)
    (h : closeObject v m = some n) : Move v m .closeObject n := by
  unfold closeObject at h
  split at h <;> cases h
  next hf =>
    cases hm.key_eq_none he hf
    exact .closeObject he hf (completes_valueDone (hm.not_mem_rest hf))

theorem move_of_comma (hm : m.Fits ts) (he : m.expect = .next) : Move v m .comma
    { m with expect := if m.frames.head? = some .array then .item else .key } := by
  have htop := hm.top
  rw [he] at htop
  rcases htop with hh | hh
  · obtain ⟨rest, hf⟩ := List.head?_eq_some_iff.1 hh
    rw [hh]
    exact .nextMember he hf
  · obtain ⟨rest, hf⟩ := List.head?_eq_some_iff.1 hh
    rw [hh]
    exact .nextItem he hf

theorem move_of_key (hm : m.Fits ts) (he : m.expect = .key) (name : String) :
    Move v m (.string name) (acceptKey v m name) := by
  have htop := hm.top
  rw [he] at htop
  obtain ⟨rest, hf⟩ := List.head?_eq_some_iff.1 htop
  rw [acceptKey, hf]
  exact .key he hf

theorem Fits.move (hm : m.Fits ts) (h : accept? v m t = some n) : Move v m t n := by
  unfold accept? at h
  split at h
  · next he => exact move_of_closeArray hm (.inl he) h
  · next he => exact move_of_acceptValue hm (.inl he) h
  · next he _ => exact move_of_acceptValue hm (.inr he) h
  · next he => exact move_of_closeArray hm (.inr he) h
  · next he => exact move_of_closeObject hm (.inr he) h
  · next he =>
    cases h
    exact move_of_comma hm he
  · next he => exact move_of_closeObject hm (.inl he) h
  · next he =>
    cases h
    exact move_of_key hm he _
  · next he =>
    cases h
    exact .colon he
  · cases h

theorem Fits.exists_scalar (hm : m.Fits ts) (ht : t.isScalar = true)
    (he : m.expect = .value ∨ m.expect = .item) :
    ∃ run n, Scalar t run ∧ accept? v m t = some n ∧ Completes v (tell v m (.values run)) n := by
  obtain ⟨run, hr⟩ := t.exists_scalar ht
  have ha : accept? v m t = acceptValue v m t := by
    rcases he with he | he <;> cases hr <;> simp [accept?, he]
  have hv : acceptValue v m t = some (valueDone v (tell v m (.values run))) := by
    cases hr <;> rfl
  exact ⟨run, _, hr, ha.trans hv, completes_valueDone (hm.not_mem_frames he)⟩

theorem Completes.fits (h : Completes v m n) (hm : .object none ∉ m.frames.tail) : n.Fits ts := by
  cases h with
  | member hf => exact ⟨.inl rfl, by rwa [hf] at hm⟩
  | item hf => exact ⟨.inr (by rw [hf]; rfl), hm⟩
  | document hf => exact ⟨hf, hm⟩

theorem Fits.step (hm : m.Fits ts) (h : Move v m t n) (us : List Token) : n.Fits us := by
  cases h with
  | openObject he => exact ⟨rfl, hm.not_mem_frames he⟩
  | openArray he => exact ⟨rfl, hm.not_mem_frames he⟩
  | scalar he hr hc => exact hc.fits hm.below
  | closeArray he hf hc => exact hc.fits fun hr => hm.not_mem_rest hf (List.mem_of_mem_tail hr)
  | closeObject he hf hc => exact hc.fits fun hr => hm.not_mem_rest hf (List.mem_of_mem_tail hr)
  | key he hf => exact ⟨⟨_, rfl⟩, hm.not_mem_rest hf⟩
  | colon he =>
    have htop := hm.top
    rw [he] at htop
    exact ⟨.inr htop, hm.below⟩
  | nextItem he hf => exact ⟨by change m.frames.head? = _; rw [hf]; rfl, hm.below⟩
  | nextMember he hf => exact ⟨by change m.frames.head? = _; rw [hf]; rfl, hm.below⟩

theorem closers_snoc (log : List Event) (e : Event) :
    closers (log ++ [e]) = e.pendingAfter (closers log) :=
  closersFrom_append [] log [e]

section
variable {m n : Machine (List Event)}

theorem Opened.tell (hm : m.Opened) (v : Visitor σ) (s : σ) {e : Event} {frames : List Frame}
    {expect : Expect}
    (he : e.pendingAfter (m.frames.flatMap Frame.closers) = frames.flatMap Frame.closers) :
    Opened { tell (v.history s) m e with frames := frames, expect := expect } := by
  change closers (m.visitor ++ [e]) = _
  rw [closers_snoc, hm, he]

theorem Completes.opened (h : Completes (v.history s) m n) (hm : m.Opened) : n.Opened := by
  cases h with
  | member hf => exact hm.tell v s (by rw [hf]; rfl)
  | item hf => exact hm
  | document hf => exact hm

theorem Opened.step (hm : m.Opened) (h : Move (v.history s) m t n) : n.Opened := by
  cases h with
  | openObject he => exact hm.tell v s rfl
  | openArray he => exact hm.tell v s rfl
  | scalar he hr hc => exact hc.opened (hm.tell v s rfl)
  | closeArray he hf hc => exact hc.opened (hm.tell v s (by rw [hf]; rfl))
  | closeObject he hf hc => exact hc.opened (hm.tell v s (by rw [hf]; rfl))
  | key he hf => exact hm.tell v s (by rw [hf]; rfl)
  | colon he => exact hm
  | nextItem he hf => exact hm
  | nextMember he hf => exact hm

end

/-- `Trace v s ts m`: what a machine does led from a fresh one to `m`, in whatever order, and the
tokens `ts` were accepted on the way. -/
inductive Trace (v : Visitor σ) (s : σ) : List Token → Machine σ → Prop
  | onto : Trace v s [] (onto s)
  | accept {ts : List Token} {m n : Machine σ} {t : Token} (h : Trace v s ts m)
    (ha : accept? v m t = some n) : Trace v s (ts ++ [t]) n
  | tell {ts : List Token} {m : Machine σ} {e : Event} (h : Trace v s ts m)
    (he : e.isContent = false) : Trace v s ts (tell v m e)
  | append {ts : List Token} {m : Machine σ} (h : Trace v s ts m) (data : Bytes) :
    Trace v s ts (m.append data)
  | advance {ts : List Token} {m : Machine σ} (h : Trace v s ts m) (k : Nat) :
    Trace v s ts (m.advance k)
  | fail {ts : List Token} {m : Machine σ} (h : Trace v s ts m) (f : Fault) :
    Trace v s ts (m.fail f)
  | stop {ts : List Token} {m : Machine σ} (h : Trace v s ts m) :
    Trace v s ts { m with stopped := true }

theorem pendingAfter_of_not_content {e : Event} (he : e.isContent = false) (pending : List Event) :
    e.pendingAfter pending = pending := by
  cases e <;> first | rfl | cases he

namespace Trace

theorem fits (h : Trace v s ts m) : m.Fits ts := by
  induction h with
  | onto => exact fits_onto s
  | accept h ha ih => exact ih.step (ih.move ha) _
  | tell h he ih => exact ⟨ih.top, ih.below⟩
  | append h data ih => exact ⟨ih.top, ih.below⟩
  | advance h k ih => exact ⟨ih.top, ih.below⟩
  | fail h f ih => exact ⟨ih.top, ih.below⟩
  | stop h ih => exact ⟨ih.top, ih.below⟩

theorem opened {m : Machine (List Event)} (h : Trace (v.history s) [] ts m) : m.Opened := by
  induction h with
  | onto => rfl
  | accept h ha ih => exact ih.step (h.fits.move ha)
  | tell h he ih => exact ih.tell v s (pendingAfter_of_not_content he _)
  | append h data ih => exact ih
  | advance h k ih => exact ih
  | fail h f ih => exact ih
  | stop h ih => exact ih

theorem exists_history (h : Trace v s ts m) :
    ∃ n, Trace (v.history s) [] ts n ∧ m = n.map (v.receiveAll s) := by
  have hr : Respects (v.receiveAll s) (v.history s) v := fun log e => v.receiveAll_snoc s log e
  induction h with
  | onto => exact ⟨_, .onto, rfl⟩
  | accept h ha ih =>
    obtain ⟨n, hn, rfl⟩ := ih
    rw [accept?_map hr] at ha
    obtain ⟨o, ho, rfl⟩ := Option.map_eq_some_iff.1 ha
    exact ⟨o, hn.accept ho, rfl⟩
  | tell h he ih =>
    obtain ⟨n, hn, rfl⟩ := ih
    exact ⟨_, hn.tell he, tell_map hr n _⟩
  | append h data ih =>
    obtain ⟨n, hn, rfl⟩ := ih
    exact ⟨_, hn.append data, rfl⟩
  | advance h k ih =>
    obtain ⟨n, hn, rfl⟩ := ih
    exact ⟨_, hn.advance k, rfl⟩
  | fail h f ih =>
    obtain ⟨n, hn, rfl⟩ := ih
    exact ⟨_, hn.fail f, rfl⟩
  | stop h ih =>
    obtain ⟨n, hn, rfl⟩ := ih
    exact ⟨_, hn.stop, rfl⟩

theorem pass (h : Trace v s ts m) (t : Token) (k : Nat) : ∃ us, Trace v s us (m.pass v t k) := by
  have hs : Trace v s ts m.skipSpace := h.advance _
  cases ha : accept? v m.skipSpace t with
  | none =>
    have hp := (hs.fail (.unexpectedToken t.description m.skipSpace.offset)).advance k
    exact ⟨ts, by rwa [Machine.pass, Machine.accept, ha]⟩
  | some n =>
    have hp := (hs.accept ha).advance k
    exact ⟨ts ++ [t], by rwa [Machine.pass, Machine.accept, ha]⟩

theorem read (h : Trace v s ts m) (atEnd : Bool) : ∃ us, Trace v s us (read v atEnd m) := by
  induction m using read_induction v atEnd generalizing ts with
  | fault m hf =>
    rw [read_of_fault hf]
    exact ⟨ts, h⟩
  | empty m hf hp =>
    rw [read_of_empty hf hp]
    exact ⟨ts, h.advance _⟩
  | nothing m hf hp hn =>
    rw [read_of_nothing hf hp hn]
    exact ⟨ts, ((h.advance _).tell rfl).advance _⟩
  | more m hm hl =>
    rw [read_of_more hm hl]
    exact ⟨ts, h.advance _⟩
  | bad m f hm hl =>
    rw [read_of_bad hm hl]
    exact ⟨ts, (h.advance _).fail f⟩
  | token m t k hm hl ih =>
    rw [read_of_token hm hl]
    obtain ⟨us, hp⟩ := h.pass t k
    exact ih hp

theorem take (h : Trace v s ts m) (data : Bytes) : ∃ us, Trace v s us (take v m data).2 := by
  cases hw : m.wantsMore with
  | false =>
    rw [take_of_not_wantsMore hw]
    exact ⟨ts, h⟩
  | true =>
    obtain ⟨us, hr⟩ := (h.append data).read false
    have hp : Trace v s us (m.readPiece v data) := hr.tell rfl
    cases hv : v.wantsMore (m.readPiece v data).visitor with
    | true =>
      rw [take_of_wantsMore hw hv]
      exact ⟨us, hp⟩
    | false =>
      rw [take_of_stop hw hv]
      exact ⟨us, hp.stop⟩

theorem takeAll (h : Trace v s ts m) (chunks : List Bytes) :
    ∃ us, Trace v s us (takeAll v m chunks) := by
  induction chunks generalizing m ts with
  | nil => exact ⟨ts, h⟩
  | cons data chunks ih =>
    obtain ⟨us, ht⟩ := h.take data
    exact ih ht

theorem readEnd (h : Trace v s ts m) : ∃ us, Trace v s us (readEnd v m) := by
  cases hc : m.fault.isSome || m.stopped with
  | true =>
    rw [readEnd_of_closed hc]
    exact ⟨ts, h⟩
  | false =>
    obtain ⟨us, hr⟩ := h.read true
    rw [readEnd_of_open hc, conclude]
    split
    · exact ⟨us, hr.fail .unexpectedEnd⟩
    · exact ⟨us, hr⟩

theorem finish (h : Trace v s ts m) : ∃ us, Trace v s us (finish v m).2 := by
  obtain ⟨us, hr⟩ := h.readEnd
  have he : (ending (Machine.readEnd v m).fault).isContent = false := by
    unfold ending
    split <;> rfl
  rw [finish_snd]
  exact ⟨us, hr.tell he⟩

end Trace

/-- Whatever pieces of input a machine takes and however it is ended, what it expects fits its
frames, also between two tokens of a piece, and every accepted token is one of the moves. A scalar
is taken as one run. The events told have left open what the frames have open. -/
theorem frames_fit (v : Visitor σ) (s : σ) :
    (∀ chunks, (∃ ts, Trace v s ts (takeAll v (begin v (Machine.onto s)) chunks)) ∧
      ∃ ts, Trace v s ts (run v s chunks)) ∧
    ∀ ts m, Trace v s ts m →
      (∀ t k, ∃ us, Trace v s us (m.pass v t k)) ∧
      m.Fits ts ∧
      (∀ t n, accept? v m t = some n → Move v m t n) ∧
      (∀ t, t.isScalar = true → m.expect = .value ∨ m.expect = .item → ∃ run n, Scalar t run ∧
        accept? v m t = some n ∧ Completes v (tell v m (.values run)) n) ∧
      ∃ n, Trace (v.history s) [] ts n ∧ m = n.map (v.receiveAll s) ∧ n.Opened := by
  refine ⟨fun chunks => ?_, fun ts m h => ?_⟩
  · have hbegin : Trace v s [] (begin v (Machine.onto s)) := Trace.onto.tell rfl
    obtain ⟨ts, hall⟩ := hbegin.takeAll chunks
    exact ⟨⟨ts, hall⟩, hall.finish⟩
  · obtain ⟨n, hn, hmap⟩ := h.exists_history
    exact ⟨h.pass, h.fits, fun t n => h.fits.move, fun t => h.fits.exists_scalar, n, hn, hmap,
      hn.opened⟩

theorem frames_fit_nested :
    let v := Visitor.essentials
    let ts : List Token :=
      [.openObject, .string "a", .colon, .openArray, .openObject, .string "b", .colon]
    ∃ m, Trace v [] ts m ∧ m.expect = .value ∧
      m.frames = [.object (some "b"), .array, .object (some "a")] ∧ m.Fits ts ∧
      (∃ n, accept? v m .null = some n ∧ Move v m .null n) ∧
      ∃ n, Trace (v.history []) [] ts n ∧ closers n.visitor =
        [.leaveAttribute "b", .leaveStruct, .leaveList, .leaveAttribute "a", .leaveStruct] := by
  intro v ts
  have hopen : Trace v [] [.openObject, .string "a", .colon] _ :=
    .accept (.accept (.accept .onto rfl) rfl) rfl
  have hm : Trace v [] ts _ :=
    .accept (.accept (.accept (.accept hopen rfl) rfl) rfl) rfl
  obtain ⟨-, hfits, hmove, -, n, hn, hmap, hopened⟩ := (frames_fit v []).2 ts _ hm
  have hframes := congrArg Machine.frames hmap
  change _ = n.frames at hframes
  refine ⟨_, hm, rfl, rfl, hfits, ⟨_, rfl, hmove .null _ rfl⟩, n, hn, ?_⟩
  rw [hopened, ← hframes]
  rfl

end Machine

end AttributeTrees.Json.Stream
