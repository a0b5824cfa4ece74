import AttributeTrees.Proofs.Json.Stream.Reading
import AttributeTrees.Proofs.Visit.History
/-!
# Machines over different visitors

The machine only tells its visitor and asks whether it wants more. So a map of states that respects
what visitors receive carries the machine's steps from one visitor to the other. Applied to
histories: a run over a visitor is the run over its history, each state seen as what the visitor
makes of the events so far. In the same way the place in the document can be carried from one
machine to another, whatever they have pending.
-/
namespace AttributeTrees.Json.Stream.Machine

open Text.Utf8 (Bytes)
open Visit (Event Visitor)

variable {σ τ : Type} {f : σ → τ} {v : Visitor σ} {w : Visitor τ}

/-- Whether `f` sees what `v` makes of an event as what `w` makes of it. -/
def Respects (f : σ → τ) (v : Visitor σ) (w : Visitor τ) : Prop :=
  ∀ s e, f (v.receive s e) = w.receive (f s) e

theorem respects_id (v : Visitor σ) : Respects id v v := fun _ _ => rfl

def carry (f : σ → τ) (m : Machine σ) (x : Machine τ) : Machine τ :=
  { x with visitor := f m.visitor, frames := m.frames, expect := m.expect }

section
variable (h : Respects f v w) (x : Machine τ)

include h

theorem tell_carry (m : Machine σ) (e : Event) :
    tell w (m.carry f x) e = (tell v m e).carry f x := by
  simp [tell, carry, h m.visitor e]

theorem valueDone_carry (m : Machine σ) :
    valueDone w (m.carry f x) = (valueDone v m).carry f x := by
  obtain ⟨s, pending, offset, frames, expect, fault, stopped⟩ := m
  rcases frames with _ | ⟨(_ | name) | _, rest⟩
  · rfl
  · rfl
  · simp [valueDone, tell, carry, h s]
  · rfl

theorem valueDone_tell_carry (m : Machine σ) (e : Event) :
    valueDone w (tell w (m.carry f x) e) = (valueDone v (tell v m e)).carry f x := by
  rw [tell_carry h, valueDone_carry h]

theorem acceptValue_carry (m : Machine σ) (t : Token) :
    acceptValue w (m.carry f x) t = (acceptValue v m t).map (·.carry f x) := by
  unfold acceptValue
  split
  · simp [tell, carry, h m.visitor]
  · simp [tell, carry, h m.visitor]
  · cases scalar? t with
    | none => rfl
    | some run => exact congrArg some (valueDone_tell_carry h x m _)

theorem closeArray_carry (m : Machine σ) :
    closeArray w (m.carry f x) = (closeArray v m).map (·.carry f x) := by
  obtain ⟨s, pending, offset, frames, expect, fault, stopped⟩ := m
  rcases frames with _ | ⟨key | _, rest⟩
  · rfl
  · rfl
  · exact congrArg some
      (valueDone_tell_carry h x ⟨s, pending, offset, rest, expect, fault, stopped⟩ _)

theorem closeObject_carry (m : Machine σ) :
    closeObject w (m.carry f x) = (closeObject v m).map (·.carry f x) := by
  obtain ⟨s, pending, offset, frames, expect, fault, stopped⟩ := m
  rcases frames with _ | ⟨key | _, rest⟩
  · rfl
  · exact congrArg some
      (valueDone_tell_carry h x ⟨s, pending, offset, rest, expect, fault, stopped⟩ _)
  · rfl

theorem acceptKey_carry (m : Machine σ) (name : String) :
    acceptKey w (m.carry f x) name = (acceptKey v m name).carry f x := by
  simp [acceptKey, tell, carry, h m.visitor]

theorem accept?_carry (m : Machine σ) (t : Token) :
    accept? w (m.carry f x) t = (accept? v m t).map (·.carry f x) := by
  have value := acceptValue_carry h x m t
  have array := closeArray_carry h x m
  have object := closeObject_carry h x m
  have key := acceptKey_carry h x m
  obtain ⟨s, pending, offset, frames, expect, fault, stopped⟩ := m
  cases expect <;> cases t <;>
    first
    | rfl
    | exact value
    | exact array
    | exact object
    | exact congrArg some (key _)

end

theorem eq_carry_of_accept? {m n : Machine σ} {t : Token} (h : accept? v m t = some n) :
    n = n.carry id m := by
  have hc := accept?_carry (respects_id v) m m t
  rw [show m.carry id m = m from rfl, h] at hc
  exact Option.some.inj hc

theorem stopped_accept (m : Machine σ) (t : Token) (offset : Nat) :
    (accept v m t offset).stopped = m.stopped := by
  unfold accept
  cases ha : accept? v m t with
  | none => rfl
  | some n =>
    rw [eq_carry_of_accept? ha]
    rfl

theorem stopped_read (v : Visitor σ) (atEnd : Bool) (m : Machine σ) :
    (read v atEnd m).stopped = m.stopped := by
  induction m using read_induction v atEnd with
  | fault m hf => rw [read_of_fault hf]
  | empty m hf hp => rw [read_of_empty hf hp]; rfl
  | nothing m hf hp hn => rw [read_of_nothing hf hp hn]; rfl
  | more m hm hl => rw [read_of_more hm hl]; rfl
  | bad m f hm hl => rw [read_of_bad hm hl]; rfl
  | token m t k hm hl ih =>
    rw [read_of_token hm hl, ih]
    exact stopped_accept m.skipSpace t _

def map (f : σ → τ) (m : Machine σ) : Machine τ := { m with visitor := f m.visitor }

theorem tell_map (h : Respects f v w) (m : Machine σ) (e : Event) :
    tell w (m.map f) e = (tell v m e).map f :=
  tell_carry h (m.map f) m e

theorem accept?_map (h : Respects f v w) (m : Machine σ) (t : Token) :
    accept? w (m.map f) t = (accept? v m t).map (·.map f) := by
  have hc := accept?_carry h (m.map f) m t
  rw [show m.carry f (m.map f) = m.map f from rfl] at hc
  rw [hc]
  cases ha : accept? v m t with
  | none => rfl
  | some n =>
    rw [eq_carry_of_accept? ha]
    rfl

theorem accept_map (h : Respects f v w) (m : Machine σ) (t : Token) (offset : Nat) :
    accept w (m.map f) t offset = (accept v m t offset).map f := by
  unfold accept
  rw [accept?_map h]
  cases accept? v m t <;> rfl

theorem Seeks.map {m : Machine σ} (hm : m.Seeks) (f : σ → τ) : (m.map f).Seeks :=
  ⟨hm.fault, hm.expect, hm.pending⟩

theorem pass_map (h : Respects f v w) (m : Machine σ) (t : Token) (k : Nat) :
    pass w (m.map f) t k = (pass v m t k).map f :=
  congrArg (·.advance k) (accept_map h m.skipSpace t m.skipSpace.offset)

theorem read_map (h : Respects f v w) (atEnd : Bool) (m : Machine σ) :
    read w atEnd (m.map f) = (read v atEnd m).map f := by
  induction m using read_induction v atEnd with
  | fault m hf => rw [read_of_fault hf, read_of_fault (m := m.map f) hf]
  | empty m hf hp =>
    rw [read_of_empty hf hp]
    exact read_of_empty (m := m.map f) hf hp
  | nothing m hf hp hn =>
    rw [read_of_nothing hf hp hn, read_of_nothing (m := m.map f) hf hp hn]
    exact congrArg (·.advance m.skipSpace.pending.length) (tell_map h m.skipSpace _)
  | more m hm hs =>
    rw [read_of_more hm hs]
    exact read_of_more (hm.map f) hs
  | bad m g hm hs =>
    rw [read_of_bad hm hs]
    exact read_of_bad (hm.map f) hs
  | token m t k hm hs ih => rw [read_of_token hm hs, read_of_token (hm.map f) hs, pass_map h, ih]

theorem readPiece_map (h : Respects f v w) (m : Machine σ) (data : Bytes) :
    readPiece w (m.map f) data = (readPiece v m data).map f := by
  have hr := read_map h false (m.append data)
  exact (congrArg (tell w · .flush) hr).trans (tell_map h _ _)

theorem take_map (h : Respects f v w) (hw : ∀ s, w.wantsMore (f s) = v.wantsMore s)
    (m : Machine σ) (data : Bytes) : (take w (m.map f) data).2 = (take v m data).2.map f := by
  have hp := readPiece_map h m data
  have hq : w.wantsMore (readPiece w (m.map f) data).visitor =
      v.wantsMore (readPiece v m data).visitor := by
    rw [hp]
    exact hw _
  cases hm : m.wantsMore with
  | false => rw [take_of_not_wantsMore hm, take_of_not_wantsMore (m := m.map f) hm]
  | true =>
    cases hv : v.wantsMore (readPiece v m data).visitor with
    | true => rw [take_of_wantsMore hm hv, take_of_wantsMore (m := m.map f) hm (hq.trans hv), hp]
    | false =>
      rw [take_of_stop hm hv, take_of_stop (m := m.map f) hm (hq.trans hv), hp]
      rfl

theorem takeAll_map (h : Respects f v w) (hw : ∀ s, w.wantsMore (f s) = v.wantsMore s)
    (m : Machine σ) (chunks : List Bytes) :
    takeAll w (m.map f) chunks = (takeAll v m chunks).map f := by
  induction chunks generalizing m with
  | nil => rfl
  | cons data chunks ih => rw [takeAll_cons, take_map h hw, ih, takeAll_cons]

theorem readEnd_map (h : Respects f v w) (m : Machine σ) :
    readEnd w (m.map f) = (readEnd v m).map f := by
  have hc (n : Machine σ) : (n.map f).conclude = n.conclude.map f :=
    (apply_ite (map f) ((n.fault.isNone && n.expect != .nothing) = true)
      (n.fail .unexpectedEnd) n).symm
  cases hm : m.fault.isSome || m.stopped with
  | true => rw [readEnd_of_closed hm, readEnd_of_closed (m := m.map f) hm]
  | false => rw [readEnd_of_open hm, readEnd_of_open (m := m.map f) hm, read_map h, hc]

theorem finish_map (h : Respects f v w) (m : Machine σ) :
    (finish w (m.map f)).2 = (finish v m).2.map f := by
  rw [finish_snd, finish_snd, readEnd_map h]
  exact tell_map h _ _

theorem run_map (h : Respects f v w) (hw : ∀ s, w.wantsMore (f s) = v.wantsMore s) (s : σ)
    (chunks : List Bytes) : run w (f s) chunks = (run v s chunks).map f := by
  have hb : begin w (onto (f s)) = (begin v (onto s)).map f := tell_map h (onto s) _
  rw [run, hb, takeAll_map h hw, finish_map h, run]

/-- A run over a visitor is the run over its history: what the visitor is in the end, it made of
the events it received. -/
theorem run_eq_map_history (v : Visitor σ) (s : σ) (chunks : List Bytes) :
    run v s chunks = (run (v.history s) [] chunks).map (v.receiveAll s) := by
  have h : Respects (v.receiveAll s) (v.history s) v := fun log e => v.receiveAll_snoc s log e
  exact run_map h (fun _ => rfl) [] chunks

end AttributeTrees.Json.Stream.Machine
