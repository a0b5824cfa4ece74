import AttributeTrees.Json.Stream.Machine
import AttributeTrees.Proofs.Visit.History
/-!
# Rounds of reading

Reading goes in rounds: white space is left behind, then a token is looked for, unless something
went wrong, the document is complete or nothing else is pending. The equations say what a round
does in each of these cases, and the induction follows the rounds. A piece of input is read in
rounds and flushed; the visitor is asked once, behind it, whether it wants more.
-/
namespace AttributeTrees.Json.Stream.Machine

open Text.Utf8 (Bytes)

variable {σ : Type} {v : Visit.Visitor σ} {atEnd : Bool} {m : Machine σ}

structure Seeks (m : Machine σ) : Prop where
  fault : m.fault = none
  expect : m.expect ≠ .nothing
  pending : m.skipSpace.pending ≠ []

def look (m : Machine σ) (atEnd : Bool) : Scan :=
  scan m.skipSpace.pending m.skipSpace.offset atEnd

def pass (v : Visit.Visitor σ) (m : Machine σ) (t : Token) (length : Nat) : Machine σ :=
  (accept v m.skipSpace t m.skipSpace.offset).advance length

theorem read_of_fault (hf : m.fault.isSome = true) : read v atEnd m = m := by
  rw [read, if_pos hf]

theorem read_of_empty (hf : m.fault = none) (hp : m.skipSpace.pending = []) :
    read v atEnd m = m.skipSpace := by
  rw [read]
  simp [hf, hp]

theorem read_of_nothing (hf : m.fault = none) (hp : m.skipSpace.pending ≠ [])
    (hn : m.expect = .nothing) :
    read v atEnd m = (tell v m.skipSpace (.unparsed [m.skipSpace.pending])).advance
      m.skipSpace.pending.length := by
  have hn' : m.skipSpace.expect = .nothing := hn
  rw [read]
  simp [hf, hp, hn']

theorem read_of_seeks (hm : m.Seeks) :
    read v atEnd m =
      match m.look atEnd with
      | .more => m.skipSpace
      | .fault f => m.skipSpace.fail f
      | .token t k => read v atEnd (m.pass v t k) := by
  have hn : m.skipSpace.expect ≠ .nothing := hm.expect
  rw [read]
  simp only [hm.fault, Option.isSome_none, Bool.false_eq_true, if_false, List.isEmpty_iff,
    hm.pending, hn, look]
  split <;> simp [*, pass]

theorem read_of_more (hm : m.Seeks) (hs : m.look atEnd = .more) :
    read v atEnd m = m.skipSpace := by
  rw [read_of_seeks hm, hs]

theorem read_of_bad {f : Fault} (hm : m.Seeks) (hs : m.look atEnd = .fault f) :
    read v atEnd m = m.skipSpace.fail f := by
  rw [read_of_seeks hm, hs]

theorem read_of_token {t : Token} {k : Nat} (hm : m.Seeks) (hs : m.look atEnd = .token t k) :
    read v atEnd m = read v atEnd (m.pass v t k) := by
  rw [read_of_seeks hm, hs]

@[elab_as_elim]
theorem read_induction (v : Visit.Visitor σ) (atEnd : Bool) {P : Machine σ → Prop}
    (fault : ∀ m, m.fault.isSome = true → P m)
    (empty : ∀ m, m.fault = none → m.skipSpace.pending = [] → P m)
    (nothing : ∀ m, m.fault = none → m.skipSpace.pending ≠ [] → m.expect = .nothing → P m)
    (more : ∀ m, m.Seeks → m.look atEnd = .more → P m)
    (bad : ∀ m f, m.Seeks → m.look atEnd = .fault f → P m)
    (token : ∀ m t k, m.Seeks → m.look atEnd = .token t k → P (m.pass v t k) → P m)
    (m : Machine σ) : P m := by
  fun_induction read v atEnd m with
  | case1 m hf => exact fault m hf
  | case2 m hf n he => exact empty m (by simpa using hf) (by simpa using he)
  | case3 m hf n he hn => exact nothing m (by simpa using hf) (by simpa using he) hn
  | case4 m hf n he hn hs => exact more m ⟨by simpa using hf, hn, by simpa using he⟩ hs
  | case5 m hf n he hn f hs => exact bad m f ⟨by simpa using hf, hn, by simpa using he⟩ hs
  | case6 m hf n he hn t k hs ih =>
    exact token m t k ⟨by simpa using hf, hn, by simpa using he⟩ hs ih

def append (m : Machine σ) (data : Bytes) : Machine σ := { m with pending := m.pending ++ data }

def readPiece (v : Visit.Visitor σ) (m : Machine σ) (data : Bytes) : Machine σ :=
  tell v (read v false (m.append data)) .flush

def takeAll (v : Visit.Visitor σ) (m : Machine σ) (chunks : List Bytes) : Machine σ :=
  chunks.foldl (fun m data => (take v m data).2) m

def run (v : Visit.Visitor σ) (s : σ) (chunks : List Bytes) : Machine σ :=
  (finish v (takeAll v (begin v (onto s)) chunks)).2

def log (v : Visit.Visitor σ) (s : σ) (chunks : List Bytes) : List Visit.Event :=
  (run (v.history s) [] chunks).visitor

theorem take_of_not_wantsMore (hm : m.wantsMore = false) (data : Bytes) :
    take v m data = (false, m) := by
  simp [take, hm]

theorem take_of_wantsMore {data : Bytes} (hm : m.wantsMore = true)
    (hv : v.wantsMore (m.readPiece v data).visitor = true) :
    take v m data = ((m.readPiece v data).wantsMore, m.readPiece v data) := by
  simp only [readPiece, append] at hv
  simp [take, hm, hv, readPiece, append]

theorem take_of_stop {data : Bytes} (hm : m.wantsMore = true)
    (hv : v.wantsMore (m.readPiece v data).visitor = false) :
    take v m data = (false, { m.readPiece v data with stopped := true }) := by
  simp only [readPiece, append] at hv
  rw [take, if_pos hm]
  simp [hv, readPiece, append, wantsMore]

@[simp] theorem takeAll_nil : takeAll v m [] = m := rfl

@[simp] theorem takeAll_cons (data : Bytes) (chunks : List Bytes) :
    takeAll v m (data :: chunks) = takeAll v (take v m data).2 chunks := rfl

def conclude (m : Machine σ) : Machine σ :=
  if m.fault.isNone && m.expect != .nothing then m.fail .unexpectedEnd else m

theorem fault_conclude_eq_none :
    m.conclude.fault = none ↔ m.fault = none ∧ m.expect = .nothing := by
  cases hf : m.fault <;> by_cases hx : m.expect = .nothing <;> simp [conclude, fail, hf, hx]

theorem readEnd_of_closed (hm : (m.fault.isSome || m.stopped) = true) : readEnd v m = m := by
  rw [readEnd, if_pos hm]

theorem readEnd_of_open (hm : (m.fault.isSome || m.stopped) = false) :
    readEnd v m = (read v true m).conclude := by
  simp [readEnd, hm, conclude]

def ending (fault : Option Fault) : Visit.Event := if fault.isSome then .fail else .finish

theorem finish_snd (v : Visit.Visitor σ) (m : Machine σ) :
    (finish v m).2 = tell v (readEnd v m) (ending (readEnd v m).fault) := by
  cases hf : (readEnd v m).fault <;> simp [finish, ending, hf]

end AttributeTrees.Json.Stream.Machine
