import AttributeTrees.Run
import AttributeTrees.Text.Utf8
/-!
# Traversal events

A tree is handed to a visitor as a flat sequence of events: a start, the value with its structures,
attributes and lists opened and closed in order, and a finish or a failure. A visitor is a state
machine on events. It says at any time whether it wants more, and after a finish whether it is
satisfied with what it received.
-/
namespace AttributeTrees.Visit

open Text.Utf8 (Bytes)

inductive Event where
  | start
  | values (run : Run)
  | enterStruct
  | enterAttribute (name : String)
  | leaveAttribute (name : String)
  | leaveStruct
  | enterList
  | leaveList
  | flush
  | unparsed (blocks : List Bytes)
  | finish
  | fail

structure Visitor (σ : Type) where
  wantsMore : σ → Bool
  receive : σ → Event → σ
  verdict : σ → Bool

namespace Visitor

variable {σ τ : Type}

def receiveAll (v : Visitor σ) (s : σ) (events : List Event) : σ := events.foldl v.receive s

/-- Two visitors at once. They go on while either wants more and are satisfied if both are. -/
def both (v : Visitor σ) (w : Visitor τ) : Visitor (σ × τ) where
  wantsMore s := v.wantsMore s.1 || w.wantsMore s.2
  receive s e := (v.receive s.1 e, w.receive s.2 e)
  verdict s := v.verdict s.1 && w.verdict s.2

@[simp] theorem receiveAll_nil (v : Visitor σ) (s : σ) : v.receiveAll s [] = s := rfl

@[simp] theorem receiveAll_cons (v : Visitor σ) (s : σ) (e : Event) (es : List Event) :
    v.receiveAll s (e :: es) = v.receiveAll (v.receive s e) es := rfl

theorem receiveAll_append (v : Visitor σ) (s : σ) (es fs : List Event) :
    v.receiveAll s (es ++ fs) = v.receiveAll (v.receiveAll s es) fs := by
  simp [receiveAll]

theorem receiveAll_both (v : Visitor σ) (w : Visitor τ) (s : σ × τ) (es : List Event) :
    (v.both w).receiveAll s es = (v.receiveAll s.1 es, w.receiveAll s.2 es) := by
  induction es generalizing s with
  | nil => rfl
  | cons e es ih => exact ih _

end Visitor

end AttributeTrees.Visit
