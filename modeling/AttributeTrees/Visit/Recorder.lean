import AttributeTrees.Visit.Event
/-!
# Recorders

A recorder keeps everything it receives, in order. It may have enough after so many values, and its
verdict is fixed beforehand.
-/
namespace AttributeTrees.Visit

structure Recorder (ε : Type) where
  latest : List ε
  taken : Nat
  enough : Option Nat
  satisfied : Bool

namespace Recorder

variable {ε : Type}

def fresh (enough : Option Nat) (satisfied : Bool) : Recorder ε := ⟨[], 0, enough, satisfied⟩

def log (r : Recorder ε) : List ε := r.latest.reverse

def wantsMore (r : Recorder ε) : Bool :=
  match r.enough with
  | none => true
  | some n => r.taken < n

def keep (r : Recorder ε) (entry : ε) (values : Nat) : Recorder ε :=
  { r with latest := entry :: r.latest, taken := r.taken + values }

def visitor : Visitor (Recorder Event) where
  wantsMore := wantsMore
  receive r e :=
    r.keep e (match e with
      | .values run => run.length
      | _ => 0)
  verdict r := r.satisfied

end Recorder

end AttributeTrees.Visit
