import AttributeTrees.Text.Utf8
/-!
# Feeding a parser

A parser takes its input piece by piece and says after each whether it wants more. A feed hands it
the pieces up to the first after which it wants none, and asks it for its verdict once, at the end.
-/
namespace AttributeTrees

open Text.Utf8 (Bytes)

structure Parser (π : Type) where
  start : π → π
  take : π → Bytes → Bool × π
  finish : π → Bool × π

structure Feed (π : Type) where
  parser : π
  active : Bool
  verdict : Option Bool

namespace Feed

variable {π : Type}

def start (p : Parser π) (s : π) : Feed π := ⟨p.start s, true, none⟩

def give (p : Parser π) (f : Feed π) (data : Bytes) : Feed π :=
  if f.active then
    let (more, s) := p.take f.parser data
    { f with parser := s, active := more }
  else f

def finish (p : Parser π) (f : Feed π) : Feed π :=
  match f.verdict with
  | some _ => f
  | none =>
    let (accepted, s) := p.finish f.parser
    ⟨s, false, some accepted⟩

inductive Offer where
  | data (bytes : Bytes)
  | text (s : String)
  | pushed (bytes : Bytes)

def Offer.bytes : Offer → Bytes
  | .data bytes => bytes
  | .text s => Text.Utf8.encodeString s
  | .pushed bytes => bytes

def offer (p : Parser π) (f : Feed π) (o : Offer) : Bool × Feed π :=
  let f := f.give p o.bytes
  (f.active, f)

def offerAll (p : Parser π) (f : Feed π) : List Offer → List Bool × Feed π
  | [] => ([], f)
  | o :: rest =>
    let (more, f) := f.offer p o
    let (answers, f) := f.offerAll p rest
    (more :: answers, f)

/-- What becomes of a feed that is let go: its input ends, unless it has ended before. -/
def drop (p : Parser π) (f : Feed π) : Feed π :=
  if f.verdict.isNone then f.finish p else f

def close (p : Parser π) (f : Feed π) : Bool × Feed π :=
  let f := f.finish p
  (f.verdict.getD false, f.drop p)

def within {ρ : Type} (p : Parser π) (s : π) (use : Feed π → ρ × Feed π) : (ρ × Bool) × Feed π :=
  let (result, f) := use (start p s)
  let (accepted, f) := f.close p
  ((result, accepted), f)

theorem give_of_not_active (p : Parser π) {f : Feed π} (h : f.active = false) (data : Bytes) :
    give p f data = f := by
  simp [give, h]

end Feed

end AttributeTrees
