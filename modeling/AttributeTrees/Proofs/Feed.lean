import AttributeTrees.Feed
/-!
# What a fed parser is told

A parser that keeps account of what it is told is fed piece after piece. Main statement: it is told
of the start first, then of the pieces up to the first after which it wants no more, and of the end
once, whichever way the input ends.
-/
namespace AttributeTrees

open Text.Utf8 (Bytes)

variable {π : Type}

namespace Parser

inductive Message where
  | started
  | took (data : Bytes) (more : Bool)
  | finished (accepted : Bool)

def traced (p : Parser π) : Parser (π × List Message) where
  start s := (p.start s.1, s.2 ++ [.started])
  take s data :=
    let (more, t) := p.take s.1 data
    (more, (t, s.2 ++ [.took data more]))
  finish s :=
    let (accepted, t) := p.finish s.1
    (accepted, (t, s.2 ++ [.finished accepted]))

def takeAll (p : Parser π) (s : π) (pieces : List Bytes) : π :=
  pieces.foldl (fun t data => (p.take t data).2) s

def answers (p : Parser π) (s : π) : List Bytes → List Bool
  | [] => []
  | data :: rest => (p.take s data).1 :: p.answers (p.take s data).2 rest

def account (p : Parser π) (s : π) (pieces : List Bytes) : List Message :=
  List.zipWith .took pieces (p.answers s pieces)

/-- How many pieces come before the first after which no more is wanted. -/
def welcome (p : Parser π) (s : π) (pieces : List Bytes) : Nat :=
  ((p.answers s pieces).takeWhile id).length

def heard (p : Parser π) (s : π) (pieces : List Bytes) : List Bytes :=
  pieces.take (p.welcome s pieces + 1)

variable (p : Parser π) (s : π) (log : List Message) (data : Bytes) (pieces : List Bytes)

theorem answers_take (i : Nat) : p.answers s (pieces.take i) = (p.answers s pieces).take i := by
  induction pieces generalizing s i with
  | nil => simp [answers]
  | cons data rest ih => cases i <;> simp [answers, ih]

theorem welcome_take (i : Nat) : p.welcome s (pieces.take i) = min i (p.welcome s pieces) := by
  rw [welcome, answers_take, ← List.take_takeWhile, List.length_take]
  rfl

theorem traced_take : p.traced.take (s, log) data =
    ((p.take s data).1, ((p.take s data).2, log ++ [.took data (p.take s data).1])) := rfl

theorem heard_take (i : Nat) : p.heard s (pieces.take i) = (p.heard s pieces).take i := by
  rw [heard, heard, welcome_take, List.take_take, List.take_take]
  congr 1
  omega

@[simp] theorem answers_traced : p.traced.answers (s, log) pieces = p.answers s pieces := by
  induction pieces generalizing s log with
  | nil => rfl
  | cons data rest ih => simp [answers, traced_take, ih]

@[simp] theorem welcome_traced : p.traced.welcome (s, log) pieces = p.welcome s pieces := by
  simp [welcome]

@[simp] theorem heard_traced : p.traced.heard (s, log) pieces = p.heard s pieces := by
  simp [heard]

theorem takeAll_traced :
    p.traced.takeAll (s, log) pieces = (p.takeAll s pieces, log ++ p.account s pieces) := by
  induction pieces generalizing s log with
  | nil => simp [takeAll, account, answers]
  | cons data rest ih =>
    have h := ih (p.take s data).2 (log ++ [.took data (p.take s data).1])
    simpa [takeAll, account, answers, traced_take] using h

end Parser

namespace Feed

variable (p : Parser π) (s : π) (offers : List Offer)

theorem offerAll_of_not_active {f : Feed π} (h : f.active = false) :
    f.offerAll p offers = (List.replicate offers.length false, f) := by
  induction offers with
  | nil => rfl
  | cons o rest ih => simp [offerAll, offer, give_of_not_active p h, ih, h, List.replicate_succ]

theorem offerAll_of_active :
    let pieces := offers.map Offer.bytes
    let k := p.welcome s pieces
    (⟨s, true, none⟩ : Feed π).offerAll p offers =
      (List.replicate k true ++ List.replicate (offers.length - k) false,
        ⟨p.takeAll s (p.heard s pieces), (p.answers s pieces).all id, none⟩) := by
  induction offers generalizing s with
  | nil => rfl
  | cons o rest ih =>
    obtain ⟨more, t, h⟩ : ∃ more t, p.take s o.bytes = (more, t) := ⟨_, _, rfl⟩
    cases more with
    | false =>
      have hoff := offerAll_of_not_active p rest (f := ⟨t, false, none⟩) rfl
      simp [offerAll, offer, give, h, hoff, Parser.heard, Parser.welcome, Parser.answers,
        Parser.takeAll, List.replicate_succ]
    | true =>
      have hrest := ih t
      simp [offerAll, offer, give, h, hrest, Parser.heard, Parser.welcome, Parser.answers,
        Parser.takeAll, List.replicate_succ]

theorem offerAll_traced :
    let pieces := offers.map Offer.bytes
    let k := p.welcome (p.start s) pieces
    let heard := p.heard (p.start s) pieces
    (start p.traced (s, [])).offerAll p.traced offers =
      (List.replicate k true ++ List.replicate (offers.length - k) false,
        ⟨(p.takeAll (p.start s) heard, .started :: p.account (p.start s) heard),
          (p.answers (p.start s) pieces).all id, none⟩) := by
  have h := offerAll_of_active p.traced (p.start s, [.started]) offers
  simp only [Parser.welcome_traced, Parser.heard_traced, Parser.takeAll_traced,
    Parser.answers_traced] at h
  exact h

/-- However a feed is used and ended, its parser is told of the start first, of the pieces up to
the first after which it wants no more, and of the end once and last. -/
theorem told_once :
    let pieces := offers.map Offer.bytes
    let answers := p.answers (p.start s) pieces
    let k := p.welcome (p.start s) pieces
    let heard := p.heard (p.start s) pieces
    let given := List.replicate k true ++ List.replicate (offers.length - k) false
    let use := fun f : Feed (π × List Parser.Message) => f.offerAll p.traced offers
    let opened := start p.traced (s, [])
    let (accepted, t) := p.finish (p.takeAll (p.start s) heard)
    let told := .started :: p.account (p.start s) heard ++ [.finished accepted]
    let ended : Feed (π × List Parser.Message) := ⟨(t, told), false, some accepted⟩
    (use opened).1 = given ∧
    (∀ i, (opened.offerAll p.traced (offers.take i)).2 =
      ⟨(p.takeAll (p.start s) (heard.take i), .started :: p.account (p.start s) (heard.take i)),
        (answers.take i).all id, none⟩) ∧
    (use opened).2.drop p.traced = ended ∧
    (use opened).2.close p.traced = (accepted, ended) ∧
    within p.traced (s, []) use = ((given, accepted), ended) := by
  intro pieces answers k heard given use opened
  have huse := offerAll_traced p s offers
  refine ⟨congrArg Prod.fst huse, fun i => ?_, ?_, ?_, ?_⟩
  · have hi := offerAll_traced p s (offers.take i)
    simp only [List.map_take, Parser.heard_take, Parser.answers_take] at hi
    exact congrArg Prod.snd hi
  · simp only [use, opened, huse]
    rfl
  · simp only [use, opened, huse]
    rfl
  · simp only [within, use, huse]
    rfl

end Feed

end AttributeTrees
