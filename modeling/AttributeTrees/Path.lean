import AttributeTrees.Text.Pieces
/-!
# Paths

A path is a list of segments that leads from a node of a tree to one below it. Its dotted text
joins the segments with points. Splitting a text at its points and joining the pieces again gives
the text back, so every non-empty text is the dotted text of exactly one path without points in
its segments.
-/
namespace AttributeTrees

structure Path where
  segments : List String
deriving DecidableEq, Repr

namespace Path

def here : Path := ⟨[]⟩

def ofDotted (text : String) : Path :=
  if text.isEmpty then here else ⟨(Text.split '.' text.toList).map String.ofList⟩

def dotted (p : Path) : String :=
  String.ofList (Text.join '.' (p.segments.map String.toList))

def length (p : Path) : Nat := p.segments.length

def isEmpty (p : Path) : Bool := p.segments.isEmpty

def push (p : Path) (segment : String) : Path := ⟨p.segments ++ [segment]⟩

def last? (p : Path) : Option String := p.segments.getLast?

def parent? (p : Path) : Option Path :=
  if p.segments.isEmpty then none else some ⟨p.segments.dropLast⟩

def pop (p : Path) : Path := ⟨p.segments.dropLast⟩

def startsWith (p q : Path) : Bool := q.segments.isPrefixOf p.segments

def wildcard : String := "_"

def matchesPattern (p : Path) (pattern : List String) : Bool :=
  p.segments.length == pattern.length &&
    (p.segments.zip pattern).all fun (segment, expected) =>
      expected == wildcard || segment == expected

/-- The order by segments; a segment is ordered by its characters' code points. -/
def compareSegments : List String → List String → Ordering
  | [], [] => .eq
  | [], _ :: _ => .lt
  | _ :: _, [] => .gt
  | a :: as, b :: bs => (compareOfLessAndEq a b).then (compareSegments as bs)

def compare (p q : Path) : Ordering := compareSegments p.segments q.segments

@[simp] theorem segments_push (p : Path) (s : String) : (p.push s).segments = p.segments ++ [s] :=
  rfl

@[simp] theorem pop_push (p : Path) (s : String) : (p.push s).pop = p := by
  simp [pop, push]

@[simp] theorem last?_push (p : Path) (s : String) : (p.push s).last? = some s := by
  simp [last?]

@[simp] theorem dotted_here : here.dotted = "" := rfl

@[simp] theorem dotted_ofDotted (text : String) : (ofDotted text).dotted = text := by
  unfold ofDotted
  split
  · next h => exact (String.isEmpty_iff.1 h).symm
  · simp [dotted, Function.comp_def, Text.join_split]

end Path

end AttributeTrees
