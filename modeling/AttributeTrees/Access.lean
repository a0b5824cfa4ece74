import AttributeTrees.Kind
import AttributeTrees.Path
import AttributeTrees.Span
/-!
# Access to trees

What can be asked of the nodes of a tree, and what follows from the answers alone: finding a node
along a path and reading values. The questions are asked in a monad, since the nodes of some trees
have to be counted and given back.
-/
namespace AttributeTrees

structure Access (m : Type → Type) (ν : Type) where
  name : ν → m (Option String)
  preview : ν → m (Option String)
  kind : ν → m Kind
  isImmutable : ν → m Bool
  isLink : ν → m Bool
  isList : ν → m Bool
  childCount : ν → m Nat
  childAt : ν → Nat → m (Option ν)
  childNamed : ν → String → m (Option ν)
  valueCount : ν → m Nat
  fetch : ν → Nat → (t : Element) → List t.Value → m (Nat × List t.Value)
  release : ν → m Unit
  /-- No node has more values than this or lies deeper. Asking for it leaves no trace. -/
  size : Unit → m Nat

namespace Access

variable {m : Type → Type} {ν μ : Type} [Monad m]

def nothing : Access m ν where
  name _ := pure none
  preview _ := pure none
  kind _ := pure .unknown
  isImmutable _ := pure false
  isLink _ := pure false
  isList _ := pure false
  childCount _ := pure 0
  childAt _ _ := pure none
  childNamed _ _ := pure none
  valueCount _ := pure 0
  fetch _ _ _ slots := pure (0, slots)
  release _ := pure ()
  size _ := pure 0

/-- Nodes under another guise. What is no node in disguise has nothing. -/
def disguise (a : Access m ν) (put : ν → μ) (take? : μ → Option ν) : Access m μ where
  name x := match take? x with | some n => a.name n | none => pure none
  preview x := match take? x with | some n => a.preview n | none => pure none
  kind x := match take? x with | some n => a.kind n | none => pure .unknown
  isImmutable x := match take? x with | some n => a.isImmutable n | none => pure false
  isLink x := match take? x with | some n => a.isLink n | none => pure false
  isList x := match take? x with | some n => a.isList n | none => pure false
  childCount x := match take? x with | some n => a.childCount n | none => pure 0
  childAt x i :=
    match take? x with | some n => Option.map put <$> a.childAt n i | none => pure none
  childNamed x s :=
    match take? x with | some n => Option.map put <$> a.childNamed n s | none => pure none
  valueCount x := match take? x with | some n => a.valueCount n | none => pure 0
  fetch x offset t slots :=
    match take? x with | some n => a.fetch n offset t slots | none => pure (0, slots)
  release x := match take? x with | some n => a.release n | none => pure ()
  size := a.size

def lift (a : Access Id ν) : Access m ν where
  name n := pure (a.name n)
  preview n := pure (a.preview n)
  kind n := pure (a.kind n)
  isImmutable n := pure (a.isImmutable n)
  isLink n := pure (a.isLink n)
  isList n := pure (a.isList n)
  childCount n := pure (a.childCount n)
  childAt n i := pure (a.childAt n i)
  childNamed n s := pure (a.childNamed n s)
  valueCount n := pure (a.valueCount n)
  fetch n offset t slots := pure (a.fetch n offset t slots)
  release n := pure (a.release n)
  size u := pure (a.size u)

def choose (pick : m (Access m ν)) : Access m ν where
  name n := do (← pick).name n
  preview n := do (← pick).preview n
  kind n := do (← pick).kind n
  isImmutable n := do (← pick).isImmutable n
  isLink n := do (← pick).isLink n
  isList n := do (← pick).isList n
  childCount n := do (← pick).childCount n
  childAt n i := do (← pick).childAt n i
  childNamed n s := do (← pick).childNamed n s
  valueCount n := do (← pick).valueCount n
  fetch n offset t slots := do (← pick).fetch n offset t slots
  release n := do (← pick).release n
  size u := do (← pick).size u

def taggedName (segment tag : String) : String := segment ++ "@" ++ tag

def candidates (segment : String) (tags : List String) : List String :=
  (tags.filter fun t => !t.isEmpty).map (taggedName segment) ++ [segment]

def firstNamed (a : Access m ν) (n : ν) : List String → m (Option ν)
  | [] => return none
  | name :: rest => do
    match ← a.childNamed n name with
    | some child => return some child
    | none => a.firstNamed n rest

def step (a : Access m ν) (n : ν) (segment : String) (tags : List String) : m (Option ν) := do
  if ← a.isList n then
    match Numeral.index? segment with
    | some i => a.childAt n i
    | none => return none
  else a.firstNamed n (candidates segment tags)

/-- The node that segments lead to. The node at the start and those on the way are given back. -/
def follow (a : Access m ν) (tags : List String) (n : ν) : List String → m (Option ν)
  | [] => return some n
  | segment :: rest => do
    let next ← a.step n segment tags
    a.release n
    match next with
    | some child => a.follow tags child rest
    | none => return none

def resolve (a : Access m ν) (n : ν) (p : Path) (tags : List String) : m (Option ν) :=
  a.follow tags n p.segments

def value (a : Access m ν) (n : ν) (offset : Nat) (t : Element) : m (Option t.Value) := do
  let (count, slots) ← a.fetch n offset t [t.default]
  return if count = 1 then slots.head? else none

def first (a : Access m ν) (n : ν) (t : Element) : m (Option t.Value) := a.value n 0 t

def all (a : Access m ν) (n : ν) (t : Element) : m (List t.Value) := do
  let total ← a.valueCount n
  let (count, slots) ← a.fetch n 0 t (List.replicate total t.default)
  return slots.take count

def window : Nat := 256

def bytesFrom (a : Access m ν) (n : ν) : Nat → Nat → m (List (Element.int .byte).Value)
  | 0, _ => return []
  | fuel + 1, offset => do
    let (count, slots) ← a.fetch n offset (.int .byte) (List.replicate window IntType.byte.zero)
    let here := slots.take count
    if count < window then return here
    else return here ++ (← a.bytesFrom n fuel (offset + count))

def bytes (a : Access m ν) (n : ν) : m (List UInt8) := do
  let values ← a.bytesFrom n ((← a.size ()) + 1) 0
  return values.map IntType.toByte

def text (a : Access m ν) (n : ν) : m (Option String) := do
  let bytesHere ← do
    if (← a.kind n) == .byte then pure (decide (0 < (← a.valueCount n))) else pure false
  if bytesHere then return some (String.ofList (← a.all n .char)) else a.first n .text

def foldChildrenFrom {σ : Type} (a : Access m ν) (n : ν) (f : Nat → ν → σ → m σ) :
    Nat → Nat → σ → m σ
  | 0, _, s => return s
  | left + 1, i, s => do
    match ← a.childAt n i with
    | some child =>
      let s ← f i child s
      a.release child
      a.foldChildrenFrom n f left (i + 1) s
    | none => a.foldChildrenFrom n f left (i + 1) s

def foldChildren {σ : Type} (a : Access m ν) (n : ν) (f : Nat → ν → σ → m σ) (s : σ) : m σ := do
  a.foldChildrenFrom n f (← a.childCount n) 0 s

def segment (a : Access m ν) (child : ν) (index : Nat) : m String := do
  match ← a.name child with
  | some name => return if name.isEmpty then toString index else name
  | none => return toString index

end Access

end AttributeTrees
