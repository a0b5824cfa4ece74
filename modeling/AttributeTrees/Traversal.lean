import AttributeTrees.Access
import AttributeTrees.Visit.Event
/-!
# Traversal of trees

Two ways to go through a tree, each node before its children and the children in order: one reports
every node with its path, the other hands the tree to a visitor. Neither goes beyond a link.
-/
namespace AttributeTrees.Access

open Visit (Visitor)

variable {m : Type → Type} {ν σ : Type} [Monad m]

/-- Reports a node and, if the answer is yes, what is below it, down to a depth. The index in a list
is its path segment, otherwise the child's name where it has one. -/
def reportNode (a : Access m ν) (f : ν → Path → σ → m (Bool × σ)) :
    Nat → ν → Path → σ → m σ
  | 0, _, _, s => return s
  | depth + 1, n, p, s => do
    let (deeper, s) ← f n p s
    if !deeper then return s
    else if ← a.isLink n then return s
    else
      let indexed ← a.isList n
      a.foldChildren n (fun i child s => do
        let segment ← if indexed then pure (toString i) else a.segment child i
        a.reportNode f depth child (p.push segment) s) s

def report (a : Access m ν) (f : ν → Path → σ → m (Bool × σ)) (root : ν) (s : σ) : m σ := do
  a.reportNode f ((← a.size ()) + 1) root Path.here s

/-- The values of a node as a run of the sort that its kind asks for. Whole numbers are unsigned if
one of them needs it; a duration is its seconds; bytes are one text. -/
def run (a : Access m ν) (n : ν) : m Run := do
  if (← a.valueCount n) == 0 then return .nil 1
  else
    match ← a.kind n with
    | .bool => return .bool (← a.all n .bool)
    | .int16 | .int32 | .int64 =>
      let values ← a.all n (.int .int64)
      if values.length == (← a.valueCount n) then return .int values
      else return .uint (← a.all n (.int .nat64))
    | .float => return .float (← a.all n .float)
    | .duration => return .double ((← a.all n .duration).map Duration.seconds)
    | .byte =>
      match ← a.text n with
      | some text => return .string [text]
      | none => return .nil 1
    | .string | .unknown | .composite => return .string (← a.all n .text)

def visitChildren (a : Access m ν) (v : Visitor σ) (n : ν) (f : Nat → ν → σ → m σ) :
    Nat → Nat → σ → m σ
  | 0, _, s => return s
  | left + 1, i, s => do
    match ← a.childAt n i with
    | some child =>
      if v.wantsMore s then
        let s ← f i child s
        a.release child
        a.visitChildren v n f left (i + 1) s
      else
        a.release child
        return s
    | none => a.visitChildren v n f left (i + 1) s

def isStruct (a : Access m ν) (n : ν) : m Bool := do
  if (← a.childCount n) != 0 then return true else return (← a.kind n) == .composite

def visitNode (a : Access m ν) (v : Visitor σ) : Nat → ν → σ → m σ
  | 0, _, s => return s
  | depth + 1, n, s => do
    let link ← a.isLink n
    let list ← if link then pure false else a.isList n
    if list then
      let s := v.receive s .enterList
      let s ← a.visitChildren v n (fun _ child s => a.visitNode v depth child s)
        (← a.childCount n) 0 s
      return v.receive s .leaveList
    else
      let struct ← if link then pure false else a.isStruct n
      if struct then
        let s := v.receive s .enterStruct
        let s ← a.visitChildren v n (fun i child s => do
          let name ← a.segment child i
          let s := v.receive s (.enterAttribute name)
          let s ← a.visitNode v depth child s
          return v.receive s (.leaveAttribute name)) (← a.childCount n) 0 s
        return v.receive s .leaveStruct
      else return v.receive s (.values (← a.run n))

def visit (a : Access m ν) (v : Visitor σ) (root : ν) (s : σ) : m (Bool × σ) := do
  let depth := (← a.size ()) + 1
  let s ← a.visitNode v depth root (v.receive s .start)
  let s := v.receive s .finish
  return (v.verdict s, s)

end AttributeTrees.Access
