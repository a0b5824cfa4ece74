import AttributeTrees.Store
import AttributeTrees.Traversal
/-!
# Answers without a trace

Where a node answers every question as another does elsewhere, and the store stays as it is, it
answers in the same way whatever is made of the questions: its values, its text and its run.
-/
namespace AttributeTrees.Access

variable {α β ν μ : Type}

def Says (x : Live α) (s : Store) (a : α) : Prop := x.run s = (a, s)

theorem Says.bind {x : Live α} {f : α → Live β} {s : Store} {a : α} {b : β} (h : Says x s a)
    (k : Says (f a) s b) : Says (x >>= f) s b := by
  unfold Says at *
  rw [StateT.run_bind, h]
  exact k

theorem Says.run_bind {x : Live α} {s : Store} {a : α} (h : Says x s a) (f : α → Live β) :
    (x >>= f).run s = (f a).run s := by
  rw [StateT.run_bind, h]
  rfl

theorem run_bytesFrom (b : Access Id μ) (m : μ) (rounds offset : Nat) :
    b.bytesFrom m (rounds + 1) offset =
      let r := (b.fetch m offset (.int .byte) (List.replicate window IntType.byte.zero)).run
      if r.1 < window then r.2.take r.1
      else r.2.take r.1 ++ (b.bytesFrom m rounds (offset + r.1)).run := rfl

/-- A node answers without a trace as another does elsewhere. -/
structure Answers (a : Access Live ν) (n : ν) (b : Access Id μ) (m : μ) (s : Store) : Prop where
  kind : Says (a.kind n) s (b.kind m)
  isLink : Says (a.isLink n) s (b.isLink m)
  isList : Says (a.isList n) s (b.isList m)
  childCount : Says (a.childCount n) s (b.childCount m)
  valueCount : Says (a.valueCount n) s (b.valueCount m)
  fetch : ∀ offset t slots, Says (a.fetch n offset t slots) s (b.fetch m offset t slots)

namespace Answers

variable {a : Access Live ν} {n : ν} {b : Access Id μ} {m : μ} {s : Store}

theorem all (h : Answers a n b m s) (t : Element) : Says (a.all n t) s (b.all m t) :=
  h.valueCount.bind ((h.fetch 0 t _).bind rfl)

theorem first (h : Answers a n b m s) (t : Element) : Says (a.first n t) s (b.first m t) :=
  (h.fetch 0 t _).bind rfl

theorem bytesFrom (h : Answers a n b m s) (rounds offset : Nat) :
    Says (a.bytesFrom n rounds offset) s (b.bytesFrom m rounds offset) := by
  induction rounds generalizing offset with
  | zero => rfl
  | succ rounds ih =>
    rw [run_bytesFrom]
    refine (h.fetch offset (.int .byte) _).bind ?_
    dsimp only [Id.run]
    split
    · rfl
    · exact (ih _).bind rfl

theorem text (h : Answers a n b m s) : Says (a.text n) s (b.text m) := by
  have hrest (bytesHere : Bool) : Says (if bytesHere then
      (do return some (String.ofList (← a.all n .char))) else a.first n .text) s
      (if bytesHere then some (String.ofList (b.all m .char)) else b.first m .text :
        Option String) := by
    cases bytesHere with
    | true => exact (h.all .char).bind rfl
    | false => exact h.first .text
  have hkind := h.kind
  unfold Access.text
  refine hkind.bind ?_
  generalize b.kind m = kind
  change Says _ s (if (show Kind from kind) == .byte then _ else _ : Option String)
  split
  · exact h.valueCount.bind (hrest _)
  · exact hrest false

theorem run (h : Answers a n b m s) : Says (a.run n) s (b.run m) := by
  have hall (t : Element) (r : List t.Value → Run) :
      Says (do return r (← a.all n t)) s (r (b.all m t)) := (h.all t).bind rfl
  have hint : Says (do
        let values ← a.all n (.int .int64)
        if values.length == (← a.valueCount n) then return Run.int values
        else return Run.uint (← a.all n (.int .nat64))) s
      (Id.run do
        let values ← b.all m (.int .int64)
        if values.length == (← b.valueCount m) then return Run.int values
        else return Run.uint (← b.all m (.int .nat64))) := by
    refine (h.all _).bind (h.valueCount.bind ?_)
    generalize b.all m (.int .int64) = values, b.valueCount m = count
    change Says _ s (if List.length (show List _ from values) == (show Nat from count) then _
      else _ : Run)
    split
    · rfl
    · exact hall (.int .nat64) .uint
  have hkind := h.kind
  unfold Access.run
  refine h.valueCount.bind ?_
  change Says _ s (if (show Nat from b.valueCount m) == 0 then _ else _ : Run)
  split
  · rfl
  · refine hkind.bind ?_
    generalize b.kind m = kind
    cases kind with
    | bool => exact hall .bool .bool
    | int16 | int32 | int64 => exact hint
    | float => exact hall .float .float
    | duration => exact hall .duration fun values => .double (values.map Duration.seconds)
    | byte =>
      refine h.text.bind ?_
      generalize b.text m = text
      cases text <;> rfl
    | string | unknown | composite => exact hall .text .string

end Answers

end AttributeTrees.Access
