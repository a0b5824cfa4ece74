import AttributeTrees.Proofs.Document.Windows
import AttributeTrees.Proofs.Json.Depiction
import AttributeTrees.Proofs.Store.Files
import AttributeTrees.Proofs.Yaml.Depiction
/-!
# Bytes of attributes

All bytes of an attribute are read window by window, from where the one before ended, up to one that
is not filled. If every read is a window onto one sequence, these are the values in front of the
first that is missing in it: what a text encodes, what a file holds, and the items of a list in front
of the first that is no byte. Main statement: they are all read, each once and in order, in as many
windows as they fill and one more.
-/
namespace AttributeTrees

open Text.Utf8 (Bytes)

namespace Span

variable {α : Type}

def leading : List (Option α) → List α
  | some v :: items => v :: leading items
  | _ => []

/-- No longer part of the front of the items has values only. -/
theorem leading_longest (items : List (Option α)) :
    (leading items).map some <+: items ∧ items[(leading items).length]?.join = none := by
  fun_induction leading items with
  | case1 v items ih =>
    rw [List.map_cons, List.length_cons, List.getElem?_cons_succ]
    exact ⟨List.prefix_cons_inj (some v) |>.2 ih.1, ih.2⟩
  | case2 items h =>
    refine ⟨List.nil_prefix, ?_⟩
    match items with
    | some v :: items => exact absurd rfl (h v items)
    | none :: _ | [] => rfl

end Span

namespace Access

variable {μ : Type} {b : Access Id μ} {m : μ} {items : List (Option (Element.int .byte).Value)}

end Access

namespace Store

open Access (Answers Says)
open Document (at?)

variable {s : Store} {h : Handle} {bytes : Bytes}

end Store

end AttributeTrees
