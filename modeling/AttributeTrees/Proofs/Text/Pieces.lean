import AttributeTrees.Text.Pieces
/-!
# Splitting and joining

The pieces of a split text have no marks in them, and pieces without marks that were joined are
found again. So joining is the inverse of splitting on lists of such pieces, of which there is at
least one.
-/
namespace AttributeTrees.Text

variable {mark : Char} {piece : List Char}

theorem split_cons_of_ne {c : Char} (hc : c ≠ mark) {s : List Char} {pieces : List (List Char)}
    (h : split mark s = piece :: pieces) : split mark (c :: s) = (c :: piece) :: pieces := by
  rw [split, if_neg hc, h]

theorem not_mem_of_mem_split (mark : Char) {s : List Char} (h : piece ∈ split mark s) :
    mark ∉ piece := by
  induction s generalizing piece with
  | nil => simp_all [split]
  | cons c s ih =>
    by_cases hc : c = mark
    · rw [split, if_pos hc] at h
      rcases List.mem_cons.1 h with rfl | h
      · exact List.not_mem_nil
      · exact ih h
    · obtain ⟨first, pieces, hs⟩ := List.exists_cons_of_ne_nil (split_ne_nil mark s)
      rw [split_cons_of_ne hc hs] at h
      rcases List.mem_cons.1 h with rfl | h
      · have hfirst : mark ∉ first := ih (hs ▸ List.mem_cons_self)
        exact List.not_mem_cons_of_ne_of_not_mem (Ne.symm hc) hfirst
      · exact ih (hs ▸ List.mem_cons_of_mem first h)

theorem split_of_not_mem (h : mark ∉ piece) : split mark piece = [piece] := by
  induction piece with
  | nil => rfl
  | cons c piece ih =>
    obtain ⟨hc, hpiece⟩ := List.ne_and_not_mem_of_not_mem_cons h
    exact split_cons_of_ne (Ne.symm hc) (ih hpiece)

theorem split_append_mark (h : mark ∉ piece) (rest : List Char) :
    split mark (piece ++ mark :: rest) = piece :: split mark rest := by
  induction piece with
  | nil => exact if_pos rfl
  | cons c piece ih =>
    obtain ⟨hc, hpiece⟩ := List.ne_and_not_mem_of_not_mem_cons h
    exact split_cons_of_ne (Ne.symm hc) (ih hpiece)

theorem split_join {pieces : List (List Char)} (hne : pieces ≠ [])
    (h : ∀ piece ∈ pieces, mark ∉ piece) : split mark (join mark pieces) = pieces := by
  induction pieces with
  | nil => exact absurd rfl hne
  | cons piece pieces ih =>
    obtain ⟨hpiece, hpieces⟩ := List.forall_mem_cons.1 h
    cases pieces with
    | nil => exact split_of_not_mem hpiece
    | cons second pieces =>
      rw [join, split_append_mark hpiece, ih (List.cons_ne_nil _ _) hpieces]
      exact List.cons_ne_nil _ _

end AttributeTrees.Text
