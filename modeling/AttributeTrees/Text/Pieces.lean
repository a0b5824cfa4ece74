/-!
# Pieces between marks

A text is split at every occurrence of a mark, into one piece more than there are marks. Joining
the pieces gives the text back.
-/
namespace AttributeTrees.Text

def split (mark : Char) : List Char → List (List Char)
  | [] => [[]]
  | c :: rest =>
    if c = mark then [] :: split mark rest
    else
      match split mark rest with
      | [] => [[c]]
      | piece :: pieces => (c :: piece) :: pieces

def join (mark : Char) : List (List Char) → List Char
  | [] => []
  | [piece] => piece
  | piece :: pieces => piece ++ mark :: join mark pieces

theorem split_ne_nil (mark : Char) (s : List Char) : split mark s ≠ [] := by
  cases s with
  | nil => simp [split]
  | cons c rest =>
    unfold split
    split
    · simp
    · split <;> simp

theorem join_split (mark : Char) (s : List Char) : join mark (split mark s) = s := by
  induction s with
  | nil => rfl
  | cons c rest ih =>
    obtain ⟨piece, pieces, h⟩ := List.exists_cons_of_ne_nil (split_ne_nil mark rest)
    rw [h] at ih
    by_cases hc : c = mark
    · simp [split, hc, h, join, ih]
    · cases pieces with
      | nil => simpa [split, hc, h, join] using ih
      | cons p ps => simpa [split, hc, h, join] using ih

end AttributeTrees.Text
