import AttributeTrees.Path
import AttributeTrees.Proofs.Text.Pieces
/-!
# Paths and their dotted texts

A path is read from the pieces of a text between its points, so its segments have no points. Main
statement: a text is the dotted text of the path that it is read as, and a path is what its dotted
text is read as exactly if no segment has a point and the path is not one empty segment alone.
-/
namespace AttributeTrees.Path

variable {p : Path}

def Plain (p : Path) : Prop := ∀ segment ∈ p.segments, '.' ∉ segment.toList

theorem plain_ofDotted (text : String) : (ofDotted text).Plain := by
  intro segment h
  unfold ofDotted at h
  split at h
  · cases h
  · obtain ⟨piece, hpiece, rfl⟩ := List.mem_map.1 h
    rw [String.toList_ofList]
    exact Text.not_mem_of_mem_split '.' hpiece

theorem ofDotted_ne_empty_segment (text : String) : ofDotted text ≠ ⟨[""]⟩ := by
  intro h
  have htext : text = "" := by
    rw [← dotted_ofDotted text, h]
    rfl
  subst htext
  cases h

theorem split_dotted (hp : p.Plain) (hne : p.segments ≠ []) :
    Text.split '.' p.dotted.toList = p.segments.map String.toList := by
  rw [dotted, String.toList_ofList]
  refine Text.split_join (by simpa using hne) fun piece hpiece => ?_
  obtain ⟨segment, hsegment, rfl⟩ := List.mem_map.1 hpiece
  exact hp segment hsegment

theorem dotted_ne_empty (hp : p.Plain) (hne : p.segments ≠ []) (hone : p ≠ ⟨[""]⟩) :
    p.dotted ≠ "" := by
  intro h
  have hsplit := split_dotted hp hne
  rw [h] at hsplit
  have hsegments : p.segments = [""] := by
    have hback := congrArg (List.map String.ofList) hsplit
    simpa [Text.split, Function.comp_def] using hback.symm
  exact hone (congrArg Path.mk hsegments)

theorem ofDotted_dotted (hp : p.Plain) (hone : p ≠ ⟨[""]⟩) : ofDotted p.dotted = p := by
  by_cases hne : p.segments = []
  · rw [show p = here from congrArg Path.mk hne]
    rfl
  · have htext : ¬ p.dotted.isEmpty = true := fun h =>
      dotted_ne_empty hp hne hone (String.isEmpty_iff.1 h)
    rw [ofDotted, if_neg htext, split_dotted hp hne]
    simp [Function.comp_def]

/-- A text is the dotted text of what it is read as. A path is what its dotted text is read as
unless a segment has a point or the path is one empty segment. -/
theorem dotted_inverse :
    (∀ text, (ofDotted text).dotted = text) ∧
      ∀ p : Path, ofDotted p.dotted = p ↔
        (∀ segment ∈ p.segments, '.' ∉ segment.toList) ∧ p ≠ ⟨[""]⟩ := by
  refine ⟨dotted_ofDotted, fun p => ⟨fun h => ?_, fun ⟨hp, hone⟩ => ofDotted_dotted hp hone⟩⟩
  rw [← h]
  exact ⟨plain_ofDotted p.dotted, ofDotted_ne_empty_segment p.dotted⟩

end AttributeTrees.Path
