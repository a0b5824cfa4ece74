import AttributeTrees.Disk.Tree
import AttributeTrees.Proofs.Span
import AttributeTrees.Proofs.Text.Lossy
import Mathlib.Data.List.TakeWhile
/-!
# Reads of a file

Characters of a file are read from four bytes for each, bytes from as many, and a word from a window
of the first bytes. Main statements: the characters read are the first of all that the file has from
the offset on, and the word is the first of the file, unless the window cuts it off. Then it is a
stump of that word.
-/
namespace AttributeTrees

namespace Text

variable {s : List Char}

theorem trimLeft_append (h : trimLeft s ≠ []) (t : List Char) :
    trimLeft (s ++ t) = trimLeft s ++ t := by
  unfold trimLeft at *
  rw [List.dropWhile_append, if_neg (by simpa [List.isEmpty_iff] using h)]

theorem firstWord?_of_trimLeft (h : trimLeft s ≠ []) :
    firstWord? s = some ((trimLeft s).takeWhile (!isBlank ·)) := by
  unfold firstWord?
  cases hs : trimLeft s with
  | nil => exact absurd hs h
  | cons c word => rfl

theorem firstWord?_append_of_ended (h : ∃ c ∈ trimLeft s, isBlank c = true) (t : List Char) :
    firstWord? (s ++ t) = firstWord? s := by
  obtain ⟨c, hc, hblank⟩ := h
  have hs : trimLeft s ≠ [] := List.ne_nil_of_mem hc
  have hends : ((trimLeft s).takeWhile (!isBlank ·)).length ≠ (trimLeft s).length := by
    intro hall
    have hword := List.takeWhile_eq_self_iff.1
      ((List.takeWhile_prefix (!isBlank ·)).eq_of_length hall) c hc
    simp [hblank] at hword
  rw [firstWord?_of_trimLeft (by rw [trimLeft_append hs]; simp [hs]), trimLeft_append hs,
    List.takeWhile_append, if_neg hends, firstWord?_of_trimLeft hs]

theorem firstWord?_append_of_unended (hs : trimLeft s ≠ [])
    (h : ∀ c ∈ trimLeft s, isBlank c = false) (t : List Char) :
    firstWord? (s ++ t) = some (trimLeft s ++ t.takeWhile (!isBlank ·)) := by
  have hall : (trimLeft s).takeWhile (!isBlank ·) = trimLeft s :=
    List.takeWhile_eq_self_iff.2 fun c hc => by simp [h c hc]
  rw [firstWord?_of_trimLeft (by rw [trimLeft_append hs]; simp [hs]), trimLeft_append hs,
    List.takeWhile_append, if_pos (by rw [hall])]

end Text

namespace Span

variable {α : Type}

theorem copyEach_eq (source slots : List α) : copyEach source slots =
    (min slots.length source.length, source.take slots.length ++ slots.drop source.length) := by
  induction source generalizing slots with
  | nil => simp [copyEach]
  | cons v source ih =>
    cases slots with
    | nil => simp [copyEach]
    | cons slot slots => simp [copyEach, ih, Nat.succ_min_succ]

theorem copyEach_take (source slots : List α) :
    copyEach (source.take slots.length) slots = copyEach source slots := by
  induction source generalizing slots with
  | nil => rw [List.take_nil]
  | cons v source ih =>
    cases slots with
    | nil => rfl
    | cons slot slots =>
      rw [List.length_cons, List.take_succ_cons, copyEach, copyEach, ih]

end Span

namespace Disk.Node

open Text (firstWord? isBlank trimLeft)
open Text.Utf8 (Bytes decodeLossy replacement)
open AttributeTrees.Span (Window)

variable {content : Bytes} {t : Element}

theorem fetchFile_char (content : Bytes) (offset : Nat) (slots : List Char) :
    fetchFile content offset .char slots =
      Span.copyEach (decodeLossy (content.drop offset)) slots := by
  rw [fetchFile, characters, ← Span.copyEach_take, Text.Utf8.take_decodeLossy_take,
    Span.copyEach_take]

def shown (content : Bytes) : List Char := decodeLossy (content.take wordWindow)

def hidden (content : Bytes) : List Char := decodeLossy (content.drop wordWindow)

/-- A word begins in the window, and white space ends it neither there nor right behind. -/
structure CutOff (content : Bytes) : Prop where
  begun : trimLeft (shown content) ≠ []
  unended : ∀ c ∈ trimLeft (shown content), isBlank c = false
  goesOn : ∃ c ∈ (hidden content).head?, isBlank c = false

/-- What a cut leaves of the first word of a text. -/
inductive Stump (text : List Char) : List Char → Prop
  | short {word more : List Char} (hword : word ≠ []) (hmore : more ≠ [])
      (h : firstWord? text = some (word ++ more)) : Stump text word
  | broken {front behind : List Char} {c : Char} (h : text = front ++ c :: behind)
      (hfront : ∀ d ∈ trimLeft front, isBlank d = false) :
      Stump text (trimLeft front ++ [replacement])

theorem isBlank_replacement : isBlank replacement = false := by decide

theorem trimLeft_snoc_replacement (front : List Char) :
    trimLeft (front ++ [replacement]) = trimLeft front ++ [replacement] := by
  by_cases h : trimLeft front = []
  · have hnil : front.dropWhile isBlank = [] := h
    rw [h, trimLeft, List.dropWhile_append, hnil]
    simp [isBlank_replacement]
  · exact Text.trimLeft_append h _

theorem word?_eq (content : Bytes) :
    word? content = (firstWord? (shown content)).map String.ofList := rfl

theorem firstWord?_shown_of_ended (h : ∃ c ∈ trimLeft (shown content), isBlank c = true) :
    firstWord? (shown content) = firstWord? (decodeLossy content) := by
  rcases Text.Utf8.decodeLossy_cut content wordWindow with
    hall | ⟨front, c, behind, rest, hall, hshown, -⟩
  · rw [hall]
    exact (Text.firstWord?_append_of_ended h _).symm
  · have hfront : ∃ c ∈ trimLeft front, isBlank c = true := by
      obtain ⟨c, hc, hblank⟩ := h
      rw [shown, hshown, trimLeft_snoc_replacement, List.mem_append, List.mem_singleton] at hc
      rcases hc with hc | rfl
      · exact ⟨c, hc, hblank⟩
      · rw [isBlank_replacement] at hblank
        cases hblank
    rw [hall, shown, hshown, Text.firstWord?_append_of_ended hfront,
      Text.firstWord?_append_of_ended hfront]

theorem firstWord?_shown (hs : trimLeft (shown content) ≠ [])
    (h : ∀ c ∈ trimLeft (shown content), isBlank c = false) :
    firstWord? (shown content) = some (trimLeft (shown content)) := by
  have hword := Text.firstWord?_append_of_unended hs h []
  rwa [List.append_nil, List.takeWhile_nil, List.append_nil] at hword

theorem firstWord?_shown_of_unended (hs : trimLeft (shown content) ≠ [])
    (h : ∀ c ∈ trimLeft (shown content), isBlank c = false)
    (hends : ∀ c ∈ (hidden content).head?, isBlank c = true) :
    firstWord? (shown content) = firstWord? (decodeLossy content) := by
  rcases Text.Utf8.decodeLossy_cut content wordWindow with
    hall | ⟨front, c, behind, rest, -, -, hhidden⟩
  · have hnone : (hidden content).takeWhile (!isBlank ·) = [] := by
      cases hh : hidden content with
      | nil => rfl
      | cons c rest =>
        have hc := hends c (by rw [hh]; rfl)
        simp [hc]
    have hword := Text.firstWord?_append_of_unended hs h (hidden content)
    rw [hnone, List.append_nil] at hword
    rw [firstWord?_shown hs h, hall]
    exact hword.symm
  · -- What is left behind the cut of a character is no white space.
    have hblank := hends replacement (by rw [hidden, hhidden]; rfl)
    rw [isBlank_replacement] at hblank
    cases hblank

/-- What is not cut off is the first word of the file. -/
theorem word?_of_not_cutOff (h : ¬ CutOff content) :
    word? content = if trimLeft (shown content) = [] then none
      else (firstWord? (decodeLossy content)).map String.ofList := by
  rw [word?_eq]
  split
  · next hblank =>
    rw [firstWord?, hblank]
    rfl
  · next hbegun =>
    by_cases hended : ∃ c ∈ trimLeft (shown content), isBlank c = true
    · rw [firstWord?_shown_of_ended hended]
    · have hunended : ∀ c ∈ trimLeft (shown content), isBlank c = false := by
        simpa using hended
      rw [firstWord?_shown_of_unended hbegun hunended fun c hc =>
        Bool.of_not_eq_false fun hblank => h ⟨hbegun, hunended, c, hc, hblank⟩]

theorem word?_of_cutOff (h : CutOff content) :
    ∃ word, word? content = some (String.ofList word) ∧ Stump (decodeLossy content) word := by
  refine ⟨trimLeft (shown content), ?_, ?_⟩
  · rw [word?_eq, firstWord?_shown h.begun h.unended]
    rfl
  rcases Text.Utf8.decodeLossy_cut content wordWindow with
    hall | ⟨front, c, behind, rest, hall, hfront, -⟩
  · obtain ⟨c, hc, hblank⟩ := h.goesOn
    refine .short h.begun ?_ (hall ▸ Text.firstWord?_append_of_unended h.begun h.unended _)
    obtain ⟨rest, hrest⟩ := List.head?_eq_some_iff.1 hc
    rw [show decodeLossy (content.drop wordWindow) = c :: rest from hrest]
    simp [hblank]
  · rw [shown, hfront, trimLeft_snoc_replacement]
    refine .broken hall fun d hd => h.unended d ?_
    rw [shown, hfront, trimLeft_snoc_replacement]
    exact List.mem_append_left _ hd

theorem fetchFile_word (hchar : t ≠ .char) (hbyte : t ≠ .int .byte) (content : Bytes)
    (slot : t.Value) :
    fetchFile content 0 t [slot] = Span.fill [(word? content).bind t.read?] [slot] := by
  cases hword : word? content with
  | none =>
    cases t with
    | char => exact absurd rfl hchar
    | int type => cases type <;> first | exact absurd rfl hbyte | simp [fetchFile, hword]
    | _ => simp [fetchFile, hword]
  | some word =>
    have hstore := Span.counted_store [slot] (t.read? word)
    cases t with
    | char => exact absurd rfl hchar
    | int type =>
      cases type <;>
        first | exact absurd rfl hbyte | simpa [fetchFile, hword, Span.setText] using hstore
    | _ => simpa [fetchFile, hword, Span.setText] using hstore

end Disk.Node

namespace Disk

open Text.Utf8 (Bytes)

end Disk

end AttributeTrees
