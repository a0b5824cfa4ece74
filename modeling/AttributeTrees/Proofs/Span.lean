import AttributeTrees.Span
/-!
# Windows onto sequences

A read of items from an offset on shows them in the slots up to the first without a value, and
leaves the slots behind as they were. This alone determines what is read, so a longer read is the
reads of its parts one behind the other, and filling slots, copying into them and storing a single
value are reads in the same sense.
-/
namespace AttributeTrees.Span

variable {α : Type} {items : List (Option α)} {offset : Nat} {slots : List α}
  {answer : Nat × List α}

/-- `answer` is what a read of items from an offset on into slots gives: a number of slots from the
first on, each with the value of its item, which ends with the slots, with the items or at an item
without a value. -/
structure Window (items : List (Option α)) (offset : Nat) (slots : List α)
    (answer : Nat × List α) : Prop where
  shown : ∀ i < answer.1, ∃ v, items[offset + i]? = some (some v) ∧ answer.2[i]? = some v
  kept : ∀ i, answer.1 ≤ i → answer.2[i]? = slots[i]?
  room : answer.1 ≤ slots.length
  ends : answer.1 < slots.length → items[offset + answer.1]?.join = none

namespace Window

theorem length (h : Window items offset slots answer) : answer.2.length = slots.length := by
  have hle : answer.2.length ≤ slots.length := by
    have hend := h.kept slots.length h.room
    rw [List.getElem?_eq_none (Nat.le_refl _)] at hend
    exact List.getElem?_eq_none_iff.1 hend
  refine Nat.le_antisymm hle (Nat.le_of_not_lt fun hlt => ?_)
  have hnone : answer.2[answer.2.length]? = none := List.getElem?_eq_none (Nat.le_refl _)
  by_cases hi : answer.1 ≤ answer.2.length
  · have hkept := h.kept _ hi
    rw [hnone, List.getElem?_eq_getElem hlt] at hkept
    cases hkept
  · obtain ⟨v, -, hv⟩ := h.shown _ (Nat.lt_of_not_le hi)
    rw [hnone] at hv
    cases hv

theorem le_of_window {other : Nat × List α} (h : Window items offset slots answer)
    (h' : Window items offset slots other) : other.1 ≤ answer.1 := by
  refine Nat.le_of_not_lt fun hlt => ?_
  obtain ⟨v, hv, -⟩ := h'.shown answer.1 hlt
  have hroom := h'.room
  have hend := h.ends (by omega)
  rw [hv] at hend
  cases hend

theorem unique {other : Nat × List α} (h : Window items offset slots answer)
    (h' : Window items offset slots other) : answer = other := by
  have hn : answer.1 = other.1 := Nat.le_antisymm (h'.le_of_window h) (h.le_of_window h')
  refine Prod.ext hn (List.ext_getElem? fun i => ?_)
  by_cases hi : i < answer.1
  · obtain ⟨v, hv, hshown⟩ := h.shown i hi
    obtain ⟨w, hw, hshown'⟩ := h'.shown i (hn ▸ hi)
    rw [hv] at hw
    cases hw
    rw [hshown, hshown']
  · rw [h.kept i (Nat.le_of_not_lt hi), h'.kept i (hn ▸ Nat.le_of_not_lt hi)]

theorem fst_le (h : Window items offset slots answer) : answer.1 ≤ items.length - offset := by
  cases hn : answer.1 with
  | zero => exact Nat.zero_le _
  | succ n =>
    obtain ⟨v, hv, -⟩ := h.shown n (by omega)
    obtain ⟨hlt, -⟩ := List.getElem?_eq_some_iff.1 hv
    omega

variable {xs ys : List α} {m k : Nat} {filled rest : List α}

theorem append_of_full (hx : Window items offset xs (xs.length, filled))
    (hy : Window items (offset + xs.length) ys (k, rest)) :
    Window items offset (xs ++ ys) (xs.length + k, filled ++ rest) := by
  have hlength : filled.length = xs.length := hx.length
  refine ⟨fun i hi => ?_, fun i hi => ?_, ?_, fun hlt => ?_⟩
  · by_cases hix : i < xs.length
    · obtain ⟨v, hv, hshown⟩ := hx.shown i hix
      exact ⟨v, hv, by rw [List.getElem?_append_left (by omega)]; exact hshown⟩
    · obtain ⟨v, hv, hshown⟩ := hy.shown (i - xs.length) (by simp only at hi ⊢; omega)
      refine ⟨v, ?_, ?_⟩
      · rwa [Nat.add_assoc, Nat.add_sub_cancel' (Nat.le_of_not_lt hix)] at hv
      · rwa [List.getElem?_append_right (by omega), hlength]
  · have hkept := hy.kept (i - xs.length) (by simp only at hi ⊢; omega)
    simp only at hi hkept ⊢
    rw [List.getElem?_append_right (by omega), List.getElem?_append_right (by omega), hlength,
      hkept]
  · have hroom := hy.room
    simp only [List.length_append] at hroom ⊢
    omega
  · simp only [List.length_append] at hlt
    rw [← Nat.add_assoc]
    exact hy.ends (by simp only; omega)

theorem append_of_not_full (hx : Window items offset xs (m, filled)) (hm : m ≠ xs.length)
    (ys : List α) : Window items offset (xs ++ ys) (m, filled ++ ys) := by
  have hlength : filled.length = xs.length := hx.length
  have hroom : m ≤ xs.length := hx.room
  refine ⟨fun i hi => ?_, fun i hi => ?_, ?_, fun _ => hx.ends (by simp only; omega)⟩
  · obtain ⟨v, hv, hshown⟩ := hx.shown i hi
    simp only at hi
    exact ⟨v, hv, by rw [List.getElem?_append_left (by omega)]; exact hshown⟩
  · have hkept := hx.kept i hi
    simp only at hkept ⊢
    rw [List.getElem?_append, List.getElem?_append, hlength, hkept]
  · simp only [List.length_append]
    omega

end Window

/-- Where every read is a window onto the same items, a read into slots behind each other is a read
into the first of them and, if that fills them, one into the others. -/
theorem read_append {read : Nat → List α → Nat × List α}
    (h : ∀ offset slots, Window items offset slots (read offset slots)) (offset : Nat)
    (xs ys : List α) :
    read offset (xs ++ ys) =
      let (m, filled) := read offset xs
      if m = xs.length then
        let (k, rest) := read (offset + xs.length) ys
        (m + k, filled ++ rest)
      else (m, filled ++ ys) := by
  obtain ⟨m, filled, hx⟩ : ∃ m filled, read offset xs = (m, filled) := ⟨_, _, rfl⟩
  obtain ⟨k, rest, hy⟩ : ∃ k rest, read (offset + xs.length) ys = (k, rest) := ⟨_, _, rfl⟩
  have hwx := h offset xs
  have hwy := h (offset + xs.length) ys
  rw [hx] at hwx
  rw [hy] at hwy
  simp only [hx, hy]
  split
  · next hm =>
    subst hm
    exact (h offset _).unique (hwx.append_of_full hwy)
  · next hm => exact (h offset _).unique (hwx.append_of_not_full hm ys)

theorem window_of_stop (h : items[offset]?.join = none) : Window items offset slots (0, slots) where
  shown _ hi := absurd hi (Nat.not_lt_zero _)
  kept _ _ := rfl
  room := Nat.zero_le _
  ends _ := h

theorem window_no_slots (items : List (Option α)) (offset : Nat) :
    Window items offset [] (0, []) where
  shown _ hi := absurd hi (Nat.not_lt_zero _)
  kept _ _ := rfl
  room := Nat.le_refl _
  ends h := absurd h (Nat.not_lt_zero _)

theorem window_nothing (offset : Nat) (slots : List α) : Window [] offset slots (0, slots) :=
  window_of_stop rfl

theorem Window.cons (h : Window items 0 slots answer) (v slot : α) :
    Window (some v :: items) 0 (slot :: slots) (answer.1 + 1, v :: answer.2) := by
  refine ⟨fun i hi => ?_, fun i hi => ?_, Nat.succ_le_succ h.room, fun hlt => ?_⟩
  · cases i with
    | zero => exact ⟨v, rfl, rfl⟩
    | succ i =>
      obtain ⟨w, hw, hshown⟩ := h.shown i (Nat.lt_of_succ_lt_succ hi)
      rw [Nat.zero_add] at hw ⊢
      exact ⟨w, hw, hshown⟩
  · cases i with
    | zero => exact absurd hi (Nat.not_succ_le_zero _)
    | succ i => exact h.kept i (Nat.le_of_succ_le_succ hi)
  · have hend := h.ends (Nat.lt_of_succ_lt_succ hlt)
    rw [Nat.zero_add] at hend ⊢
    exact hend

theorem Window.of_drop (h : Window (items.drop offset) 0 slots answer) :
    Window items offset slots answer := by
  have hget (i : Nat) : (items.drop offset)[0 + i]? = items[offset + i]? := by
    rw [List.getElem?_drop, Nat.zero_add]
  refine ⟨fun i hi => ?_, h.kept, h.room, fun hlt => ?_⟩
  · rw [← hget]
    exact h.shown i hi
  · rw [← hget]
    exact h.ends hlt

theorem store_cons (slot : α) (slots : List α) (i : Nat) (item : Option α) :
    store (slot :: slots) (i + 1) item =
      ((store slots i item).1, slot :: (store slots i item).2) := by
  cases item with
  | none => rfl
  | some v =>
    by_cases hi : i < slots.length <;> simp [store, hi]

theorem fillFrom_cons (slot : α) (slots : List α) (i : Nat) (items : List (Option α)) :
    fillFrom (i + 1) items (slot :: slots) =
      ((fillFrom i items slots).1 + 1, slot :: (fillFrom i items slots).2) := by
  induction items generalizing i slots with
  | nil => rfl
  | cons item items ih =>
    obtain ⟨stored, behind, hs⟩ : ∃ stored behind, store slots i item = (stored, behind) :=
      ⟨_, _, rfl⟩
    rw [fillFrom, fillFrom, store_cons, hs]
    cases stored with
    | true => exact ih behind (i + 1)
    | false => rfl

@[simp] theorem fill_none (items : List (Option α)) (slots : List α) :
    fill (none :: items) slots = (0, slots) := rfl

@[simp] theorem fill_no_slots (items : List (Option α)) : fill items [] = (0, []) := by
  cases items with
  | nil => rfl
  | cons item items => cases item <;> rfl

@[simp] theorem fill_cons (v : α) (items : List (Option α)) (slot : α) (slots : List α) :
    fill (some v :: items) (slot :: slots) =
      ((fill items slots).1 + 1, v :: (fill items slots).2) := fillFrom_cons v slots 0 items

theorem window_fill (items : List (Option α)) (slots : List α) :
    Window items 0 slots (fill items slots) := by
  induction items generalizing slots with
  | nil => exact window_nothing 0 slots
  | cons item items ih =>
    cases slots with
    | nil =>
      rw [fill_no_slots]
      exact window_no_slots _ 0
    | cons slot slots =>
      cases item with
      | none => exact window_of_stop rfl
      | some v =>
        rw [fill_cons]
        exact (ih slots).cons v slot

theorem window_copyEach (source slots : List α) :
    Window (source.map some) 0 slots (copyEach source slots) := by
  induction source generalizing slots with
  | nil => exact window_nothing 0 slots
  | cons v source ih =>
    cases slots with
    | nil => exact window_no_slots _ 0
    | cons slot slots => exact (ih slots).cons v slot

theorem copyBlock_eq_copyEach (source slots : List α) :
    copyBlock source slots = copyEach source slots := by
  induction source generalizing slots with
  | nil => simp [copyBlock, copyEach]
  | cons v source ih =>
    cases slots with
    | nil => simp [copyBlock, copyEach]
    | cons slot slots =>
      rw [copyEach, ← ih]
      simp [copyBlock, Nat.succ_min_succ]

theorem counted_store (slots : List α) (item : Option α) :
    counted (store slots 0 item) = fill [item] slots := by
  obtain ⟨stored, behind, hs⟩ : ∃ stored behind, store slots 0 item = (stored, behind) :=
    ⟨_, _, rfl⟩
  rw [fill, fillFrom, hs]
  cases stored <;> rfl

theorem window_single (item : Option α) (offset : Nat) (slots : List α) :
    Window [item] offset slots
      (if offset = 0 then counted (store slots 0 item) else (0, slots)) := by
  split
  · next h =>
    subst h
    rw [counted_store]
    exact window_fill [item] slots
  · next h =>
    exact window_of_stop (by rw [List.getElem?_eq_none (Nat.one_le_iff_ne_zero.2 h)]; rfl)

end AttributeTrees.Span
