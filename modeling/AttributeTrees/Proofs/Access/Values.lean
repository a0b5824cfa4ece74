import AttributeTrees.Content
import AttributeTrees.Proofs.Document.Windows
/-!
# The first value and all values

The first value of a node is read into one slot, all its values into as many slots as it says that
it has. Main statement: whatever a tree is made of, what has no values has no first one, and where
values are no bytes the first is the first of all.
-/
namespace AttributeTrees

namespace Span

variable {α : Type}

theorem Window.head? {items : List (Option α)} {slots : List α} {answer : Nat × List α}
    (h : Window items 0 slots answer) (hslots : slots ≠ []) :
    (answer.2.take answer.1).head? = items.head?.join := by
  rw [h.unique (window_fill items slots)]
  obtain ⟨slot, slots, rfl⟩ := List.exists_cons_of_ne_nil hslots
  cases items with
  | nil => rfl
  | cons item items => cases item <;> simp

theorem Window.head?_one {items : List (Option α)} {slot : α} {answer : Nat × List α}
    (h : Window items 0 [slot] answer) :
    (if answer.1 = 1 then answer.2.head? else none) = items.head?.join := by
  rw [h.unique (window_fill items [slot])]
  cases items with
  | nil => rfl
  | cons item items => cases item <;> simp

end Span

namespace Access

variable {ν μ : Type}

theorem run_first (a : Access Id ν) (n : ν) (t : Element) : (a.first n t).run =
    let r := (a.fetch n 0 t [t.default]).run
    if r.1 = 1 then r.2.head? else none := rfl

theorem run_all (a : Access Id ν) (n : ν) (t : Element) : (a.all n t).run =
    let r := (a.fetch n 0 t (List.replicate (a.valueCount n).run t.default)).run
    r.2.take r.1 := rfl

/-- The first value of a node goes together with all of them. -/
structure Agreed (a : Access Id ν) : Prop where
  none : ∀ n t, (a.valueCount n).run = 0 → (a.first n t).run = none
  head : ∀ n t, (a.kind n).run ≠ .byte → (a.all n t).run.head? = (a.first n t).run

theorem Agreed.disguise {a : Access Id ν} (h : a.Agreed) (put : ν → μ) (take? : μ → Option ν) :
    (a.disguise put take?).Agreed where
  none x t := by
    have hn := h.none
    simp only [Access.disguise, first, value] at hn ⊢
    cases take? x with
    | none => exact fun _ => rfl
    | some n => exact hn n t
  head x t := by
    have hn := h.head
    simp only [Access.disguise, first, value, all] at hn ⊢
    cases take? x with
    | none => exact fun _ => rfl
    | some n => exact hn n t

end Access

namespace Document

variable {δ : Type} {f : Form δ} {values : δ → (t : Element) → List (Option t.Value)}

theorem valuesAt_of_valueCount (hf : ∀ v t, f.valueCount v = 0 → values v t = [])
    {document : δ} {place : Place} (h : ((access f document).valueCount place).run = 0)
    (t : Element) : valuesAt f values document place t = [] := by
  change ((at? f document place).map f.valueCount).getD 0 = 0 at h
  rw [valuesAt]
  cases hv : at? f document place with
  | none => rfl
  | some v => exact hf v t (by simpa [hv] using h)

theorem agreed_access
    (hw : ∀ v offset t slots, Span.Window (values v t) offset slots (f.fetch v offset t slots))
    (hf : ∀ v t, f.valueCount v = 0 → values v t = []) (document : δ) :
    (access f document).Agreed where
  none place t h := by
    have hone := window_fetch hw document place 0 t [t.default]
    rw [valuesAt_of_valueCount hf h] at hone
    exact hone.head?_one
  head place t _ := by
    have hone := window_fetch hw document place 0 t [t.default]
    have hall := window_fetch hw document place 0 t
      (List.replicate ((access f document).valueCount place).run t.default)
    rw [Access.run_first, Access.run_all]
    refine Eq.trans ?_ hone.head?_one.symm
    cases hcount : ((access f document).valueCount place).run with
    | zero =>
      rw [hcount] at hall
      have hzero : (fetch f document place 0 t (List.replicate 0 t.default)).1 = 0 :=
        Nat.le_zero.1 hall.room
      rw [valuesAt_of_valueCount hf hcount]
      change (List.take (fetch f document place 0 t _).1 _).head? = _
      rw [hzero]
      rfl
    | succ k =>
      rw [hcount] at hall
      exact hall.head? (List.cons_ne_nil _ _)

end Document

namespace Disk

theorem fetchFile_nil (t : Element) : (Node.fetchFile [] 0 t [t.default]).1 = 0 := by
  have hunits : Text.Utf8.decodeLossy [] = [] := by simp [Text.Utf8.decodeLossy]
  have hword : Node.word? [] = none := by simp [Node.word?, hunits, Text.firstWord?, Text.trimLeft]
  cases t with
  | char => simp [Node.fetchFile, Node.characters, hunits, Span.copyEach]
  | int type => cases type <;> simp [Node.fetchFile, hword, Span.copyBlock]
  | _ => simp [Node.fetchFile, hword]

theorem agreed_access (d : Disk) : (access d).Agreed where
  none n t h := by
    have hcount : ((d.read? n.real).map List.length).getD 0 = 0 := h
    rw [Access.run_first]
    change (if (n.fetch d 0 t [t.default]).1 = 1 then _ else _) = _
    cases hr : d.read? n.real with
    | none => simp [Node.fetch, hr]
    | some content =>
      have hnil : content = [] := by simpa [hr] using hcount
      subst hnil
      simp [Node.fetch, hr, fetchFile_nil]
  head _ _ h := absurd rfl h

end Disk

theorem Sketch.window_fetch (s : Sketch) (offset : Nat) (t : Element) (slots : List t.Value) :
    Span.Window (s.values.map t.read?) offset slots (form.fetch s offset t slots) := by
  refine Span.Window.of_drop ?_
  rw [← List.map_drop]
  exact Span.window_fill _ slots

theorem Content.agreed_access (c : Content) (d : Disk) : (c.access d).Agreed := by
  cases c with
  | json document =>
    exact (Document.agreed_access Json.Value.window_fetch
      (fun _ t h => Json.Value.values_of_valueCount h t) _).disguise ..
  | yaml document =>
    exact (Document.agreed_access Yaml.Node.window_fetch
      (fun _ t h => Yaml.Node.values_of_valueCount h t) _).disguise ..
  | sketch root =>
    refine (Document.agreed_access Sketch.window_fetch (fun s t h => ?_) _).disguise ..
    have hnil : s.values = [] := List.eq_nil_of_length_eq_zero h
    simp [hnil]
  | files path => exact (Disk.agreed_access d).disguise ..
  | empty => exact ⟨fun _ _ _ => rfl, fun _ _ _ => rfl⟩

end AttributeTrees
