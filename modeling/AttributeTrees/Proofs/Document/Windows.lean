import AttributeTrees.Json.Tree
import AttributeTrees.Proofs.Span
import AttributeTrees.Yaml.Tree
/-!
# Values of documents as sequences

Whatever a node of a document is read as, its values are one sequence, and every way of fetching
them, item by item, as characters, as bytes or as a single value, shows a part of it. Main
statement: in JSON and YAML documents a fetch is a window onto the sequence of the node, so a longer
fetch is the fetches of its parts, and save for characters and bytes there are no more values than
the node says that it has.
-/
namespace AttributeTrees

open AttributeTrees.Span (Window)

namespace Json.Value

def textValues (s : String) : (t : Element) → List (Option t.Value)
  | .char => s.toList.map some
  | .int .byte => ((Text.Base64.decode? s.toList).getD []).map fun b => some (IntType.ofByte b)
  | t => [read? t (string s)]

/-- The values in order, with nothing where one does not convert: the items of an array, the values
of a text, none of null and of an object, and any other value itself. -/
def values : Value → (t : Element) → List (Option t.Value)
  | array items, t => items.map (read? t)
  | string s, t => textValues s t
  | null, _ | object _, _ => []
  | v, t => [read? t v]

theorem values_of_valueCount {v : Value} (h : v.valueCount = 0) (t : Element) :
    v.values t = [] := by
  cases v with
  | array items =>
    have hnil : items = [] := List.eq_nil_of_length_eq_zero h
    simp [values, hnil]
  | null => rfl
  | object members => rfl
  | _ => cases h

theorem length_values_le {t : Element} (hchar : t ≠ .char) (hbyte : t ≠ .int .byte) (v : Value) :
    (v.values t).length ≤ v.valueCount := by
  cases v with
  | array items => exact Nat.le_of_eq (List.length_map _)
  | string s =>
    have htext : textValues s t = [read? t (string s)] := by
      cases t with
      | char => exact absurd rfl hchar
      | int type => cases type <;> first | rfl | exact absurd rfl hbyte
      | _ => rfl
    rw [values, htext]
    exact Nat.le_refl 1
  | _ => exact Nat.le_refl _

theorem window_fetchText (s : String) (offset : Nat) (t : Element) (slots : List t.Value) :
    Window (textValues s t) offset slots (fetchText s offset t slots) := by
  have hsingle (u : Element) (slots : List u.Value) :=
    Span.window_single (read? u (string s)) offset slots
  cases t with
  | char =>
    refine Window.of_drop ?_
    rw [textValues, ← List.map_drop]
    exact Span.window_copyEach _ slots
  | int type =>
    cases type with
    | byte =>
      rw [textValues, fetchText]
      cases Text.Base64.decode? s.toList with
      | none => exact Span.window_nothing offset slots
      | some bytes =>
        refine Window.of_drop ?_
        have hcopy := Span.window_copyEach ((bytes.drop offset).map IntType.ofByte) slots
        rwa [List.map_map, List.map_drop, ← Span.copyBlock_eq_copyEach] at hcopy
    | _ => exact hsingle _ slots
  | _ => exact hsingle _ slots

theorem window_fetch (v : Value) (offset : Nat) (t : Element) (slots : List t.Value) :
    Window (v.values t) offset slots (v.fetch offset t slots) := by
  cases v with
  | array items =>
    refine Window.of_drop ?_
    rw [values, ← List.map_drop]
    exact Span.window_fill _ slots
  | string s => exact window_fetchText s offset t slots
  | null | object _ => exact Span.window_nothing offset slots
  | bool _ | whole _ | float _ => exact Span.window_single _ offset slots

end Json.Value

namespace Yaml.Node

def textValues (s : String) : (t : Element) → List (Option t.Value)
  | .char => s.toList.map some
  | t => [t.read? s]

def values : Node → (t : Element) → List (Option t.Value)
  | sequence items, t => items.map fun n => n.text?.bind t.read?
  | n, t => (n.text?.map (textValues · t)).getD []

theorem values_of_valueCount {n : Node} (h : n.valueCount = 0) (t : Element) :
    n.values t = [] := by
  cases n with
  | sequence items =>
    have hnil : items = [] := List.eq_nil_of_length_eq_zero h
    simp [values, hnil]
  | null | bad | mapping _ => rfl
  | _ => cases h

theorem length_textValues {t : Element} (hchar : t ≠ .char) (s : String) :
    (textValues s t).length = 1 := by
  cases t with
  | char => exact absurd rfl hchar
  | _ => rfl

theorem length_values_le {t : Element} (hchar : t ≠ .char) (n : Node) :
    (n.values t).length ≤ n.valueCount := by
  cases n with
  | sequence items => exact Nat.le_of_eq (List.length_map _)
  | null | bad | mapping _ => exact Nat.le_refl 0
  | bool _ | whole _ | real _ | string _ => exact Nat.le_of_eq (length_textValues hchar _)

theorem fillText_leadingTexts (t : Element) (items : List Node) (slots : List t.Value) :
    Span.fillText t (leadingTexts items) slots =
      Span.fill (items.map fun n => n.text?.bind t.read?) slots := by
  induction items generalizing slots with
  | nil => rfl
  | cons n items ih =>
    rw [leadingTexts, List.map_cons]
    cases n.text? with
    | none => rfl
    | some s =>
      rw [Option.bind_some, Span.fillText, List.map_cons]
      cases slots with
      | nil => rw [Span.fill_no_slots, Span.fill_no_slots]
      | cons slot slots =>
        cases t.read? s with
        | none => rfl
        | some v => rw [Span.fill_cons, Span.fill_cons, ← ih, Span.fillText]

theorem window_fetchText (s : String) (offset : Nat) (t : Element) (slots : List t.Value) :
    Window (textValues s t) offset slots (fetchText s offset t slots) := by
  cases t with
  | char =>
    refine Window.of_drop ?_
    rw [textValues, ← List.map_drop]
    exact Span.window_copyEach _ slots
  | _ => exact Span.window_single _ offset slots

theorem window_fetch (n : Node) (offset : Nat) (t : Element) (slots : List t.Value) :
    Window (n.values t) offset slots (n.fetch offset t slots) := by
  cases n with
  | sequence items =>
    refine Window.of_drop ?_
    rw [fetch, fillText_leadingTexts, values, ← List.map_drop]
    exact Span.window_fill _ slots
  | null | bad | mapping _ => exact Span.window_nothing offset slots
  | bool _ | whole _ | real _ | string _ => exact window_fetchText _ offset t slots

end Yaml.Node

namespace Document

variable {δ : Type}

def valuesAt (f : Form δ) (values : δ → (t : Element) → List (Option t.Value)) (document : δ)
    (place : Place) (t : Element) : List (Option t.Value) :=
  ((at? f document place).map (values · t)).getD []

/-- The values of a place are a sequence, from which every fetch reads. -/
structure ReadsFrom (a : Access Id Place) (place : Place)
    (values : (t : Element) → List (Option t.Value)) : Prop where
  window : ∀ offset t slots, Window (values t) offset slots (a.fetch place offset t slots).run
  parts : ∀ offset t (xs ys : List t.Value), (a.fetch place offset t (xs ++ ys)).run =
    let (m, filled) := (a.fetch place offset t xs).run
    if m = xs.length then
      let (k, rest) := (a.fetch place (offset + xs.length) t ys).run
      (m + k, filled ++ rest)
    else (m, filled ++ ys)
  count : ∀ offset t slots, t ≠ .char → t ≠ .int .byte →
    (a.fetch place offset t slots).run.1 ≤ (a.valueCount place).run - offset

theorem window_fetch {f : Form δ} {values : δ → (t : Element) → List (Option t.Value)}
    (hw : ∀ v offset t slots, Window (values v t) offset slots (f.fetch v offset t slots))
    (document : δ) (place : Place) (offset : Nat) (t : Element) (slots : List t.Value) :
    Window (valuesAt f values document place t) offset slots
      (fetch f document place offset t slots) := by
  rw [valuesAt, fetch]
  cases at? f document place with
  | none => exact Span.window_nothing offset slots
  | some v => exact hw v offset t slots

theorem readsFrom_access {f : Form δ} {values : δ → (t : Element) → List (Option t.Value)}
    (hw : ∀ v offset t slots, Window (values v t) offset slots (f.fetch v offset t slots))
    (hc : ∀ v t, t ≠ .char → t ≠ .int .byte → (values v t).length ≤ f.valueCount v)
    (document : δ) (place : Place) :
    ReadsFrom (access f document) place (valuesAt f values document place) where
  window := window_fetch hw document place
  parts offset t := Span.read_append (window_fetch hw document place · t) offset
  count offset t slots hchar hbyte := by
    have hlength : (valuesAt f values document place t).length ≤
        ((access f document).valueCount place).run := by
      change _ ≤ ((at? f document place).map f.valueCount).getD 0
      rw [valuesAt]
      cases at? f document place with
      | none => exact Nat.le_refl 0
      | some v => exact hc v t hchar hbyte
    exact Nat.le_trans (window_fetch hw document place offset t slots).fst_le
      (Nat.sub_le_sub_right hlength offset)

/-- Every node of a JSON or YAML document has one sequence of values of each type, and every fetch
is a window onto it. -/
theorem fetch_reads_from_values :
    (∀ (document : Json.Value) (place : Place),
      ReadsFrom (access Json.Value.form document) place
        (valuesAt Json.Value.form Json.Value.values document place)) ∧
    ∀ (document : Yaml.Node) (place : Place),
      ReadsFrom (access Yaml.Node.form document) place
        (valuesAt Yaml.Node.form Yaml.Node.values document place) :=
  ⟨readsFrom_access Json.Value.window_fetch fun v _ hchar hbyte =>
      Json.Value.length_values_le hchar hbyte v,
    readsFrom_access Yaml.Node.window_fetch fun n _ hchar _ => Yaml.Node.length_values_le hchar n⟩

example : Json.Value.fetch (.array [.bool true, .bool false, .null, .bool false]) 1 .bool
    [true, true, true] = (1, [false, true, true]) := rfl

end Document

end AttributeTrees
