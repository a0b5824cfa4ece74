import AttributeTrees.Proofs.Numeral
import AttributeTrees.Proofs.Text.Quoted
import AttributeTrees.Run
/-!
# Runs as they are shown

Truth values and whole numbers are shown by words without a comma, and a quoted text ends where its
quotation marks do. So the values of a run can be told from the line that shows it. The words of
floating-point numbers do not tell how they are held.
-/
namespace AttributeTrees.Run

open Text (append_inj_of_not_mem)

def IsPlain : Run → Prop
  | float _ | double _ => False
  | _ => True

def separator : List Char := [',', ' ']

def Stops (rest : List Char) : Prop := rest = [] ∨ rest.head? = some ','

theorem stops_flatMap (pieces : List (List Char)) : Stops (pieces.flatMap (separator ++ ·)) := by
  cases pieces with
  | nil => exact .inl rfl
  | cons a pieces => exact .inr rfl

theorem intercalate_cons (a : List Char) (pieces : List (List Char)) :
    separator.intercalate (a :: pieces) = a ++ pieces.flatMap (separator ++ ·) := by
  induction pieces generalizing a with
  | nil => simp
  | cons b pieces ih => rw [List.intercalate_cons_cons, ih, List.flatMap_cons]; simp

/-- Pieces of which none is empty and none goes on in what may follow another. -/
structure Separate (P : List Char → Prop) : Prop where
  ne_nil : ∀ a, P a → a ≠ []
  append_inj : ∀ a b, P a → P b → ∀ us vs, Stops us → Stops vs → a ++ us = b ++ vs → a = b ∧ us = vs

section
variable {P : List Char → Prop} (hP : Separate P) {as bs : List (List Char)}
include hP

theorem Separate.flatMap_inj (ha : ∀ a ∈ as, P a) (hb : ∀ b ∈ bs, P b)
    (h : as.flatMap (separator ++ ·) = bs.flatMap (separator ++ ·)) : as = bs := by
  induction as generalizing bs with
  | nil =>
    cases bs with
    | nil => rfl
    | cons b bs => cases h
  | cons a as ih =>
    obtain ⟨ha, has⟩ := List.forall_mem_cons.1 ha
    cases bs with
    | nil => cases h
    | cons b bs =>
      obtain ⟨hb, hbs⟩ := List.forall_mem_cons.1 hb
      simp only [List.flatMap_cons, List.append_assoc] at h
      obtain ⟨rfl, hrest⟩ := hP.append_inj a b ha hb _ _ (stops_flatMap as) (stops_flatMap bs)
        (List.append_cancel_left h)
      rw [ih has hbs hrest]

theorem Separate.intercalate_inj (ha : ∀ a ∈ as, P a) (hb : ∀ b ∈ bs, P b)
    (h : separator.intercalate as = separator.intercalate bs) : as = bs := by
  cases as with
  | nil =>
    cases bs with
    | nil => rfl
    | cons b bs =>
      rw [intercalate_cons] at h
      exact absurd (List.append_eq_nil_iff.1 h.symm).1 (hP.ne_nil b (hb b List.mem_cons_self))
  | cons a as =>
    obtain ⟨ha, has⟩ := List.forall_mem_cons.1 ha
    cases bs with
    | nil =>
      rw [intercalate_cons] at h
      exact absurd (List.append_eq_nil_iff.1 h).1 (hP.ne_nil a ha)
    | cons b bs =>
      obtain ⟨hb, hbs⟩ := List.forall_mem_cons.1 hb
      rw [intercalate_cons, intercalate_cons] at h
      obtain ⟨rfl, hrest⟩ :=
        hP.append_inj a b ha hb _ _ (stops_flatMap as) (stops_flatMap bs) h
      rw [hP.flatMap_inj has hbs hrest]

end

def IsWord (a : List Char) : Prop := a ≠ [] ∧ ',' ∉ a

theorem separate_isWord : Separate IsWord where
  ne_nil _ h := h.1
  append_inj _ _ ha hb _ _ hu hv h := append_inj_of_not_mem ha.2 hb.2 hu hv h

theorem separate_quoted : Separate fun a => ∃ s, a = Text.Quoted.encode '"' s where
  ne_nil := by rintro _ ⟨s, rfl⟩; exact List.cons_ne_nil _ _
  append_inj := by
    rintro _ _ ⟨s, rfl⟩ ⟨t, rfl⟩ us vs - - h
    obtain ⟨rfl, hrest⟩ := Text.Quoted.encode_append_inj h
    exact ⟨rfl, hrest⟩

theorem isWord_boolText (b : Bool) : IsWord (boolText b).toList := by
  cases b <;> exact ⟨by decide, by decide⟩

theorem isWord_toString (n : Int) : IsWord (toString n).toList := by
  refine ⟨fun h => ?_, fun h => ?_⟩
  · have hn := Numeral.signed?_toString n
    rw [h] at hn
    cases hn
  · rcases Numeral.isDigit_of_mem_toString h with h | h <;> exact absurd h (by decide)

def pieces : Run → List (List Char)
  | string values => values.map fun s => Text.Quoted.encode '"' s.toList
  | r => r.texts.map String.toList

theorem toList_display (r : Run) : r.display.toList = separator.intercalate r.pieces := by
  cases r with
  | string values =>
    have hquoted : (values.map Text.Quoted.string).map String.toList = (string values).pieces := by
      rw [List.map_map]
      exact List.map_congr_left fun s _ => String.toList_ofList
    rw [display, String.toList_intercalate, hquoted]
    rfl
  | _ => exact String.toList_intercalate

theorem words_injective {α : Type} (word : α → String) (hword : ∀ a, IsWord (word a).toList)
    (hinj : ∀ a b, word a = word b → a = b) {xs ys : List α}
    (h : separator.intercalate ((xs.map word).map String.toList) =
      separator.intercalate ((ys.map word).map String.toList)) : xs = ys := by
  have all (zs : List α) : ∀ a ∈ (zs.map word).map String.toList, IsWord a := by
    simpa using fun a _ => hword a
  have hwords := separate_isWord.intercalate_inj (all xs) (all ys) h
  rw [List.map_map, List.map_map] at hwords
  exact (List.map_inj_right fun a b hab => hinj a b (String.toList_inj.1 hab)).1 hwords

theorem nulls_injective {m n : Nat}
    (h : separator.intercalate ((List.replicate m "null").map String.toList) =
      separator.intercalate ((List.replicate n "null").map String.toList)) : m = n := by
  have hnull (k : Nat) : ∀ a ∈ (List.replicate k "null").map String.toList, IsWord a := by
    simp [IsWord]
  have hlength := congrArg List.length (separate_isWord.intercalate_inj (hnull m) (hnull n) h)
  simpa using hlength

theorem wholes_injective {t : IntType} {xs ys : List t.Value}
    (h : separator.intercalate ((xs.map fun v => toString v.val).map String.toList) =
      separator.intercalate ((ys.map fun v => toString v.val).map String.toList)) : xs = ys := by
  refine words_injective _ (fun v => isWord_toString v.val) (fun v w hvw => Subtype.ext ?_) h
  have hv := Numeral.signed?_toString v.val
  rw [hvw, Numeral.signed?_toString] at hv
  exact (Option.some.inj hv).symm

theorem quoted_injective {xs ys : List String}
    (h : separator.intercalate (xs.map fun s => Text.Quoted.encode '"' s.toList) =
      separator.intercalate (ys.map fun s => Text.Quoted.encode '"' s.toList)) : xs = ys := by
  have hquoted (zs : List String) :
      ∀ a ∈ zs.map fun s => Text.Quoted.encode '"' s.toList, ∃ s, a = Text.Quoted.encode '"' s :=
    List.forall_mem_map.2 fun s _ => ⟨s.toList, rfl⟩
  have hlists := separate_quoted.intercalate_inj (hquoted xs) (hquoted ys) h
  refine (List.map_inj_right fun s t hst => ?_).1 hlists
  exact String.toList_inj.1
    (Text.Quoted.encode_append_inj (congrArg (· ++ []) hst)).1

theorem pieces_injective {r q : Run} (hr : r.IsPlain) (hs : r.sortName = q.sortName)
    (h : separator.intercalate r.pieces = separator.intercalate q.pieces) : r = q := by
  cases r with
  | nil m =>
    cases q with
    | nil n => rw [nulls_injective h]
    | _ => simp [sortName] at hs
  | bool xs =>
    cases q with
    | bool ys => rw [words_injective boolText isWord_boolText (by decide) h]
    | _ => simp [sortName] at hs
  | int xs =>
    cases q with
    | int ys => rw [wholes_injective h]
    | _ => simp [sortName] at hs
  | uint xs =>
    cases q with
    | uint ys => rw [wholes_injective h]
    | _ => simp [sortName] at hs
  | string xs =>
    cases q with
    | string ys => rw [quoted_injective h]
    | _ => simp [sortName] at hs
  | float _ | double _ => exact hr.elim

def line (r : Run) : List Char := r.sortName.toList ++ ':' :: ' ' :: r.display.toList

theorem line_injective {r q : Run} (hr : r.IsPlain) (h : r.line = q.line) : r = q := by
  have hcolon (p : Run) : ':' ∉ p.sortName.toList := by cases p <;> simp [sortName]
  obtain ⟨hs, hd⟩ := append_inj_of_not_mem (hcolon r) (hcolon q) (.inr rfl) (.inr rfl) h
  refine pieces_injective hr (String.toList_inj.1 hs) ?_
  rw [← toList_display, ← toList_display]
  exact (List.cons.inj (List.cons.inj hd).2).2

theorem colon_mem_line (r : Run) : ':' ∈ r.line := by
  simp [line]

theorem head?_line (r : Run) : r.line.head? ≠ some '"' ∧ r.line.head? ≠ some ' ' := by
  cases r <;> simp [line, sortName]

theorem newline_not_mem_piece {r : Run} (hr : r.IsPlain) : ∀ a ∈ r.pieces, '\n' ∉ a := by
  have hwhole (n : Int) : '\n' ∉ (toString n).toList := fun h => by
    rcases Numeral.isDigit_of_mem_toString h with h | h <;> exact absurd h (by decide)
  cases r with
  | nil count => simp [pieces, texts]
  | bool values =>
    have hbool (b : Bool) : '\n' ∉ (boolText b).toList := by cases b <;> decide
    exact List.forall_mem_map.2 (List.forall_mem_map.2 fun b _ => hbool b)
  | int values | uint values =>
    exact List.forall_mem_map.2 (List.forall_mem_map.2 fun v _ => hwhole v.val)
  | string values =>
    exact List.forall_mem_map.2 fun s _ => Text.Quoted.newline_not_mem_encode s.toList
  | float _ | double _ => exact hr.elim

theorem newline_not_mem_line {r : Run} (hr : r.IsPlain) : '\n' ∉ r.line := by
  have hsort : '\n' ∉ r.sortName.toList := by cases r <;> simp [sortName]
  have hdisplay : '\n' ∉ r.display.toList := by
    rw [toList_display]
    have hp := newline_not_mem_piece hr
    cases hpieces : r.pieces with
    | nil => exact List.not_mem_nil
    | cons a rest =>
      rw [hpieces] at hp
      obtain ⟨ha, hrest⟩ := List.forall_mem_cons.1 hp
      rw [intercalate_cons]
      simpa [separator, ha] using hrest
  simp [line, hsort, hdisplay]

end AttributeTrees.Run
