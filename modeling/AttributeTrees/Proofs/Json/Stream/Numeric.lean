import AttributeTrees.Json.Stream.Token
import AttributeTrees.Proofs.Numeral
/-!
# How numbers read

A text reads as a whole number if it is one that fits, without a sign or behind a minus, and as the
double nearest to it otherwise. Main statement: numbers are read by this rule.
-/
namespace AttributeTrees.Json.Stream

def Whole (text : List Char) : Prop :=
  (∃ k, Numeral.digits? 10 text = some k ∧ (k : Int) ≤ IntType.nat64.high) ∨
    ∃ digits k, text = '-' :: digits ∧ Numeral.digits? 10 digits = some k ∧
      IntType.int64.low ≤ -(k : Int)

/-- How a text reads as a number. -/
inductive Numeric : List Char → Number → Prop where
  | uint {text : List Char} {n : IntType.nat64.Value} {k : Nat} :
    Numeral.digits? 10 text = some k → n.val = k → Numeric text (.uint n)
  | int {digits : List Char} {n : IntType.int64.Value} {k : Nat} :
    Numeral.digits? 10 digits = some k → n.val = -(k : Int) → Numeric ('-' :: digits) (.int n)
  | float {text : List Char} {x : Float} :
    ¬ Whole text → Decimal.readFloat? text = some x → x.isFinite = true → Numeric text (.float x)

theorem ofInt?_eq_some_iff {t : IntType} {i : Int} {n : t.Value} :
    t.ofInt? i = some n ↔ n.val = i := by
  constructor
  · intro h
    unfold IntType.ofInt? at h
    split at h <;> cases h
    rfl
  · rintro rfl
    exact t.ofInt?_val n

theorem unsigned_eq_some_iff {text : List Char} {n : IntType.nat64.Value}
    (hp : text.head? ≠ some '+') :
    IntType.nat64.ofText? text = some n ↔
      ∃ k : Nat, Numeral.digits? 10 text = some k ∧ n.val = k := by
  have h : IntType.nat64.ofText? text =
      (Numeral.unsigned? 10 text).bind fun k => IntType.nat64.ofInt? k := rfl
  simp only [h, Numeral.unsigned?_eq_digits? hp, Option.bind_eq_some_iff, ofInt?_eq_some_iff]

theorem signed_eq_some_iff {digits : List Char} {n : IntType.int64.Value} :
    IntType.int64.ofText? ('-' :: digits) = some n ↔
      ∃ k : Nat, Numeral.digits? 10 digits = some k ∧ n.val = -(k : Int) := by
  have h : IntType.int64.ofText? ('-' :: digits) =
      ((Numeral.digits? 10 digits).map fun n => -(n : Int)).bind IntType.int64.ofInt? := rfl
  rw [h]
  cases Numeral.digits? 10 digits <;> simp [ofInt?_eq_some_iff]

theorem whole_iff {text : List Char} (hp : text.head? ≠ some '+') :
    Whole text ↔ if text.head? = some '-' then ∃ n, IntType.int64.ofText? text = some n
      else ∃ n, IntType.nat64.ofText? text = some n := by
  have fits {k : Nat} (hk : (k : Int) ≤ IntType.nat64.high) :
      ∃ n : IntType.nat64.Value, n.val = k :=
    ⟨⟨k, Int.natCast_nonneg k, hk⟩, rfl⟩
  have fits' {k : Nat} (hk : IntType.int64.low ≤ -(k : Int)) :
      ∃ n : IntType.int64.Value, n.val = -(k : Int) :=
    ⟨⟨-k, hk, by simp only [IntType.high]; omega⟩, rfl⟩
  split
  · next hm =>
    obtain ⟨digits, rfl⟩ : ∃ digits, text = '-' :: digits := List.head?_eq_some_iff.1 hm
    constructor
    · rintro (⟨k, hk, -⟩ | ⟨_, k, heq, hk, hl⟩)
      · rw [Numeral.digits?_minus] at hk
        cases hk
      · cases heq
        obtain ⟨n, hn⟩ := fits' hl
        exact ⟨n, signed_eq_some_iff.2 ⟨k, hk, hn⟩⟩
    · rintro ⟨n, hn⟩
      obtain ⟨k, hk, hn⟩ := signed_eq_some_iff.1 hn
      exact .inr ⟨digits, k, rfl, hk, hn ▸ n.property.1⟩
  · next hm =>
    constructor
    · rintro (⟨k, hk, hh⟩ | ⟨_, k, rfl, -⟩)
      · obtain ⟨n, hn⟩ := fits hh
        exact ⟨n, (unsigned_eq_some_iff hp).2 ⟨k, hk, hn⟩⟩
      · exact absurd rfl hm
    · rintro ⟨n, hn⟩
      obtain ⟨k, hk, hn⟩ := (unsigned_eq_some_iff hp).1 hn
      exact .inl ⟨k, hk, hn ▸ n.property.2⟩

theorem not_any_of_whole {text : List Char} (h : Whole text) :
    (text.any fun c => c = '.' || c = 'e' || c = 'E') = false := by
  have free {digits : List Char} {k : Nat} (hk : Numeral.digits? 10 digits = some k) :
      (digits.any fun c => c = '.' || c = 'e' || c = 'E') = false := by
    rw [List.any_eq_false]
    intro c hc
    have hd := Numeral.digitIn?_of_digits? hk hc
    have hne (x : Char) (hx : Numeral.digitIn? 10 x = none) : c ≠ x := by
      rintro rfl
      exact hd hx
    simp [hne '.' (by decide), hne 'e' (by decide), hne 'E' (by decide)]
  rcases h with ⟨k, hk, -⟩ | ⟨digits, k, rfl, hk, -⟩
  · exact free hk
  · rw [List.any_cons, free hk]
    decide

theorem numeric_uint_iff {text : List Char} {n : IntType.nat64.Value}
    (hp : text.head? ≠ some '+') : Numeric text (.uint n) ↔
      text.head? ≠ some '-' ∧ IntType.nat64.ofText? text = some n := by
  rw [unsigned_eq_some_iff hp]
  constructor
  · rintro (⟨hk, hn⟩ | _ | _)
    refine ⟨fun hm => ?_, _, hk, hn⟩
    obtain ⟨digits, rfl⟩ := List.head?_eq_some_iff.1 hm
    rw [Numeral.digits?_minus] at hk
    cases hk
  · rintro ⟨-, k, hk, hn⟩
    exact .uint hk hn

theorem numeric_int_iff {text : List Char} {n : IntType.int64.Value} : Numeric text (.int n) ↔
    text.head? = some '-' ∧ IntType.int64.ofText? text = some n := by
  constructor
  · rintro (_ | ⟨hk, hn⟩ | _)
    exact ⟨rfl, signed_eq_some_iff.2 ⟨_, hk, hn⟩⟩
  · rintro ⟨hm, h⟩
    obtain ⟨digits, rfl⟩ := List.head?_eq_some_iff.1 hm
    obtain ⟨k, hk, hn⟩ := signed_eq_some_iff.1 h
    exact .int hk hn

theorem numeric_float_iff {text : List Char} {x : Float} : Numeric text (.float x) ↔
    ¬ Whole text ∧ Decimal.readFloat? text = some x ∧ x.isFinite = true := by
  constructor
  · rintro (_ | _ | ⟨hw, hx, hf⟩)
    exact ⟨hw, hx, hf⟩
  · rintro ⟨hw, hx, hf⟩
    exact .float hw hx hf

theorem readNumber?_eq {text : List Char} (hp : text.head? ≠ some '+') :
    readNumber? text =
      (if text.head? = some '-' then (IntType.int64.ofText? text).map Number.int
        else (IntType.nat64.ofText? text).map Number.uint).or
      (((Decimal.readFloat? text).filter Float.isFinite).map Number.float) := by
  unfold readNumber?
  cases ha : text.any fun c => c = '.' || c = 'e' || c = 'E' with
  | false => by_cases hm : text.head? = some '-' <;> simp [hm]
  | true =>
    have hw : ¬ Whole text := fun hw => by simp [not_any_of_whole hw] at ha
    rw [whole_iff hp] at hw
    by_cases hm : text.head? = some '-'
    · simp only [hm, if_true, not_exists] at hw ⊢
      rw [Option.eq_none_iff_forall_ne_some.2 hw]
      rfl
    · simp only [hm, if_false, not_exists] at hw ⊢
      rw [Option.eq_none_iff_forall_ne_some.2 hw]
      rfl

theorem readNumber?_eq_some_iff {text : List Char} {n : Number} (hp : text.head? ≠ some '+') :
    readNumber? text = some n ↔ Numeric text n := by
  have hw := whole_iff hp
  rw [readNumber?_eq hp]
  by_cases hm : text.head? = some '-'
  · cases hi : IntType.int64.ofText? text <;> cases n <;>
      simp [numeric_uint_iff hp, numeric_int_iff, numeric_float_iff, hw, hm, hi]
  · cases hu : IntType.nat64.ofText? text <;> cases n <;>
      simp [numeric_uint_iff hp, numeric_int_iff, numeric_float_iff, hw, hm, hu]

end AttributeTrees.Json.Stream
