import AttributeTrees.Numeral
/-!
# Reading whole numerals

What a numeral consists of, and that the decimal text of an index reads as that index.
-/
namespace AttributeTrees.Numeral

theorem digitIn?_of_digitsFrom? {base value n : Nat} {text : List Char} {c : Char}
    (h : digitsFrom? base value text = some n) (hc : c ∈ text) :
    digitIn? base c ≠ none := by
  induction text generalizing value with
  | nil => cases hc
  | cons d text ih =>
    obtain ⟨digit, hd, hrest⟩ := Option.bind_eq_some_iff.1 h
    rcases List.mem_cons.1 hc with rfl | hc
    · rw [hd]
      nofun
    · exact ih hrest hc

theorem digitIn?_of_digits? {text : List Char} {n : Nat} {c : Char}
    (h : digits? 10 text = some n) (hc : c ∈ text) : digitIn? 10 c ≠ none := by
  unfold digits? at h
  split at h
  · cases h
  · exact digitIn?_of_digitsFrom? h hc

theorem digits?_minus (digits : List Char) : digits? 10 ('-' :: digits) = none := by
  cases h : digits? 10 ('-' :: digits) with
  | none => rfl
  | some n => exact absurd (by decide) (digitIn?_of_digits? h (List.mem_cons_self (a := '-')))

theorem unsigned?_eq_digits? {text : List Char} (hp : text.head? ≠ some '+') :
    unsigned? 10 text = digits? 10 text := by
  unfold unsigned?
  split
  · exact absurd rfl hp
  · rfl

theorem digitIn?_of_isDigit {c : Char} (h : c.isDigit = true) :
    digitIn? 10 c = some (c.toNat - '0'.toNat) := by
  have hc : '0' ≤ c ∧ c ≤ '9' := by
    rw [Char.isDigit_iff_toNat] at h
    exact h
  have hv : c.toNat - 48 < 10 := by
    have hn : c.toNat ≤ 57 := hc.2
    omega
  simp [digitIn?, hc, hv]

theorem digitsFrom?_of_isDigit {text : List Char} (h : ∀ c ∈ text, c.isDigit = true)
    (value : Nat) : digitsFrom? 10 value text = some (Nat.ofDigitChars 10 text value) := by
  induction text generalizing value with
  | nil => simp [digitsFrom?]
  | cons c text ih =>
    obtain ⟨hc, ht⟩ := List.forall_mem_cons.1 h
    rw [digitsFrom?, digitIn?_of_isDigit hc, Nat.ofDigitChars_cons, Nat.mul_comm 10]
    exact ih ht _

theorem digits?_toDigits (n : Nat) : digits? 10 (Nat.toDigits 10 n) = some n := by
  have hd : ∀ c ∈ Nat.toDigits 10 n, c.isDigit = true :=
    fun c hc => Nat.isDigit_of_mem_toDigits (by decide) (by decide) hc
  rw [digits?, if_neg (by simp [Nat.toDigits_ne_nil]), digitsFrom?_of_isDigit hd,
    Nat.ofDigitChars_ten_toDigits]

theorem toString_ne_empty (n : Nat) : toString n ≠ "" := by
  intro h
  have hd : Nat.toDigits 10 n = [] := by
    rw [← Nat.toList_repr, ← Nat.toString_eq_repr, h]
    rfl
  exact Nat.toDigits_ne_nil hd

theorem index?_toString {n : Nat} (h : n ≤ maxIndex) : index? (toString n) = some n := by
  have hp : (Nat.toDigits 10 n).head? ≠ some '+' := by
    intro hp
    have hc := Nat.isDigit_of_mem_toDigits (by decide) (by decide) (List.mem_of_head? hp)
    simp at hc
  have ht : (toString n).toList = Nat.toDigits 10 n := by
    rw [Nat.toString_eq_repr, Nat.toList_repr]
  rw [index?, ht, unsigned?_eq_digits? hp, digits?_toDigits]
  simp [h]

theorem toList_toString_int (n : Int) : (toString n).toList =
    if n < 0 then '-' :: Nat.toDigits 10 n.natAbs else Nat.toDigits 10 n.natAbs := by
  rw [Int.toString_eq_repr]
  cases n with
  | ofNat m => simp [Int.repr]
  | negSucc m => simp [Int.repr, Int.negSucc_lt_zero]

theorem signed?_toString (n : Int) : signed? 10 (toString n).toList = some n := by
  rw [toList_toString_int]
  split
  · next h =>
    have hneg : -(n.natAbs : Int) = n := by omega
    rw [signed?, digits?_toDigits]
    exact congrArg some hneg
  · next h =>
    have hdigit : ∀ c ∈ Nat.toDigits 10 n.natAbs, c.isDigit = true :=
      fun c hc => Nat.isDigit_of_mem_toDigits (by decide) (by decide) hc
    unfold signed?
    split
    · next rest hs => exact absurd (hdigit '-' (hs ▸ List.mem_cons_self)) (by decide)
    · next rest hs => exact absurd (hdigit '+' (hs ▸ List.mem_cons_self)) (by decide)
    · rw [digits?_toDigits, Option.map_some]
      exact congrArg some (Int.natAbs_of_nonneg (by omega))

theorem isDigit_of_mem_toString {n : Int} {c : Char} (h : c ∈ (toString n).toList) :
    c = '-' ∨ c.isDigit = true := by
  rw [toList_toString_int] at h
  split at h
  · rcases List.mem_cons.1 h with rfl | h
    · exact .inl rfl
    · exact .inr (Nat.isDigit_of_mem_toDigits (by decide) (by decide) h)
  · exact .inr (Nat.isDigit_of_mem_toDigits (by decide) (by decide) h)

end AttributeTrees.Numeral
