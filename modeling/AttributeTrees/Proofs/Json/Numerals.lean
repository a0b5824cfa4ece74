import AttributeTrees.Json.Reading
import AttributeTrees.Proofs.Json.Stream.Numeric
import AttributeTrees.Proofs.Outcome
/-!
# The number literals of a text

A number literal is what follows a minus or a digit outside of strings, as far as number bytes go.
Main statement: a literal of a whole number that fits is read in the same way by both readers, as a
number of a text and as a token of a stream.
-/
namespace AttributeTrees.Json.Reading

open Json.Stream (Numeric isDigit isNumberByte isSpace)
open Text.Utf8 (Bytes)

inductive Within where
  | gap
  | string
  | escape
  | number (run : Bytes)

def numeralsFrom : Within → Bytes → List Bytes
  | .number run, [] => [run]
  | _, [] => []
  | .gap, b :: rest =>
    if b == 0x22 then numeralsFrom .string rest
    else if b == 0x2D || isDigit b then numeralsFrom (.number [b]) rest
    else numeralsFrom .gap rest
  | .string, b :: rest =>
    numeralsFrom (if b == 0x22 then .gap else if b == 0x5C then .escape else .string) rest
  | .escape, _ :: rest => numeralsFrom .string rest
  | .number run, b :: rest =>
    if isNumberByte b then numeralsFrom (.number (run ++ [b])) rest
    else run :: numeralsFrom (if b == 0x22 then .string else .gap) rest

def numerals (bytes : Bytes) : List Bytes := numeralsFrom .gap bytes

/-- The literal of a whole number that fits, without point, exponent and the minus of a zero. -/
def IsWhole : Bytes → Prop
  | [] => False
  | b :: rest =>
    if b = 0x2D then (∀ d ∈ rest, isDigit d = true) ∧ 0 < decimal rest ∧
      decimal rest ≤ 9223372036854775808
    else (∀ d ∈ b :: rest, isDigit d = true) ∧ decimal (b :: rest) ≤ maxWhole

instance : DecidablePred IsWhole
  | [] => .isFalse id
  | b :: _ =>
    have (run : Bytes) : Decidable (∀ d ∈ run, isDigit d = true) := List.decidableBAll _ run
    inferInstanceAs (Decidable (if b = 0x2D then _ else _))

def AllWhole (bytes : Bytes) : Prop := ∀ run ∈ numerals bytes, IsWhole run

instance : DecidablePred AllWhole := fun bytes => List.decidableBAll _ (numerals bytes)

theorem numerals_skipSpace (bytes : Bytes) : numerals (skipSpace bytes) = numerals bytes := by
  induction bytes with
  | nil => rfl
  | cons b bytes ih =>
    by_cases hb : isSpace b = true
    · have hgap : b ≠ 0x22 ∧ b ≠ 0x2D ∧ isDigit b = false := by
        simp only [isSpace, Bool.or_eq_true, beq_iff_eq] at hb
        rcases hb with ((rfl | rfl) | rfl) | rfl <;> decide
      obtain ⟨hq, hm, hd⟩ := hgap
      rw [skipSpace, List.dropWhile_cons_of_pos hb]
      refine ih.trans ?_
      simp [numerals, numeralsFrom, hq, hm, hd]
    · rw [skipSpace, List.dropWhile_cons_of_neg hb]

theorem numeralsFrom_number (run bytes : Bytes) : numeralsFrom (.number run) bytes =
    (run ++ bytes.takeWhile isNumberByte) :: numerals (bytes.dropWhile isNumberByte) := by
  induction bytes generalizing run with
  | nil => simp [numeralsFrom, numerals]
  | cons b bytes ih =>
    by_cases hb : isNumberByte b = true
    · rw [numeralsFrom, if_pos hb, ih, List.takeWhile_cons_of_pos hb, List.dropWhile_cons_of_pos hb,
        List.append_assoc]
      rfl
    · have hgap : (b == 0x2D || isDigit b) = false := by
        simp only [isNumberByte, Bool.or_eq_true, not_or, Bool.not_eq_true] at hb
        simp [hb]
      rw [numeralsFrom, if_neg hb, List.takeWhile_cons_of_neg hb, List.dropWhile_cons_of_neg hb,
        List.append_nil, numerals, numeralsFrom, hgap]
      by_cases hq : (b == 0x22) = true <;> simp [hq]

theorem numerals_number {b : UInt8} (hb : b = 0x2D ∨ isDigit b = true) (bytes : Bytes) :
    numerals (b :: bytes) = (b :: bytes.takeWhile isNumberByte) ::
      numerals (bytes.dropWhile isNumberByte) := by
  have hq : (b == 0x22) = false := by
    rcases hb with rfl | hb
    · decide
    · refine beq_false_of_ne ?_
      rintro rfl
      revert hb
      decide
  have hn : (b == 0x2D || isDigit b) = true := by simpa using hb
  rw [numerals, numeralsFrom, hq, if_neg nofun, if_pos hn, numeralsFrom_number]
  rfl

theorem toNat_ofNat_toNat (b : UInt8) : (Char.ofNat b.toNat).toNat = b.toNat :=
  congrArg Char.toNat (dif_pos (.inl (Nat.lt_trans b.toNat_lt (by decide))))

theorem digitIn?_of_isDigit {b : UInt8} (hb : isDigit b = true) :
    Numeral.digitIn? 10 (Char.ofNat b.toNat) = some (b.toNat - 0x30) := by
  have hc : (Char.ofNat b.toNat).isDigit = true := by
    simp only [isDigit, Bool.and_eq_true, decide_eq_true_eq, UInt8.le_iff_toNat_le] at hb
    rw [Char.isDigit_iff_toNat, toNat_ofNat_toNat]
    exact hb
  rw [Numeral.digitIn?_of_isDigit hc, toNat_ofNat_toNat]
  rfl

variable {digits : Bytes}

theorem digits?_decimal (hne : digits ≠ []) (h : ∀ d ∈ digits, isDigit d = true) :
    Numeral.digits? 10 (digits.map fun b => Char.ofNat b.toNat) = some (decimal digits) := by
  have hfrom (n : Nat) : Numeral.digitsFrom? 10 n (digits.map fun b => Char.ofNat b.toNat) =
      some (digits.foldl (fun n d => n * 10 + (d.toNat - 0x30)) n) := by
    clear hne
    induction digits generalizing n with
    | nil => rfl
    | cons d digits ih =>
      obtain ⟨hd, hds⟩ := List.forall_mem_cons.1 h
      rw [List.map_cons, Numeral.digitsFrom?, digitIn?_of_isDigit hd]
      exact ih hds _
  rw [Numeral.digits?, if_neg (by simpa using hne), hfrom, decimal]

theorem appendDigits_eq {n : Nat}
    (h : digits.foldl (fun n d => n * 10 + (d.toNat - 0x30)) n ≤ maxWhole) :
    appendDigits n digits = (digits.foldl (fun n d => n * 10 + (d.toNat - 0x30)) n, []) := by
  have hle (n : Nat) (ds : Bytes) : n ≤ ds.foldl (fun n d => n * 10 + (d.toNat - 0x30)) n := by
    induction ds generalizing n with
    | nil => exact Nat.le_refl n
    | cons d ds ih => exact Nat.le_trans (by omega) (ih (n * 10 + (d.toNat - 0x30)))
  induction digits generalizing n with
  | nil => rfl
  | cons d digits ih => rw [appendDigits, if_pos (Nat.le_trans (hle _ digits) h), ih h]; rfl

theorem takeWhile_isDigit {bytes : Bytes}
    (h : ∀ d ∈ bytes.takeWhile isNumberByte, isDigit d = true) :
    bytes.takeWhile isDigit = bytes.takeWhile isNumberByte ∧
      bytes.dropWhile isDigit = bytes.dropWhile isNumberByte := by
  induction bytes with
  | nil => exact ⟨rfl, rfl⟩
  | cons b bytes ih =>
    by_cases hb : isNumberByte b = true
    · rw [List.takeWhile_cons_of_pos hb] at h ⊢
      obtain ⟨hd, hds⟩ := List.forall_mem_cons.1 h
      obtain ⟨ht, hr⟩ := ih hds
      rw [List.takeWhile_cons_of_pos hd, List.dropWhile_cons_of_pos hd,
        List.dropWhile_cons_of_pos hb, ht, hr]
      exact ⟨rfl, rfl⟩
    · have hd : ¬ isDigit b = true := fun hd => hb (by simp [isNumberByte, hd])
      rw [List.takeWhile_cons_of_neg hb, List.takeWhile_cons_of_neg hd,
        List.dropWhile_cons_of_neg hb, List.dropWhile_cons_of_neg hd]
      exact ⟨rfl, rfl⟩

theorem digits_ok {bytes run rest : Bytes} (h : Reading.digits bytes = .ok (run, rest)) :
    run ≠ [] ∧ run = bytes.takeWhile isDigit ∧ rest = bytes.dropWhile isDigit := by
  cases bytes with
  | nil => cases h
  | cons b bytes =>
    rw [Reading.digits] at h
    split at h
    · next hb =>
      cases h
      rw [List.takeWhile_cons_of_pos hb]
      exact ⟨List.cons_ne_nil _ _, rfl, rfl⟩
    · cases h

theorem wholePart_ok {bytes run rest : Bytes} (h : wholePart bytes = .ok (run, rest)) :
    run ≠ [] ∧ run = bytes.takeWhile isDigit ∧ rest = bytes.dropWhile isDigit := by
  obtain ⟨⟨digits, more⟩, hr, h⟩ := exists_of_bind_eq_ok h
  change (if digits.head? == some 0x30 && digits.length != 1 then Except.error Fault.malformed
    else .ok (digits, more)) = _ at h
  split at h
  · cases h
  · cases h
    exact digits_ok hr

theorem parts_of_end {bytes : Bytes} (h : ∀ b ∈ bytes.head?, isNumberByte b = false) :
    fractionPart bytes = .ok (([], false), bytes) ∧ exponentPart bytes = .ok (none, bytes) := by
  cases bytes with
  | nil => exact ⟨rfl, rfl⟩
  | cons b bytes =>
    have hb := h b rfl
    simp only [isNumberByte, Bool.or_eq_false_iff] at hb
    obtain ⟨⟨⟨⟨-, -⟩, hpoint⟩, he⟩, hE⟩ := hb
    constructor
    · rw [fractionPart, hpoint]
      rfl
    · rw [exponentPart, he, hE]
      rfl

theorem number_of_digits {negative : Bool} {bytes rest : Bytes} {v : Value}
    (h : number negative bytes = .ok (v, rest))
    (hd : ∀ d ∈ bytes.takeWhile isNumberByte, isDigit d = true) :
    bytes.takeWhile isNumberByte ≠ [] ∧ rest = bytes.dropWhile isNumberByte ∧
      (Parts.mk negative (bytes.takeWhile isNumberByte) [] none false).value = some v := by
  obtain ⟨ht, hr⟩ := takeWhile_isDigit hd
  obtain ⟨⟨whole, more⟩, hwhole, h⟩ := exists_of_bind_eq_ok h
  obtain ⟨hne, rfl, rfl⟩ := wholePart_ok hwhole
  have hend : ∀ b ∈ (bytes.dropWhile isNumberByte).head?, isNumberByte b = false := by
    intro b hb
    have hn := List.head?_dropWhile_not isNumberByte bytes
    rw [hb] at hn
    simpa using hn
  obtain ⟨hfraction, hexponent⟩ := parts_of_end hend
  change (fractionPart (bytes.dropWhile isDigit) >>= fun x => _) = _ at h
  rw [hr, hfraction] at h
  change (exponentPart (bytes.dropWhile isNumberByte) >>= fun x => _) = _ at h
  rw [hexponent, ht] at h
  rw [ht] at hne
  refine ⟨hne, ?_⟩
  cases hv : (Parts.mk negative (bytes.takeWhile isNumberByte) [] none false).value with
  | none =>
    simp only [bind, Except.bind, hv] at h
    cases h
  | some w =>
    simp only [bind, Except.bind, hv] at h
    cases h
    exact ⟨rfl, rfl⟩

theorem value_of_unsigned (h : decimal digits ≤ maxWhole) :
    ∃ n : IntType.nat64.Value, n.val = decimal digits ∧
      (Parts.mk false digits [] none false).value = some (.ofNat64 n) := by
  have hn : IntType.nat64.low ≤ (decimal digits : Int) ∧
      (decimal digits : Int) ≤ IntType.nat64.high := by
    simp only [IntType.low, IntType.high]
    rw [maxWhole] at h
    omega
  refine ⟨⟨decimal digits, hn⟩, rfl, ?_⟩
  have hd : appendDigits 0 digits = (decimal digits, []) := appendDigits_eq h
  simp only [Parts.value, hd, IntType.ofInt?, dif_pos hn]
  rfl

theorem value_of_signed (hpos : 0 < decimal digits) (h : decimal digits ≤ 9223372036854775808) :
    ∃ n : IntType.int64.Value, n.val = -(decimal digits : Int) ∧
      (Parts.mk true digits [] none false).value = some (.ofInt64 n) := by
  have hn : IntType.int64.low ≤ -(decimal digits : Int) ∧
      -(decimal digits : Int) ≤ IntType.int64.high := by
    simp only [IntType.low, IntType.high]
    omega
  refine ⟨⟨-decimal digits, hn⟩, rfl, ?_⟩
  have hm : decimal digits ≤ maxWhole := by
    rw [maxWhole]
    omega
  have hd : appendDigits 0 digits = (decimal digits, []) := appendDigits_eq hm
  have hz : decimal digits ≠ 0 := by omega
  simp only [Parts.value, hd, IntType.ofInt?, dif_pos hn, if_neg hz]
  rfl

theorem number_unsigned {b : UInt8} {bytes rest : Bytes} {v : Value} (hb : isDigit b = true)
    (h : number false (b :: bytes) = .ok (v, rest))
    (hw : IsWhole (b :: bytes.takeWhile isNumberByte)) :
    ∃ n : IntType.nat64.Value, v = .ofNat64 n ∧ rest = bytes.dropWhile isNumberByte ∧
      Numeric ((b :: bytes.takeWhile isNumberByte).map fun b => Char.ofNat b.toNat) (.uint n) := by
  have hm : b ≠ 0x2D := by
    rintro rfl
    revert hb
    decide
  have hn : isNumberByte b = true := by simp [isNumberByte, hb]
  rw [IsWhole, if_neg hm] at hw
  obtain ⟨hd, hle⟩ := hw
  have ht : (b :: bytes).takeWhile isNumberByte = b :: bytes.takeWhile isNumberByte :=
    List.takeWhile_cons_of_pos hn
  obtain ⟨hne, hrest, hv⟩ := number_of_digits h (ht ▸ hd)
  rw [ht] at hne hv
  obtain ⟨n, hval, hn'⟩ := value_of_unsigned hle
  rw [hn'] at hv
  rw [List.dropWhile_cons_of_pos hn] at hrest
  exact ⟨n, (Option.some.inj hv).symm, hrest, .uint (digits?_decimal hne hd) hval⟩

theorem number_signed {bytes rest : Bytes} {v : Value} (h : number true bytes = .ok (v, rest))
    (hw : IsWhole (0x2D :: bytes.takeWhile isNumberByte)) :
    ∃ n : IntType.int64.Value, v = .ofInt64 n ∧ rest = bytes.dropWhile isNumberByte ∧
      Numeric ((0x2D :: bytes.takeWhile isNumberByte).map fun b => Char.ofNat b.toNat)
        (.int n) := by
  rw [IsWhole, if_pos rfl] at hw
  obtain ⟨hd, hpos, hle⟩ := hw
  obtain ⟨hne, hrest, hv⟩ := number_of_digits h hd
  obtain ⟨n, hval, hn⟩ := value_of_signed hpos hle
  rw [hn] at hv
  exact ⟨n, (Option.some.inj hv).symm, hrest, .int (digits?_decimal hne hd) hval⟩

end AttributeTrees.Json.Reading
