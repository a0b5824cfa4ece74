import AttributeTrees.Json.Stream.Token
/-!
# Scanning on a part of the bytes

A scan decides from left to right. So what it finds on the bytes that are there it finds on every
continuation of them, be it a token or a fault, and what a token is does not depend on the bytes
behind it, except that a number goes on as far as number bytes do.
-/
namespace AttributeTrees.Json.Stream

open Text.Utf8 (Bytes)

section
variable {bytes : Bytes} {n : Nat}

theorem fourDigits_of_length_lt (hl : bytes.length < 4) :
    fourDigits bytes = if bytes.all fun b => (hexValue? b).isSome then .more else .never := by
  rcases bytes with _ | ⟨a, _ | ⟨b, _ | ⟨c, _ | ⟨d, more⟩⟩⟩⟩
  all_goals first | rfl | (simp only [List.length_cons] at hl; omega)

theorem fourDigits_found (h : fourDigits bytes = .found n) :
    ∃ digits rest, bytes = digits ++ rest ∧ digits.length = 4 ∧
      ∀ more, fourDigits (digits ++ more) = .found n := by
  have hl : ¬ bytes.length < 4 := by
    intro hl
    rw [fourDigits_of_length_lt hl] at h
    split at h <;> cases h
  rcases bytes with _ | ⟨a, _ | ⟨b, _ | ⟨c, _ | ⟨d, rest⟩⟩⟩⟩
  all_goals first | (exact ⟨[a, b, c, d], rest, rfl, rfl, fun _ => h⟩) | (simp at hl)

theorem fourDigits_eq_never {b : UInt8} (hb : b ∈ bytes.take 4) (hn : hexValue? b = none) :
    fourDigits bytes = .never := by
  unfold fourDigits
  split
  · next a c d e rest =>
    simp only [List.take_succ_cons, List.take_zero, List.mem_cons, List.not_mem_nil, or_false] at hb
    rcases hb with rfl | rfl | rfl | rfl <;> split <;> simp_all
  · have hall : ¬ bytes.all fun b => (hexValue? b).isSome := by
      simp only [List.all_eq_true]
      intro h
      simpa [hn] using h b (List.mem_of_mem_take hb)
    simp [hall]

theorem fourDigits_append (h : fourDigits bytes ≠ .more) (rest : Bytes) :
    fourDigits (bytes ++ rest) = fourDigits bytes := by
  by_cases hl : bytes.length < 4
  · rw [fourDigits_of_length_lt hl] at h ⊢
    split at h
    · exact absurd rfl h
    · next hall =>
      have hex : ∃ b ∈ bytes, hexValue? b = none := by simpa using hall
      obtain ⟨b, hb, hn⟩ := hex
      have ht : b ∈ (bytes ++ rest).take 4 := by
        rw [List.take_append, List.take_of_length_le (Nat.le_of_lt hl)]
        exact List.mem_append_left _ hb
      rw [fourDigits_eq_never ht hn, if_neg hall]
  · rcases bytes with _ | ⟨a, _ | ⟨b, _ | ⟨c, _ | ⟨d, more⟩⟩⟩⟩
    all_goals first | rfl | (simp at hl)

theorem lowSurrogate_found (h : lowSurrogate bytes = .found n) :
    ∃ half rest, bytes = half ++ rest ∧ half.length = 6 ∧
      ∀ more, lowSurrogate (half ++ more) = .found n := by
  rcases bytes with _ | ⟨b, _ | ⟨u, bytes⟩⟩
  · cases h
  · simp only [lowSurrogate] at h
    split at h <;> cases h
  · have hd : ∃ low, fourDigits bytes = .found low := by
      simp only [lowSurrogate] at h
      split at h
      · split at h
        · next low hd => exact ⟨low, hd⟩
        · cases h
        · cases h
      · cases h
    obtain ⟨low, hd⟩ := hd
    obtain ⟨digits, rest, rfl, hlen, hall⟩ := fourDigits_found hd
    refine ⟨b :: u :: digits, rest, rfl, by simp [hlen], fun more => ?_⟩
    simpa [lowSurrogate, hall] using h

theorem lowSurrogate_append (h : lowSurrogate bytes ≠ .more) (rest : Bytes) :
    lowSurrogate (bytes ++ rest) = lowSurrogate bytes := by
  rcases bytes with _ | ⟨b, _ | ⟨u, more⟩⟩
  · exact absurd rfl h
  · by_cases hb : b = 0x5C
    · exact absurd (by simp [lowSurrogate, hb]) h
    · cases rest <;> simp [lowSurrogate, hb]
  · simp only [lowSurrogate, List.cons_append] at h ⊢
    split at h
    · rw [fourDigits_append]
      intro hm
      simp [hm] at h
    · next hu => rw [if_neg hu, if_neg hu]

theorem unicodeEscape_found {c : Char} (h : unicodeEscape bytes = .found (c, n)) :
    ∃ escape rest, bytes = escape ++ rest ∧ escape.length = n ∧
      ∀ more, unicodeEscape (escape ++ more) = .found (c, n) := by
  unfold unicodeEscape at h
  split at h
  · cases h
  · cases h
  · next high hd =>
    obtain ⟨digits, rest, rfl, hlen, hall⟩ := fourDigits_found hd
    have hdrop (more : Bytes) : (digits ++ more).drop 4 = more := by
      rw [← hlen, List.drop_left]
    rw [hdrop] at h
    split at h
    · next hh =>
      cases hs : lowSurrogate rest with
      | found low =>
        obtain ⟨half, rest, rfl, hlen', hall'⟩ := lowSurrogate_found hs
        simp only [hs] at h
        refine ⟨digits ++ half, rest, by simp, ?_, fun more => ?_⟩
        · have hn : 10 = n := (Prod.mk.inj (Part.found.inj h)).2
          rw [List.length_append, hlen, hlen', ← hn]
        · simp only [unicodeEscape, List.append_assoc, hall, hdrop, hh, hall', if_true, h]
      | more => simp [hs] at h
      | never => simp [hs] at h
    · next hh =>
      split at h
      · cases h
      · next hh' =>
        refine ⟨digits, rest, rfl, ?_, fun more => ?_⟩
        · have hn : 4 = n := (Prod.mk.inj (Part.found.inj h)).2
          rw [hlen, hn]
        · simp [unicodeEscape, hall, hh, hh', h]

theorem unicodeEscape_append (h : unicodeEscape bytes ≠ .more) (rest : Bytes) :
    unicodeEscape (bytes ++ rest) = unicodeEscape bytes := by
  unfold unicodeEscape at h ⊢
  cases hd : fourDigits bytes with
  | more => simp [hd] at h
  | never => simp [fourDigits_append, hd]
  | found high =>
    obtain ⟨digits, more, rfl, hlen, hall⟩ := fourDigits_found hd
    simp only [hd, ← hlen, List.drop_left] at h
    simp only [List.append_assoc, hall, ← hlen, List.drop_left]
    split
    · next hh =>
      rw [if_pos hh] at h
      rw [lowSurrogate_append]
      intro hm
      simp [hm] at h
    · rfl

end

section
variable {offset done : Nat} {atEnd : Bool} {decoded rest : Bytes} {b e : UInt8}

theorem scanString_quote : scanString offset atEnd decoded done (0x22 :: rest) =
    closeString offset decoded.reverse (done + 1) := by
  rw [scanString.eq_def]
  simp

theorem scanString_byte (hq : b ≠ 0x22) (hs : b ≠ 0x5C) :
    scanString offset atEnd decoded done (b :: rest) =
      if b < 0x20 then .fault (.unexpectedByte b (offset + done))
      else scanString offset atEnd (b :: decoded) (done + 1) rest := by
  rw [scanString.eq_def]
  simp [hq, hs]

theorem scanString_short {byte : UInt8} (he : e ≠ 0x75) (hb : shortEscape? e = some byte) :
    scanString offset atEnd decoded done (0x5C :: e :: rest) =
      scanString offset atEnd (byte :: decoded) (done + 2) rest := by
  rw [scanString.eq_def]
  simp [he, hb]

theorem scanString_not_short (he : e ≠ 0x75) (hb : shortEscape? e = none) :
    scanString offset atEnd decoded done (0x5C :: e :: rest) =
      .fault (.badEscape (offset + done)) := by
  rw [scanString.eq_def]
  simp [he, hb]

theorem scanString_unicode {c : Char} {n : Nat} (hu : unicodeEscape rest = .found (c, n)) :
    scanString offset atEnd decoded done (0x5C :: 0x75 :: rest) =
      scanString offset atEnd ((Text.Utf8.encodeChar c).reverse ++ decoded) (done + 2 + n)
        (rest.drop n) := by
  rw [scanString.eq_def]
  simp [hu]

theorem scanString_not_unicode (hu : unicodeEscape rest = .never) :
    scanString offset atEnd decoded done (0x5C :: 0x75 :: rest) =
      .fault (.badEscape (offset + done)) := by
  rw [scanString.eq_def]
  simp [hu]

end

section
variable {bytes : Bytes} {offset n : Nat} {atEnd : Bool} {t : Token}

theorem incomplete_ne_token : Scan.incomplete atEnd ≠ .token t n := by
  cases atEnd <;> nofun

theorem scanString_append {decoded : Bytes} {done : Nat}
    (h : scanString offset false decoded done bytes ≠ .more) (rest : Bytes) (atEnd : Bool) :
    scanString offset atEnd decoded done (bytes ++ rest) =
      scanString offset false decoded done bytes := by
  fun_induction scanString offset false decoded done bytes with
  | case1 => exact absurd rfl h
  | case2 decoded done b bytes hb => rw [eq_of_beq hb, List.cons_append, scanString_quote]
  | case3 => exact absurd rfl h
  | case4 decoded done b hb hs e bytes he c n hu ih =>
    obtain ⟨escape, more, rfl, rfl, hall⟩ := unicodeEscape_found hu
    have hue := hall (more ++ rest)
    rw [List.drop_left] at ih h ⊢
    rw [eq_of_beq hs, eq_of_beq he, List.cons_append, List.cons_append, List.append_assoc,
      scanString_unicode hue, List.drop_left]
    exact ih h
  | case5 => exact absurd rfl h
  | case6 decoded done b hb hs e bytes he hu =>
    have hue : unicodeEscape (bytes ++ rest) = .never := by
      rw [unicodeEscape_append (by simp [hu]), hu]
    rw [eq_of_beq hs, eq_of_beq he, List.cons_append, List.cons_append,
      scanString_not_unicode hue]
  | case7 decoded done b hb hs e bytes he byte hbyte ih =>
    rw [eq_of_beq hs, List.cons_append, List.cons_append,
      scanString_short (by simpa using he) hbyte]
    exact ih h
  | case8 decoded done b hb hs e bytes he hbyte =>
    rw [eq_of_beq hs, List.cons_append, List.cons_append,
      scanString_not_short (by simpa using he) hbyte]
  | case9 decoded done b bytes hb hs hc =>
    rw [List.cons_append, scanString_byte (by simpa using hb) (by simpa using hs), if_pos hc]
  | case10 decoded done b bytes hb hs hc ih =>
    rw [List.cons_append, scanString_byte (by simpa using hb) (by simpa using hs), if_neg hc]
    exact ih h

theorem scanString_token {decoded : Bytes} {done : Nat}
    (h : scanString offset atEnd decoded done bytes = .token t n) :
    ∃ body rest, bytes = body ++ rest ∧ n = done + body.length ∧ ∀ offset atEnd more,
      scanString offset atEnd decoded done (body ++ more) = .token t n := by
  fun_induction scanString offset atEnd decoded done bytes with
  | case1 => exact absurd h incomplete_ne_token
  | case2 decoded done b bytes hb =>
    refine ⟨[b], bytes, rfl, eq_of_closeString h, fun offset' atEnd more => ?_⟩
    rw [eq_of_beq hb, List.singleton_append, scanString_quote]
    unfold closeString at h ⊢
    split at h
    · exact h
    · cases h
  | case3 => exact absurd h incomplete_ne_token
  | case4 decoded done b hb hs e bytes he c k hu ih =>
    obtain ⟨body, rest, hbytes, hn, hall⟩ := ih h
    obtain ⟨escape, rest', rfl, rfl, hesc⟩ := unicodeEscape_found hu
    rw [List.drop_left] at hbytes
    subst hbytes
    refine ⟨b :: e :: (escape ++ body), rest, by simp, ?_, fun offset atEnd more => ?_⟩
    · simp only [hn, List.length_cons, List.length_append]
      omega
    · have hu' := hesc (body ++ more)
      rw [eq_of_beq hs, eq_of_beq he, List.cons_append, List.cons_append, List.append_assoc,
        scanString_unicode hu', List.drop_left, hall]
  | case5 => exact absurd h incomplete_ne_token
  | case6 => cases h
  | case7 decoded done b hb hs e bytes he byte hbyte ih =>
    obtain ⟨body, rest, rfl, hn, hall⟩ := ih h
    refine ⟨b :: e :: body, rest, rfl, ?_, fun offset atEnd more => ?_⟩
    · simp only [hn, List.length_cons]
      omega
    · rw [eq_of_beq hs, List.cons_append, List.cons_append,
        scanString_short (by simpa using he) hbyte, hall]
  | case8 => cases h
  | case9 => cases h
  | case10 decoded done b bytes hb hs hc ih =>
    obtain ⟨body, rest, rfl, hn, hall⟩ := ih h
    refine ⟨b :: body, rest, rfl, ?_, fun offset atEnd more => ?_⟩
    · simp only [hn, List.length_cons]
      omega
    · rw [List.cons_append, scanString_byte (by simpa using hb) (by simpa using hs), if_neg hc,
        hall]

theorem scanWord_append {word : Bytes} {done : Nat}
    (h : scanWord t offset false word done bytes ≠ .more) (rest : Bytes) (atEnd : Bool) :
    scanWord t offset atEnd word done (bytes ++ rest) =
      scanWord t offset false word done bytes := by
  fun_induction scanWord t offset false word done bytes with
  | case1 done bytes => rw [scanWord]
  | case2 => exact absurd rfl h
  | case3 w word done b bytes hb ih => simpa [scanWord, hb] using ih h
  | case4 w word done b bytes hb => simp [scanWord, hb]

theorem scanWord_token {u : Token} {word : Bytes} {done : Nat}
    (h : scanWord t offset atEnd word done bytes = .token u n) :
    u = t ∧ n = done + word.length ∧ ∃ rest, bytes = word ++ rest := by
  fun_induction scanWord t offset atEnd word done bytes with
  | case1 done bytes =>
    cases h
    exact ⟨rfl, rfl, bytes, rfl⟩
  | case2 => exact absurd h incomplete_ne_token
  | case3 w word done b bytes hb ih =>
    obtain ⟨hu, rfl, rest, rfl⟩ := ih h
    refine ⟨hu, ?_, rest, by rw [eq_of_beq hb, List.cons_append]⟩
    rw [List.length_cons, Nat.add_assoc, Nat.add_comm 1]
  | case4 => cases h

theorem scanWord_self (word rest : Bytes) (done : Nat) :
    scanWord t offset atEnd word done (word ++ rest) = .token t (done + word.length) := by
  induction word generalizing done with
  | nil => rw [scanWord]; rfl
  | cons w word ih =>
    simp only [scanWord, List.cons_append, beq_self_eq_true, if_true, ih, List.length_cons]
    rw [Nat.add_assoc, Nat.add_comm 1]

def closeNumber (run : Bytes) (offset : Nat) : Scan :=
  match readNumber? (run.map fun b => Char.ofNat b.toNat) with
  | some n => .token (.number n) run.length
  | none => .fault (.badNumber (String.ofList (run.map fun b => Char.ofNat b.toNat)) offset)

theorem scanNumber_eq_more (hl : (bytes.takeWhile isNumberByte).length = bytes.length) :
    scanNumber bytes offset false = .more := by
  simp [scanNumber, hl]

theorem scanNumber_eq_close
    (hl : (bytes.takeWhile isNumberByte).length ≠ bytes.length ∨ atEnd = true) :
    scanNumber bytes offset atEnd = closeNumber (bytes.takeWhile isNumberByte) offset := by
  have hc : ((bytes.takeWhile isNumberByte).length = bytes.length && !atEnd) = false := by
    rcases hl with hl | hl <;> simp [hl]
  simp only [scanNumber, hc, Bool.false_eq_true, if_false]
  rfl

theorem scanNumber_append (h : scanNumber bytes offset false ≠ .more) (rest : Bytes)
    (atEnd : Bool) :
    scanNumber (bytes ++ rest) offset atEnd = scanNumber bytes offset false := by
  have hl : (bytes.takeWhile isNumberByte).length ≠ bytes.length :=
    fun hl => h (scanNumber_eq_more hl)
  have ht : (bytes ++ rest).takeWhile isNumberByte = bytes.takeWhile isNumberByte := by
    rw [List.takeWhile_append, if_neg hl]
  have hlt : (bytes.takeWhile isNumberByte).length < bytes.length :=
    Nat.lt_of_le_of_ne (List.takeWhile_prefix _).length_le hl
  rw [scanNumber_eq_close (.inl hl), scanNumber_eq_close (.inl ?_), ht]
  rw [ht, List.length_append]
  omega

theorem scanNumber_token (h : scanNumber bytes offset atEnd = .token t n) :
    n = (bytes.takeWhile isNumberByte).length ∧ ∃ x, t = .number x ∧
      readNumber? ((bytes.takeWhile isNumberByte).map fun b => Char.ofNat b.toNat) = some x := by
  by_cases hl : (bytes.takeWhile isNumberByte).length ≠ bytes.length ∨ atEnd = true
  · rw [scanNumber_eq_close hl, closeNumber] at h
    split at h
    · next x hx =>
      cases h
      exact ⟨rfl, x, rfl, hx⟩
    · cases h
  · simp only [not_or, ne_eq, Decidable.not_not, Bool.not_eq_true] at hl
    rw [hl.2, scanNumber_eq_more hl.1] at h
    cases h

end

section
variable {offset : Nat} {atEnd : Bool} {b : UInt8} {rest : Bytes}

theorem scan_punctuation {t : Token} (h : punctuation? b = some t) :
    scan (b :: rest) offset atEnd = .token t 1 := by
  simp [scan, h]

theorem scan_quote : scan (0x22 :: rest) offset atEnd = scanString offset atEnd [] 1 rest := by
  simp [scan, punctuation?]

theorem scan_number (h : b = 0x2D ∨ isDigit b = true) :
    scan (b :: rest) offset atEnd = scanNumber (b :: rest) offset atEnd := by
  have hne (c : UInt8) (hd : isDigit c = false) (hm : c ≠ 0x2D) : b ≠ c := by
    rintro rfl
    rcases h with h | h
    · exact hm h
    · simp [hd] at h
  have hp : punctuation? b = none := by
    simp [punctuation?, hne 0x7B, hne 0x7D, hne 0x5B, hne 0x5D, hne 0x3A, hne 0x2C, isDigit]
  have hq : (b == 0x22) = false := by simp [hne 0x22, isDigit]
  have hn : (b == 0x2D || isDigit b) = true := by simpa using h
  simp [scan, hp, hq, hn]

theorem scan_word {t : Token} {word : Bytes} (h : word? b = some (t, word)) :
    scan (b :: rest) offset atEnd = scanWord t offset atEnd word 1 rest := by
  have hb : b = 0x74 ∨ b = 0x66 ∨ b = 0x6E := by
    unfold word? at h
    grind
  rcases hb with rfl | rfl | rfl <;> cases h <;> simp [scan, punctuation?, isDigit, word?]

end

inductive Lead (b : UInt8) : Prop where
  | punctuation (t : Token) (h : punctuation? b = some t)
  | quote (h : b = 0x22)
  | number (h : b = 0x2D ∨ isDigit b = true)
  | word (t : Token) (word : Bytes) (h : word? b = some (t, word))
  | never (h : ∀ rest offset atEnd,
      scan (b :: rest) offset atEnd = .fault (.unexpectedByte b offset))

theorem lead (b : UInt8) : Lead b := by
  cases hp : punctuation? b with
  | some t => exact .punctuation t hp
  | none =>
    by_cases hq : b = 0x22
    · exact .quote hq
    · by_cases hn : b = 0x2D ∨ isDigit b = true
      · exact .number hn
      · cases hw : word? b with
        | some w => exact .word w.1 w.2 hw
        | none => exact .never fun rest offset atEnd => by simp_all [scan]

/-- A token or a fault that is found is found whatever comes later. -/
theorem scan_append {bytes : Bytes} {offset : Nat} (h : scan bytes offset false ≠ .more)
    (rest : Bytes) (atEnd : Bool) :
    scan (bytes ++ rest) offset atEnd = scan bytes offset false := by
  cases bytes with
  | nil => exact absurd rfl h
  | cons b bytes =>
    rw [List.cons_append]
    cases lead b with
    | punctuation t hp => rw [scan_punctuation hp, scan_punctuation hp]
    | quote hq =>
      subst hq
      rw [scan_quote] at h ⊢
      rw [scan_quote, scanString_append h]
    | number hn =>
      rw [scan_number hn] at h ⊢
      rw [scan_number hn, ← List.cons_append, scanNumber_append h]
    | word t word hw =>
      rw [scan_word hw] at h ⊢
      rw [scan_word hw, scanWord_append h]
    | never hf => rw [hf, hf]

theorem length_le_of_scan {bytes : Bytes} {offset n : Nat} {atEnd : Bool} {t : Token}
    (h : scan bytes offset atEnd = .token t n) : n ≤ bytes.length := by
  cases bytes with
  | nil => exact absurd h incomplete_ne_token
  | cons b bytes =>
    cases lead b with
    | punctuation u hp =>
      rw [scan_punctuation hp] at h
      cases h
      simp
    | quote hq =>
      rw [hq, scan_quote] at h
      obtain ⟨body, rest, rfl, rfl, -⟩ := scanString_token h
      simp only [List.length_cons, List.length_append]
      omega
    | number hn =>
      rw [scan_number hn] at h
      rw [(scanNumber_token h).1]
      exact (List.takeWhile_prefix _).length_le
    | word u word hw =>
      rw [scan_word hw] at h
      obtain ⟨-, rfl, rest, rfl⟩ := scanWord_token h
      simp only [List.length_cons, List.length_append]
      omega
    | never hf =>
      rw [hf] at h
      cases h

end AttributeTrees.Json.Stream
