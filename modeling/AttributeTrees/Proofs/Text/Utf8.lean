import AttributeTrees.Text.Utf8
/-!
# Well-formed bytes

The character of a unit is the one that the unit encodes, and every encoded character is a unit.
So bytes are well-formed when they are the encoding of a text, and of one text only. An encoded
character is a lead byte and the continuation bytes behind it; a text can therefore be cut wherever
no continuation byte follows.
Main statement: reading gives a text if and only if the bytes are its encoding.
-/
namespace AttributeTrees.Text.Utf8

section
variable {a b : UInt8} {n : Nat}

theorem toUInt8_eq_iff (h : n < 256) : n.toUInt8 = b ↔ b.toNat = n := by
  rw [← UInt8.toNat_inj, Nat.toUInt8_eq, UInt8.toNat_ofNat_of_lt' h, eq_comm]

theorem isContinuation_iff : isContinuation b = true ↔ 0x80 ≤ b.toNat ∧ b.toNat ≤ 0xBF := by
  simp [isContinuation, UInt8.le_iff_toNat_le]

theorem followsLead_iff : followsLead a b = true ↔
    0x80 ≤ b.toNat ∧ b.toNat ≤ 0xBF ∧ (a.toNat = 0xE0 → 0xA0 ≤ b.toNat) ∧
      (a.toNat = 0xED → b.toNat ≤ 0x9F) ∧ (a.toNat = 0xF0 → 0x90 ≤ b.toNat) ∧
      (a.toNat = 0xF4 → b.toNat ≤ 0x8F) := by
  have eq (x : UInt8) : (a == x) = true ↔ a.toNat = x.toNat := by
    rw [beq_iff_eq, ← UInt8.toNat_inj]
  unfold followsLead isContinuation
  repeat' split
  all_goals
    simp only [eq, Bool.and_eq_true, decide_eq_true_eq, UInt8.le_iff_toNat_le,
      UInt8.reduceToNat] at *
    omega

end

/-- `Encodes c bytes`: the bytes are the character, in as few bytes as hold its number. -/
inductive Encodes (c : Char) : Bytes → Prop where
  | one {a : UInt8} : c.toNat < 0x80 → a.toNat = c.toNat → Encodes c [a]
  | two {a b : UInt8} : 0x80 ≤ c.toNat → c.toNat < 0x800 → a.toNat = 0xC0 + c.toNat / 64 →
    b.toNat = 0x80 + c.toNat % 64 → Encodes c [a, b]
  | three {a b d : UInt8} : 0x800 ≤ c.toNat → c.toNat < 0x10000 →
    a.toNat = 0xE0 + c.toNat / 4096 → b.toNat = 0x80 + c.toNat / 64 % 64 →
    d.toNat = 0x80 + c.toNat % 64 → Encodes c [a, b, d]
  | four {a b d e : UInt8} : 0x10000 ≤ c.toNat → a.toNat = 0xF0 + c.toNat / 262144 →
    b.toNat = 0x80 + c.toNat / 4096 % 64 → d.toNat = 0x80 + c.toNat / 64 % 64 →
    e.toNat = 0x80 + c.toNat % 64 → Encodes c [a, b, d, e]

theorem number_char (c : Char) :
    c.toNat < 0xD800 ∨ 0xDFFF < c.toNat ∧ c.toNat < 0x110000 := c.valid

theorem encodes_iff {c : Char} {bytes : Bytes} : Encodes c bytes ↔ encodeChar c = bytes := by
  have hc := number_char c
  constructor
  · rintro (⟨h, ha⟩ | ⟨h, h', ha, hb⟩ | ⟨h, h', ha, hb, hd⟩ | ⟨h, ha, hb, hd, he⟩)
    · rw [encodeChar, if_pos h, (toUInt8_eq_iff (by omega)).2 ha]
    · rw [encodeChar, if_neg (by omega), if_pos h', (toUInt8_eq_iff (by omega)).2 ha,
        (toUInt8_eq_iff (by omega)).2 hb]
    · rw [encodeChar, if_neg (by omega), if_neg (by omega), if_pos h',
        (toUInt8_eq_iff (by omega)).2 ha, (toUInt8_eq_iff (by omega)).2 hb,
        (toUInt8_eq_iff (by omega)).2 hd]
    · rw [encodeChar, if_neg (by omega), if_neg (by omega), if_neg (by omega),
        (toUInt8_eq_iff (by omega)).2 ha, (toUInt8_eq_iff (by omega)).2 hb,
        (toUInt8_eq_iff (by omega)).2 hd, (toUInt8_eq_iff (by omega)).2 he]
  · rintro rfl
    simp only [encodeChar]
    split
    · next h => exact .one h ((toUInt8_eq_iff (by omega)).1 rfl)
    · split
      · next h h' =>
        exact .two (by omega) h' ((toUInt8_eq_iff (by omega)).1 rfl)
          ((toUInt8_eq_iff (by omega)).1 rfl)
      · split
        · next h h' h'' =>
          exact .three (by omega) h'' ((toUInt8_eq_iff (by omega)).1 rfl)
            ((toUInt8_eq_iff (by omega)).1 rfl) ((toUInt8_eq_iff (by omega)).1 rfl)
        · next h h' h'' =>
          exact .four (by omega) ((toUInt8_eq_iff (by omega)).1 rfl)
            ((toUInt8_eq_iff (by omega)).1 rfl) ((toUInt8_eq_iff (by omega)).1 rfl)
            ((toUInt8_eq_iff (by omega)).1 rfl)

section
variable {lead b d e : UInt8} {rest : Bytes}

theorem unit_two (hl : 0xC2 ≤ lead.toNat) (hl' : lead.toNat ≤ 0xDF)
    (hb : isContinuation b = true) :
    unit lead (b :: rest) = (some (Char.ofNat (lead.toNat % 32 * 64 + b.toNat % 64)), 1) := by
  have h1 : ¬ lead < 0x80 := by simp only [UInt8.lt_iff_toNat_lt, UInt8.reduceToNat]; omega
  have h2 : (0xC2 ≤ lead && lead ≤ 0xDF) = true := by
    simpa [UInt8.le_iff_toNat_le] using And.intro hl hl'
  rw [unit.eq_def, if_neg h1, if_pos h2]
  exact if_pos hb

theorem unit_three (hl : 0xE0 ≤ lead.toNat) (hl' : lead.toNat ≤ 0xEF)
    (hb : followsLead lead b = true) (hd : isContinuation d = true) :
    unit lead (b :: d :: rest) =
      (some (Char.ofNat ((lead.toNat % 16 * 64 + b.toNat % 64) * 64 + d.toNat % 64)), 2) := by
  have h1 : ¬ lead < 0x80 := by simp only [UInt8.lt_iff_toNat_lt, UInt8.reduceToNat]; omega
  have h2 : ¬ (0xC2 ≤ lead && lead ≤ 0xDF) = true := by
    simp only [Bool.and_eq_true, decide_eq_true_eq, UInt8.le_iff_toNat_le, UInt8.reduceToNat]
    omega
  have h3 : (0xE0 ≤ lead && lead ≤ 0xEF) = true := by
    simpa [UInt8.le_iff_toNat_le] using And.intro hl hl'
  rw [unit.eq_def, if_neg h1, if_neg h2, if_pos h3]
  exact (if_pos hb).trans (if_pos hd)

theorem unit_four (hl : 0xF0 ≤ lead.toNat) (hl' : lead.toNat ≤ 0xF4)
    (hb : followsLead lead b = true) (hd : isContinuation d = true)
    (he : isContinuation e = true) :
    unit lead (b :: d :: e :: rest) =
      (some (Char.ofNat
        (((lead.toNat % 8 * 64 + b.toNat % 64) * 64 + d.toNat % 64) * 64 + e.toNat % 64)), 3) := by
  have h1 : ¬ lead < 0x80 := by simp only [UInt8.lt_iff_toNat_lt, UInt8.reduceToNat]; omega
  have h2 : ¬ (0xC2 ≤ lead && lead ≤ 0xDF) = true := by
    simp only [Bool.and_eq_true, decide_eq_true_eq, UInt8.le_iff_toNat_le, UInt8.reduceToNat]
    omega
  have h3 : ¬ (0xE0 ≤ lead && lead ≤ 0xEF) = true := by
    simp only [Bool.and_eq_true, decide_eq_true_eq, UInt8.le_iff_toNat_le, UInt8.reduceToNat]
    omega
  have h4 : (0xF0 ≤ lead && lead ≤ 0xF4) = true := by
    simpa [UInt8.le_iff_toNat_le] using And.intro hl hl'
  rw [unit.eq_def, if_neg h1, if_neg h2, if_neg h3, if_pos h4]
  exact (if_pos hb).trans ((if_pos hd).trans (if_pos he))

theorem unit_of_encodes {c : Char} {tail : Bytes} (h : Encodes c (lead :: tail)) (rest : Bytes) :
    unit lead (tail ++ rest) = (some c, tail.length) := by
  have hc := number_char c
  have ofNat {n : Nat} (hn : n = c.toNat) : Char.ofNat n = c := by rw [hn, Char.ofNat_toNat]
  cases h with
  | one h ha =>
    have h0 : lead < 0x80 := UInt8.lt_iff_toNat_lt.2 (by simpa [ha] using h)
    rw [List.nil_append, unit_of_lt h0, ofNat ha, List.length_nil]
  | two h h' ha hb =>
    refine (unit_two (by omega) (by omega) (isContinuation_iff.2 (by omega))).trans ?_
    rw [ofNat (by omega)]
    rfl
  | three h h' ha hb hd =>
    refine (unit_three (by omega) (by omega) (followsLead_iff.2 (by omega))
      (isContinuation_iff.2 (by omega))).trans ?_
    rw [ofNat (by omega)]
    rfl
  | four h ha hb hd he =>
    refine (unit_four (by omega) (by omega) (followsLead_iff.2 (by omega))
      (isContinuation_iff.2 (by omega)) (isContinuation_iff.2 (by omega))).trans ?_
    rw [ofNat (by omega)]
    rfl

theorem encodes_ofNat {n : Nat} {bytes : Bytes} (hn : n.isValidChar)
    (h : ∀ c : Char, c.toNat = n → Encodes c bytes) : Encodes (Char.ofNat n) bytes :=
  h _ (congrArg Char.toNat (dif_pos hn))

theorem encodes_of_unit {c : Char} {n : Nat} (h : unit lead rest = (some c, n)) :
    ∃ tail more, rest = tail ++ more ∧ tail.length = n ∧ Encodes c (lead :: tail) := by
  unfold unit at h
  repeat' split at h
  all_goals cases h
  all_goals
    simp only [Bool.and_eq_true, decide_eq_true_eq, UInt8.le_iff_toNat_le, UInt8.lt_iff_toNat_lt,
      UInt8.reduceToNat, isContinuation_iff, followsLead_iff, payload, Nat.pow_eq, Nat.reducePow] at *
  · exact ⟨[], rest, rfl, rfl, encodes_ofNat (.inl (by omega)) fun c hc => .one (by omega) hc.symm⟩
  · refine ⟨[_], _, rfl, rfl, encodes_ofNat (.inl (by omega)) fun c hc => ?_⟩
    exact .two (by omega) (by omega) (by omega) (by omega)
  · refine ⟨[_, _], _, rfl, rfl, encodes_ofNat (by unfold Nat.isValidChar; omega) fun c hc => ?_⟩
    exact .three (by omega) (by omega) (by omega) (by omega) (by omega)
  · refine ⟨[_, _, _], _, rfl, rfl, encodes_ofNat (by unfold Nat.isValidChar; omega) fun c hc => ?_⟩
    exact .four (by omega) (by omega) (by omega) (by omega) (by omega)

end

theorem exists_encodes (c : Char) : ∃ lead tail, Encodes c (lead :: tail) := by
  have h : Encodes c (encodeChar c) := encodes_iff.2 rfl
  cases hb : encodeChar c with
  | nil => rw [hb] at h; cases h
  | cons lead tail => exact ⟨lead, tail, hb ▸ h⟩

theorem Encodes.lead {c : Char} {lead : UInt8} {tail : Bytes} (h : Encodes c (lead :: tail)) :
    isContinuation lead = false := by
  have hc := number_char c
  rw [← Bool.not_eq_true, isContinuation_iff]
  cases h <;> omega

theorem Encodes.tail {c : Char} {lead : UInt8} {tail : Bytes} (h : Encodes c (lead :: tail)) :
    ∀ b ∈ tail, isContinuation b = true := by
  have hc := number_char c
  simp only [isContinuation_iff]
  cases h <;> simp <;> omega

theorem mem_encodeChar {c : Char} {b : UInt8} (h : b ∈ encodeChar c) :
    0x80 ≤ b.toNat ∨ b.toNat = c.toNat := by
  have hc : Encodes c (encodeChar c) := encodes_iff.2 rfl
  generalize encodeChar c = bytes at h hc
  cases hc <;> simp only [List.mem_cons, List.not_mem_nil, or_false] at h <;> grind

theorem decode?_cons (lead : UInt8) (rest : Bytes) :
    decode? (lead :: rest) = (unit lead rest).1.bind fun c =>
      (decode? (rest.drop (unit lead rest).2)).map (c :: ·) := by
  rw [decode?, units_cons, List.mapM_cons]
  cases (unit lead rest).1 with
  | none => rfl
  | some c =>
    cases h : (units (rest.drop (unit lead rest).2)).mapM id <;> simp [decode?, h]

theorem decode?_encodeChar_append (c : Char) (rest : Bytes) :
    decode? (encodeChar c ++ rest) = (decode? rest).map (c :: ·) := by
  obtain ⟨lead, tail, h⟩ := exists_encodes c
  rw [encodes_iff.1 h, List.cons_append, decode?_cons, unit_of_encodes h, List.drop_left]
  rfl

theorem decode?_encode (text : List Char) : decode? (encode text) = some text := by
  induction text with
  | nil => simp [decode?, encode]
  | cons c text ih =>
    rw [encode, List.flatMap_cons, decode?_encodeChar_append]
    exact congrArg (·.map (c :: ·)) ih

theorem eq_encode_of_decode? {bytes : Bytes} {text : List Char} (h : decode? bytes = some text) :
    bytes = encode text := by
  induction text generalizing bytes with
  | nil =>
    cases bytes with
    | nil => rfl
    | cons lead rest =>
      rw [decode?_cons] at h
      cases hu : (unit lead rest).1 <;> simp [hu] at h
  | cons c text ih =>
    cases bytes with
    | nil => simp [decode?] at h
    | cons lead rest =>
      rw [decode?_cons] at h
      obtain ⟨d, hd, h⟩ := Option.bind_eq_some_iff.1 h
      obtain ⟨text', ht, h⟩ := Option.map_eq_some_iff.1 h
      cases h
      obtain ⟨tail, more, rfl, -, he⟩ := encodes_of_unit (Prod.ext hd rfl)
      rw [unit_of_encodes he, List.drop_left] at ht
      rw [encode, List.flatMap_cons, encodes_iff.1 he, ih ht]
      rfl

theorem decode?_eq_some_iff {bytes : Bytes} {text : List Char} :
    decode? bytes = some text ↔ bytes = encode text :=
  ⟨eq_encode_of_decode?, fun h => h ▸ decode?_encode text⟩

def WellFormed (bytes : Bytes) : Prop := ∃ text, bytes = encode text

def Starts : Bytes → Prop
  | [] => True
  | b :: _ => isContinuation b = false

theorem encode_append (s t : List Char) : encode (s ++ t) = encode s ++ encode t :=
  List.flatMap_append

theorem encode_cons (c : Char) (text : List Char) :
    encode (c :: text) = encodeChar c ++ encode text := List.flatMap_cons

theorem encode_injective {s t : List Char} (h : encode s = encode t) : s = t := by
  have hs := decode?_encode s
  rw [h, decode?_encode] at hs
  exact (Option.some.inj hs).symm

theorem starts_encodeChar (c : Char) (rest : Bytes) : Starts (encodeChar c ++ rest) := by
  obtain ⟨lead, tail, h⟩ := exists_encodes c
  rw [encodes_iff.1 h]
  exact h.lead

namespace WellFormed

variable {xs ys : Bytes} {c : Char}

theorem nil : WellFormed [] := ⟨[], rfl⟩

theorem encodeChar (c : Char) : WellFormed (encodeChar c) := ⟨[c], by simp [encode]⟩

theorem append (hx : WellFormed xs) (hy : WellFormed ys) : WellFormed (xs ++ ys) := by
  obtain ⟨s, rfl⟩ := hx
  obtain ⟨t, rfl⟩ := hy
  exact ⟨s ++ t, (encode_append s t).symm⟩

theorem of_encodeChar_append (h : WellFormed (Utf8.encodeChar c ++ ys)) : WellFormed ys := by
  obtain ⟨text, h⟩ := h
  have hd := decode?_encodeChar_append c ys
  rw [h, decode?_encode] at hd
  obtain ⟨t, ht, -⟩ := Option.map_eq_some_iff.1 hd.symm
  exact ⟨t, eq_encode_of_decode? ht⟩

theorem of_append (hy : Starts ys) (h : WellFormed (xs ++ ys)) : WellFormed xs ∧ WellFormed ys := by
  obtain ⟨text, h⟩ := h
  induction text generalizing xs with
  | nil =>
    obtain ⟨rfl, rfl⟩ := List.append_eq_nil_iff.1 h
    exact ⟨nil, nil⟩
  | cons c text ih =>
    rw [encode_cons] at h
    rcases List.append_eq_append_iff.1 h with ⟨as, hc, rfl⟩ | ⟨bs, rfl, hb⟩
    · cases xs with
      | nil => exact ⟨nil, ⟨c :: text, by rw [encode_cons, hc]; rfl⟩⟩
      | cons x xs =>
        -- the cut does not go through the character, as all but its first byte continue it
        cases as with
        | nil => exact ⟨⟨[c], by simpa [encode] using hc.symm⟩, ⟨text, rfl⟩⟩
        | cons b as =>
          have he : Encodes c (x :: (xs ++ b :: as)) := encodes_iff.2 hc
          have hb : isContinuation b = true := he.tail b (by simp)
          exact absurd (hb.symm.trans hy) (by decide)
    · obtain ⟨hx, hy⟩ := ih hb.symm
      exact ⟨(encodeChar c).append hx, hy⟩

end WellFormed

end AttributeTrees.Text.Utf8
