import AttributeTrees.Proofs.Json.Stream.Scanning
import AttributeTrees.Proofs.Text.Utf8
/-!
# String literals

A literal is a quote, items and a quote. An item is a byte that stands for itself or an escape that
stands for a character, which two escapes may name by its surrogates. The scan goes through the
items one by one and asks only behind the closing quote whether what they denote is a text. That
is so if and only if each run of bytes between the escapes is one by itself, as no character goes on
behind an escape.
Main statement: the scan finds a string if and only if a literal for it stands there.
-/
namespace AttributeTrees.Json.Stream

open Text.Utf8 (Bytes WellFormed Starts encodeChar)

inductive HexDigit : UInt8 → Nat → Prop where
  | decimal {b : UInt8} {d : Nat} : d < 10 → b.toNat = 0x30 + d → HexDigit b d
  | upper {b : UInt8} {d : Nat} : d < 6 → b.toNat = 0x41 + d → HexDigit b (10 + d)
  | lower {b : UInt8} {d : Nat} : d < 6 → b.toNat = 0x61 + d → HexDigit b (10 + d)

inductive FourDigits : Bytes → Nat → Prop where
  | intro {a b c d : UInt8} {w x y z : Nat} :
    HexDigit a w → HexDigit b x → HexDigit c y → HexDigit d z →
    FourDigits [a, b, c, d] (w * 0x1000 + x * 0x100 + y * 0x10 + z)

inductive ShortEscape : UInt8 → Char → Prop where
  | quote : ShortEscape 0x22 '"'
  | backslash : ShortEscape 0x5C '\\'
  | slash : ShortEscape 0x2F '/'
  | backspace : ShortEscape 0x62 '\x08'
  | formFeed : ShortEscape 0x66 '\x0c'
  | lineFeed : ShortEscape 0x6E '\n'
  | carriageReturn : ShortEscape 0x72 '\r'
  | tab : ShortEscape 0x74 '\t'

/-- `Escape word c`: the bytes `word` are an escape for the character `c`. No character has the
number of a surrogate, so the digits of a single `\u` are none. -/
inductive Escape : Bytes → Char → Prop where
  | short {b : UInt8} {c : Char} : ShortEscape b c → Escape [0x5C, b] c
  | unicode {digits : Bytes} {c : Char} : FourDigits digits c.toNat →
    Escape (0x5C :: 0x75 :: digits) c
  | pair {first second : Bytes} {high low : Nat} {c : Char} :
    FourDigits first high → FourDigits second low →
    0xD800 ≤ high → high < 0xDC00 → 0xDC00 ≤ low → low < 0xE000 →
    c.toNat = 0x10000 + (high - 0xD800) * 0x400 + (low - 0xDC00) →
    Escape (0x5C :: 0x75 :: (first ++ 0x5C :: 0x75 :: second)) c

theorem hexValue?_eq_some_iff {b : UInt8} {d : Nat} : hexValue? b = some d ↔ HexDigit b d := by
  simp only [hexValue?, isDigit, Bool.and_eq_true, decide_eq_true_eq, UInt8.le_iff_toNat_le,
    UInt8.reduceToNat]
  constructor
  · intro h
    repeat' split at h
    · cases h; exact .decimal (by omega) (by omega)
    · cases h; rw [Nat.add_comm]; exact .upper (by omega) (by omega)
    · cases h; rw [Nat.add_comm]; exact .lower (by omega) (by omega)
    · cases h
  · rintro (⟨hd, hb⟩ | ⟨hd, hb⟩ | ⟨hd, hb⟩)
    · rw [if_pos (by omega), hb]; simp
    · rw [if_neg (by omega), if_pos (by omega), hb]; simp; omega
    · rw [if_neg (by omega), if_neg (by omega), if_pos (by omega), hb]; simp; omega

theorem FourDigits.found {digits : Bytes} {n : Nat} (h : FourDigits digits n) (rest : Bytes) :
    fourDigits (digits ++ rest) = .found n := by
  obtain ⟨ha, hb, hc, hd⟩ := h
  simp only [List.cons_append, fourDigits, hexValue?_eq_some_iff.2 ha, hexValue?_eq_some_iff.2 hb,
    hexValue?_eq_some_iff.2 hc, hexValue?_eq_some_iff.2 hd]
  exact congrArg Part.found (by omega)

theorem FourDigits.length {digits : Bytes} {n : Nat} (h : FourDigits digits n) :
    digits.length = 4 := by
  cases h; rfl

theorem FourDigits.lt {digits : Bytes} {n : Nat} (h : FourDigits digits n) : n < 0x10000 := by
  have digit {b : UInt8} {d : Nat} (h : HexDigit b d) : d < 16 := by cases h <;> omega
  obtain ⟨ha, hb, hc, hd⟩ := h
  have := digit ha
  have := digit hb
  have := digit hc
  have := digit hd
  omega

theorem fourDigits_of_found {bytes : Bytes} {n : Nat} (h : fourDigits bytes = .found n) :
    ∃ digits rest, bytes = digits ++ rest ∧ FourDigits digits n := by
  unfold fourDigits at h
  split at h
  · next a b c d rest =>
    split at h
    · next w x y z ha hb hc hd =>
      cases h
      refine ⟨[a, b, c, d], rest, rfl, ?_⟩
      have hf := FourDigits.intro (hexValue?_eq_some_iff.1 ha) (hexValue?_eq_some_iff.1 hb)
        (hexValue?_eq_some_iff.1 hc) (hexValue?_eq_some_iff.1 hd)
      rwa [show ((w * 16 + x) * 16 + y) * 16 + z = w * 0x1000 + x * 0x100 + y * 0x10 + z by omega]
    · cases h
  · split at h <;> cases h

theorem shortEscape?_eq_some_iff {b byte : UInt8} :
    shortEscape? b = some byte ↔ ∃ c, ShortEscape b c ∧ encodeChar c = [byte] := by
  constructor
  · intro h
    simp only [shortEscape?, Bool.or_eq_true, beq_iff_eq] at h
    repeat' split at h
    · next hb =>
      cases h
      obtain (rfl | rfl) | rfl := hb
      · exact ⟨_, .quote, rfl⟩
      · exact ⟨_, .backslash, rfl⟩
      · exact ⟨_, .slash, rfl⟩
    · next hb => cases h; subst hb; exact ⟨_, .backspace, rfl⟩
    · next hb => cases h; subst hb; exact ⟨_, .formFeed, rfl⟩
    · next hb => cases h; subst hb; exact ⟨_, .lineFeed, rfl⟩
    · next hb => cases h; subst hb; exact ⟨_, .carriageReturn, rfl⟩
    · next hb => cases h; subst hb; exact ⟨_, .tab, rfl⟩
    · cases h
  · rintro ⟨c, h, hc⟩
    cases h <;> (cases hc; rfl)

theorem ShortEscape.ne_u {b : UInt8} {c : Char} (h : ShortEscape b c) : b ≠ 0x75 := by
  cases h <;> decide

theorem ShortEscape.byte {b : UInt8} {c : Char} (h : ShortEscape b c) :
    ∃ byte, encodeChar c = [byte] := by
  cases h <;> exact ⟨_, rfl⟩

theorem lowSurrogate_of_found {bytes : Bytes} {low : Nat} (h : lowSurrogate bytes = .found low) :
    ∃ second rest, bytes = 0x5C :: 0x75 :: (second ++ rest) ∧ FourDigits second low ∧
      0xDC00 ≤ low ∧ low < 0xE000 := by
  unfold lowSurrogate at h
  split at h
  · cases h
  · split at h <;> cases h
  · next b u rest =>
    split at h
    · next hbu =>
      split at h
      · next hd =>
        split at h
        · next hl =>
          cases h
          simp only [Bool.and_eq_true, beq_iff_eq, decide_eq_true_eq] at hbu hl
          obtain ⟨second, rest, rfl, hs⟩ := fourDigits_of_found hd
          exact ⟨second, rest, by rw [hbu.1, hbu.2], hs, hl⟩
        · cases h
      · cases h
      · cases h
    · cases h

theorem FourDigits.lowSurrogate {second : Bytes} {low : Nat} (h : FourDigits second low)
    (hl : 0xDC00 ≤ low) (hl' : low < 0xE000) (rest : Bytes) :
    lowSurrogate (0x5C :: 0x75 :: (second ++ rest)) = .found low := by
  simp [Stream.lowSurrogate, h.found, hl, hl']

theorem escape_of_found {bytes : Bytes} {c : Char} {n : Nat}
    (h : unicodeEscape bytes = .found (c, n)) :
    ∃ digits rest, bytes = digits ++ rest ∧ n = digits.length ∧
      Escape (0x5C :: 0x75 :: digits) c := by
  have ofNat {k : Nat} (hk : k.isValidChar) : (Char.ofNat k).toNat = k :=
    congrArg Char.toNat (dif_pos hk)
  unfold unicodeEscape at h
  split at h
  · cases h
  · cases h
  · next high hd =>
    obtain ⟨first, rest, rfl, hf⟩ := fourDigits_of_found hd
    have hdrop : (first ++ rest).drop 4 = rest := by rw [← hf.length, List.drop_left]
    rw [hdrop] at h
    split at h
    · next hh =>
      simp only [Bool.and_eq_true, decide_eq_true_eq] at hh
      split at h
      · next low hs =>
        obtain ⟨rfl, rfl⟩ := Prod.mk.inj (Part.found.inj h)
        obtain ⟨second, rest, rfl, hs, hl, hl'⟩ := lowSurrogate_of_found hs
        refine ⟨first ++ 0x5C :: 0x75 :: second, rest, by simp, ?_, ?_⟩
        · simp [hf.length, hs.length]
        · exact .pair hf hs hh.1 hh.2 hl hl' (ofNat (by unfold Nat.isValidChar; omega))
      · cases h
      · cases h
    · next hh =>
      split at h
      · cases h
      · next hh' =>
        cases h
        simp only [Bool.and_eq_true, decide_eq_true_eq] at hh hh'
        have hb := hf.lt
        refine ⟨first, rest, rfl, hf.length.symm, .unicode ?_⟩
        rwa [ofNat (by unfold Nat.isValidChar; omega)]

theorem Escape.found {digits : Bytes} {c : Char} (h : Escape (0x5C :: 0x75 :: digits) c)
    (rest : Bytes) : unicodeEscape (digits ++ rest) = .found (c, digits.length) := by
  have hc := Text.Utf8.number_char c
  generalize hw : (0x5C :: 0x75 :: digits : Bytes) = word at h
  cases h with
  | short h =>
    cases hw
    exact absurd rfl h.ne_u
  | unicode h =>
    cases hw
    have hhigh : ¬ (0xD800 ≤ c.toNat && c.toNat < 0xDC00) := by simp; omega
    have hlow : ¬ (0xDC00 ≤ c.toNat && c.toNat < 0xE000) := by simp; omega
    simp only [unicodeEscape, h.found, h.length]
    rw [if_neg hhigh, if_neg hlow, Char.ofNat_toNat]
  | @pair first second high low c hf hs hh hh' hl hl' hv =>
    cases hw
    have hn : 0x10000 + (high - 0xD800) * 1024 + (low - 0xDC00) = c.toNat := hv.symm
    have hd : (first ++ 0x5C :: 0x75 :: (second ++ rest)).drop 4 =
        0x5C :: 0x75 :: (second ++ rest) := by
      rw [← hf.length, List.drop_left]
    simp only [unicodeEscape, List.append_assoc, List.cons_append, hf.found, hd,
      hs.lowSurrogate hl hl', hh, hh', decide_true, Bool.and_true, if_true, hn, Char.ofNat_toNat]
    simp [hf.length, hs.length]

inductive Item where
  | raw (b : UInt8) (control : 0x20 ≤ b) (quote : b ≠ 0x22) (backslash : b ≠ 0x5C)
  | escape (word : Bytes) (c : Char) (escape : Escape word c)

namespace Item

def spelled : Item → Bytes
  | raw b _ _ _ => [b]
  | escape word _ _ => word

def denoted : Item → Bytes
  | raw b _ _ _ => [b]
  | escape _ c _ => encodeChar c

def isRaw : Item → Bool
  | raw _ _ _ _ => true
  | escape _ _ _ => false

theorem spelled_ne_nil (item : Item) : item.spelled ≠ [] := by
  cases item with
  | raw b => exact List.cons_ne_nil _ _
  | escape word c h => cases h <;> exact List.cons_ne_nil _ _

theorem denoted_of_isRaw {item : Item} (h : item.isRaw = true) : item.denoted = item.spelled := by
  cases item with
  | raw b => rfl
  | escape word c => cases h

theorem exists_escape_of_not_isRaw {item : Item} (h : item.isRaw = false) :
    ∃ c, item.denoted = encodeChar c := by
  cases item with
  | raw b => cases h
  | escape word c => exact ⟨c, rfl⟩

end Item

def spelling (items : List Item) : Bytes := items.flatMap Item.spelled

def meaning (items : List Item) : Bytes := items.flatMap Item.denoted

@[simp] theorem spelling_nil : spelling [] = [] := rfl

@[simp] theorem meaning_nil : meaning [] = [] := rfl

@[simp] theorem spelling_cons (item : Item) (items : List Item) :
    spelling (item :: items) = item.spelled ++ spelling items := List.flatMap_cons

@[simp] theorem meaning_cons (item : Item) (items : List Item) :
    meaning (item :: items) = item.denoted ++ meaning items := List.flatMap_cons

@[simp] theorem spelling_append (items more : List Item) :
    spelling (items ++ more) = spelling items ++ spelling more := List.flatMap_append

@[simp] theorem meaning_append (items more : List Item) :
    meaning (items ++ more) = meaning items ++ meaning more := List.flatMap_append

theorem meaning_of_isRaw {run : List Item} (h : ∀ item ∈ run, item.isRaw = true) :
    meaning run = spelling run := by
  induction run with
  | nil => rfl
  | cons item run ih =>
    obtain ⟨hi, hr⟩ := List.forall_mem_cons.1 h
    rw [meaning_cons, spelling_cons, Item.denoted_of_isRaw hi, ih hr]

section
variable {offset done : Nat} {atEnd : Bool} {decoded : Bytes}

theorem scanString_item (item : Item) (rest : Bytes) :
    scanString offset atEnd decoded done (item.spelled ++ rest) =
      scanString offset atEnd (item.denoted.reverse ++ decoded) (done + item.spelled.length)
        rest := by
  cases item with
  | raw b hc hq hb =>
    have hc' : ¬ b < 0x20 := UInt8.not_lt.2 hc
    exact (scanString_byte hq hb).trans (if_neg hc')
  | escape word c h =>
    cases h with
    | @short b c h =>
      obtain ⟨byte, hbyte⟩ := h.byte
      have hb : shortEscape? b = some byte := shortEscape?_eq_some_iff.2 ⟨c, h, hbyte⟩
      simp only [Item.spelled, Item.denoted, hbyte]
      exact scanString_short h.ne_u hb
    | @unicode digits c h =>
      have hu := (Escape.unicode h).found rest
      simp only [Item.spelled, Item.denoted, List.cons_append, List.length_cons]
      rw [scanString_unicode hu, List.drop_left, Nat.add_assoc, Nat.add_comm 2]
    | @pair first second high low c hf hs hh hh' hl hl' hv =>
      have hu := (Escape.pair hf hs hh hh' hl hl' hv).found rest
      simp only [Item.spelled, Item.denoted, List.cons_append, List.length_cons]
      rw [scanString_unicode hu, List.drop_left, Nat.add_assoc, Nat.add_comm 2]

theorem scanString_spelling (items : List Item) (rest : Bytes) :
    scanString offset atEnd decoded done (spelling items ++ rest) =
      scanString offset atEnd ((meaning items).reverse ++ decoded)
        (done + (spelling items).length) rest := by
  induction items generalizing decoded done with
  | nil => rfl
  | cons item items ih =>
    rw [spelling_cons, List.append_assoc, scanString_item, ih]
    simp [Nat.add_assoc]

end

inductive Cut : Bytes → Prop where
  | ended : Cut []
  | backslash : Cut [0x5C]
  | digits {rest : Bytes} : unicodeEscape rest = .more → Cut (0x5C :: 0x75 :: rest)

inductive Bad : Bytes → Prop where
  | unknown {e : UInt8} (rest : Bytes) : e ≠ 0x75 → shortEscape? e = none → Bad (e :: rest)
  | digits {rest : Bytes} : unicodeEscape rest = .never → Bad (0x75 :: rest)

inductive Break : Bytes → Prop where
  | quote (rest : Bytes) : Break (0x22 :: rest)
  | control {b : UInt8} (rest : Bytes) : b < 0x20 → Break (b :: rest)
  | cut {rest : Bytes} : Cut rest → Break rest
  | bad {rest : Bytes} : Bad rest → Break (0x5C :: rest)

theorem break_or_item (bytes : Bytes) :
    Break bytes ∨ ∃ (item : Item) (rest : Bytes), bytes = item.spelled ++ rest := by
  rcases bytes with _ | ⟨b, rest⟩
  · exact .inl (.cut .ended)
  by_cases hq : b = 0x22
  · exact .inl (hq ▸ .quote rest)
  by_cases hb : b = 0x5C
  · subst hb
    rcases rest with _ | ⟨e, rest⟩
    · exact .inl (.cut .backslash)
    by_cases he : e = 0x75
    · subst he
      cases hu : unicodeEscape rest with
      | more => exact .inl (.cut (.digits hu))
      | never => exact .inl (.bad (.digits hu))
      | found value =>
        obtain ⟨c, n⟩ := value
        obtain ⟨digits, rest, rfl, -, h⟩ := escape_of_found hu
        exact .inr ⟨.escape _ c h, rest, rfl⟩
    · cases hs : shortEscape? e with
      | none => exact .inl (.bad (.unknown rest he hs))
      | some byte =>
        obtain ⟨c, h, -⟩ := shortEscape?_eq_some_iff.1 hs
        exact .inr ⟨.escape _ c (.short h), rest, rfl⟩
  · by_cases hc : b < 0x20
    · exact .inl (.control rest hc)
    · exact .inr ⟨.raw b (UInt8.not_lt.1 hc) hq hb, rest, rfl⟩

/-- Any bytes begin with items, up to where none stands. -/
theorem exists_items (bytes : Bytes) :
    ∃ items rest, bytes = spelling items ++ rest ∧ Break rest := by
  rcases break_or_item bytes with h | ⟨item, rest, hbytes⟩
  · exact ⟨[], bytes, rfl, h⟩
  · obtain ⟨items, rest', hrest, h⟩ := exists_items rest
    exact ⟨item :: items, rest', by rw [hbytes, hrest, spelling_cons, List.append_assoc], h⟩
termination_by bytes.length
decreasing_by
  have hl := List.length_pos_iff.2 item.spelled_ne_nil
  rw [hbytes, List.length_append]
  omega

section
variable {offset done : Nat} {atEnd : Bool} {decoded rest : Bytes}

theorem scanString_control {b : UInt8} (hb : b < 0x20) :
    scanString offset atEnd decoded done (b :: rest) =
      .fault (.unexpectedByte b (offset + done)) := by
  have ne (c : UInt8) (hc : ¬ c < 0x20) : b ≠ c := fun h => hc (h ▸ hb)
  rw [scanString_byte (ne 0x22 (by decide)) (ne 0x5C (by decide)), if_pos hb]

theorem Cut.scanString (h : Cut rest) :
    scanString offset atEnd decoded done rest = .incomplete atEnd := by
  rw [scanString.eq_def]
  cases h with
  | ended => rfl
  | backslash => rfl
  | digits hu => simp [hu]

theorem Bad.scanString (h : Bad rest) :
    scanString offset atEnd decoded done (0x5C :: rest) = .fault (.badEscape (offset + done)) := by
  cases h with
  | unknown rest he hs => exact scanString_not_short he hs
  | digits hu => exact scanString_not_unicode hu

theorem Bad.not_escape (h : Bad rest) {word : Bytes} {c : Char} (he : Escape word c)
    (more behind : Bytes) : 0x5C :: rest ++ more ≠ word ++ behind := by
  intro heq
  have unicode {digits : Bytes} (he : Escape (0x5C :: 0x75 :: digits) c)
      (heq : rest ++ more = 0x75 :: (digits ++ behind)) : False := by
    cases h with
    | unknown rest hu _ => exact hu (List.cons.inj heq).1
    | @digits rest hu =>
      have hsame : rest ++ more = digits ++ behind := (List.cons.inj heq).2
      have hd := he.found behind
      rw [← hsame, unicodeEscape_append (by simp [hu]), hu] at hd
      cases hd
  cases he with
  | short hs =>
    cases h with
    | unknown rest hu hn =>
      obtain ⟨byte, hbyte⟩ := hs.byte
      obtain ⟨rfl, -⟩ := List.cons.inj (List.cons.inj heq).2
      rw [shortEscape?_eq_some_iff.2 ⟨c, hs, hbyte⟩] at hn
      cases hn
    | digits => exact hs.ne_u (List.cons.inj (List.cons.inj heq).2).1.symm
  | unicode hf => exact unicode (.unicode hf) (List.cons.inj heq).2
  | pair hf hs hh hh' hl hl' hv =>
    exact unicode (.pair hf hs hh hh' hl hl' hv) (List.cons.inj heq).2

end

/-- `RawRun items run`: the items `run` stand for themselves, and no such item is next to them. -/
inductive RawRun (items run : List Item) : Prop where
  | intro (before after : List Item) : items = before ++ run ++ after →
    (∀ item ∈ run, item.isRaw = true) → (∀ item ∈ before.getLast?, item.isRaw = false) →
    (∀ item ∈ after.head?, item.isRaw = false) → RawRun items run

theorem starts_meaning {items : List Item} (h : ∀ item ∈ items.head?, item.isRaw = false) :
    Starts (meaning items) := by
  cases items with
  | nil => trivial
  | cons item items =>
    obtain ⟨c, hc⟩ := Item.exists_escape_of_not_isRaw (h item rfl)
    rw [meaning_cons, hc]
    exact Text.Utf8.starts_encodeChar c _

theorem wellFormed_behind {items : List Item} {bytes : Bytes}
    (h : ∀ item ∈ items.getLast?, item.isRaw = false)
    (hw : WellFormed (meaning items ++ bytes)) : WellFormed bytes := by
  rcases List.eq_nil_or_concat items with rfl | ⟨items, item, rfl⟩
  · exact hw
  · obtain ⟨c, hc⟩ := Item.exists_escape_of_not_isRaw (h item (by simp))
    have hs : Starts (encodeChar c ++ bytes) := Text.Utf8.starts_encodeChar c bytes
    simp only [List.concat_eq_append, meaning_append, meaning_cons, hc, meaning_nil,
      List.append_nil, List.append_assoc] at hw
    exact (WellFormed.of_append hs hw).2.of_encodeChar_append

theorem RawRun.wellFormed {items run : List Item} (hr : RawRun items run)
    (h : WellFormed (meaning items)) : WellFormed (spelling run) := by
  obtain ⟨before, after, rfl, hraw, hb, ha⟩ := hr
  rw [meaning_append, meaning_append, List.append_assoc, meaning_of_isRaw hraw] at h
  exact (WellFormed.of_append (starts_meaning ha) (wellFormed_behind hb h)).1

theorem RawRun.behind {items run : List Item} {item : Item} (hr : RawRun items run)
    (hi : item.isRaw = false) (front : List Item) : RawRun (front ++ item :: items) run := by
  obtain ⟨before, after, rfl, hraw, hb, ha⟩ := hr
  refine ⟨front ++ item :: before, after, by simp, hraw, fun last hl => ?_, ha⟩
  rcases List.eq_nil_or_concat before with rfl | ⟨before, end', rfl⟩
  · simp only [List.getLast?_concat, Option.mem_some_iff] at hl
    exact hl ▸ hi
  · rw [List.concat_eq_append] at hb hl
    rw [← List.cons_append, ← List.append_assoc, List.getLast?_concat] at hl
    exact hb last (List.getLast?_concat.trans hl)

theorem exists_run (items : List Item) : ∃ run rest, items = run ++ rest ∧
    (∀ item ∈ run, item.isRaw = true) ∧ ∀ item ∈ rest.head?, item.isRaw = false := by
  refine ⟨items.takeWhile Item.isRaw, items.dropWhile Item.isRaw,
    List.takeWhile_append_dropWhile.symm,
    List.all_eq_true.1 (List.all_takeWhile (p := Item.isRaw)), fun item hi => ?_⟩
  have hnot := List.head?_dropWhile_not Item.isRaw items
  rw [Option.mem_def.1 hi] at hnot
  simpa using hnot

theorem wellFormed_meaning (items : List Item)
    (h : ∀ run, RawRun items run → WellFormed (spelling run)) : WellFormed (meaning items) := by
  obtain ⟨run, rest, hitems, hraw, hnot⟩ := exists_run items
  have hfirst : WellFormed (spelling run) := h run ⟨[], rest, hitems, hraw, by simp, hnot⟩
  cases rest with
  | nil =>
    rw [hitems, List.append_nil, meaning_of_isRaw hraw]
    exact hfirst
  | cons item rest =>
    have hi : item.isRaw = false := hnot item rfl
    obtain ⟨c, hc⟩ := Item.exists_escape_of_not_isRaw hi
    have hlater : WellFormed (meaning rest) :=
      wellFormed_meaning rest fun later hl => h later (hitems ▸ hl.behind hi run)
    rw [hitems, meaning_append, meaning_cons, meaning_of_isRaw hraw, hc]
    exact hfirst.append ((WellFormed.encodeChar c).append hlater)
termination_by items.length
decreasing_by
  rw [hitems, List.length_append, List.length_cons]
  omega

theorem wellFormed_meaning_iff {items : List Item} : WellFormed (meaning items) ↔
    ∀ run, RawRun items run → WellFormed (spelling run) :=
  ⟨fun h _ hr => hr.wellFormed h, wellFormed_meaning items⟩

section
variable {offset : Nat} {atEnd : Bool}

theorem closeString_eq_token_iff {decoded : Bytes} {t : String} {k n : Nat} :
    closeString offset decoded k = .token (.string t) n ↔
      n = k ∧ Text.Utf8.encodeString t = decoded := by
  unfold closeString Text.Utf8.encodeString
  cases hd : Text.Utf8.decode? decoded with
  | none =>
    refine ⟨nofun, fun ⟨_, ht⟩ => ?_⟩
    rw [Text.Utf8.decode?_eq_some_iff.2 ht.symm] at hd
    cases hd
  | some text =>
    have hdecoded := Text.Utf8.eq_encode_of_decode? hd
    constructor
    · intro h
      cases h
      exact ⟨rfl, by rw [String.toList_ofList, hdecoded]⟩
    · rintro ⟨rfl, ht⟩
      rw [Text.Utf8.encode_injective (hdecoded.symm.trans ht.symm)]
      simp

theorem closeString_eq_fault_iff {decoded : Bytes} {k : Nat} {f : Fault} :
    closeString offset decoded k = .fault f ↔ f = .badEncoding offset ∧ ¬ WellFormed decoded := by
  unfold closeString
  cases hd : Text.Utf8.decode? decoded with
  | none =>
    have hw : ¬ WellFormed decoded := fun ⟨text, ht⟩ => by
      rw [Text.Utf8.decode?_eq_some_iff.2 ht] at hd
      cases hd
    exact ⟨fun h => by cases h; exact ⟨rfl, hw⟩, fun ⟨hf, _⟩ => by rw [hf]⟩
  | some text => exact ⟨nofun, fun ⟨_, hw⟩ => absurd ⟨text, Text.Utf8.eq_encode_of_decode? hd⟩ hw⟩

theorem scan_closed (items : List Item) (rest : Bytes) :
    scan (0x22 :: (spelling items ++ 0x22 :: rest)) offset atEnd =
      closeString offset (meaning items) ((spelling items).length + 2) := by
  rw [scan_quote, scanString_spelling, scanString_quote, List.append_nil, List.reverse_reverse]
  congr 1
  omega

theorem exists_items_of_scan {bytes : Bytes} {t : Token} {n : Nat}
    (h : scan (0x22 :: bytes) offset atEnd = .token t n) :
    ∃ items rest, bytes = spelling items ++ 0x22 :: rest := by
  obtain ⟨items, rest, rfl, hb⟩ := exists_items bytes
  rw [scan_quote, scanString_spelling] at h
  cases hb with
  | quote rest => exact ⟨items, rest, rfl⟩
  | control rest hc =>
    rw [scanString_control hc] at h
    cases h
  | cut hc =>
    rw [hc.scanString] at h
    exact absurd h incomplete_ne_token
  | bad hn =>
    rw [hn.scanString] at h
    cases h

end

inductive Written : Char → Bytes → Prop where
  | raw {c : Char} : 0x20 ≤ c.toNat → c ≠ '"' → c ≠ '\\' → Written c (encodeChar c)
  | escape {c : Char} {word : Bytes} : Escape word c → Written c word

inductive Wording : List Char → Bytes → Prop where
  | nil : Wording [] []
  | cons {c : Char} {text : List Char} {word bytes : Bytes} : Written c word →
    Wording text bytes → Wording (c :: text) (word ++ bytes)

theorem exists_raw {bytes : Bytes} (h : ∀ b ∈ bytes, 0x20 ≤ b ∧ b ≠ 0x22 ∧ b ≠ 0x5C) :
    ∃ items, spelling items = bytes ∧ meaning items = bytes := by
  induction bytes with
  | nil => exact ⟨[], rfl, rfl⟩
  | cons b bytes ih =>
    obtain ⟨hb, hbytes⟩ := List.forall_mem_cons.1 h
    obtain ⟨items, hs, hd⟩ := ih hbytes
    refine ⟨.raw b hb.1 hb.2.1 hb.2.2 :: items, ?_, ?_⟩
    · rw [spelling_cons, hs]; rfl
    · rw [meaning_cons, hd]; rfl

theorem Written.exists_items {c : Char} {word : Bytes} (h : Written c word) :
    ∃ items, spelling items = word ∧ meaning items = encodeChar c := by
  cases h with
  | raw hc hq hb =>
    have number (d : Char) (h : c ≠ d) : c.toNat ≠ d.toNat := fun h' => h (Char.toNat_inj.1 h')
    have hq' : c.toNat ≠ 0x22 := number '"' hq
    have hb' : c.toNat ≠ 0x5C := number '\\' hb
    refine exists_raw fun b hmem => ?_
    have hn := Text.Utf8.mem_encodeChar hmem
    simp only [UInt8.le_iff_toNat_le, ne_eq, ← UInt8.toNat_inj, UInt8.reduceToNat]
    omega
  | escape h => exact ⟨[.escape word c h], by simp [Item.spelled], by simp [Item.denoted]⟩

theorem Wording.exists_items {text : List Char} {bytes : Bytes} (h : Wording text bytes) :
    ∃ items, spelling items = bytes ∧ meaning items = Text.Utf8.encode text := by
  induction h with
  | nil => exact ⟨[], rfl, rfl⟩
  | cons hw _ ih =>
    obtain ⟨first, rfl, hd⟩ := hw.exists_items
    obtain ⟨items, rfl, hd'⟩ := ih
    exact ⟨first ++ items, spelling_append _ _, by
      rw [meaning_append, hd, hd', Text.Utf8.encode_cons]⟩

/-- A string is found behind a quote if and only if items and a quote follow it whose runs of raw
bytes are texts. It is what the items denote: the text that is written there, however each of its
characters is written. Where some run of raw bytes is no text, nothing else makes it one. -/
theorem literal_decoded (bytes : Bytes) (offset : Nat) (atEnd : Bool) :
    (∀ t n, scan (0x22 :: bytes) offset atEnd = .token (.string t) n ↔
      ∃ items rest, bytes = spelling items ++ 0x22 :: rest ∧ n = (spelling items).length + 2 ∧
        (∀ run, RawRun items run → WellFormed (spelling run)) ∧
        Text.Utf8.encodeString t = meaning items) ∧
    (∀ text word rest, Wording text word → bytes = word ++ 0x22 :: rest →
      scan (0x22 :: bytes) offset atEnd =
        .token (.string (String.ofList text)) (word.length + 2)) ∧
    ∀ items run rest, bytes = spelling items ++ 0x22 :: rest → RawRun items run →
      ¬ WellFormed (spelling run) →
      scan (0x22 :: bytes) offset atEnd = .fault (.badEncoding offset) := by
  refine ⟨fun t n => ⟨fun h => ?_, ?_⟩, ?_, ?_⟩
  · obtain ⟨items, rest, rfl⟩ := exists_items_of_scan h
    rw [scan_closed, closeString_eq_token_iff] at h
    exact ⟨items, rest, rfl, h.1, wellFormed_meaning_iff.1 ⟨_, h.2.symm⟩, h.2⟩
  · rintro ⟨items, rest, rfl, hn, -, ht⟩
    rw [scan_closed, closeString_eq_token_iff]
    exact ⟨hn, ht⟩
  · rintro text word rest hw rfl
    obtain ⟨items, rfl, hd⟩ := hw.exists_items
    rw [scan_closed, closeString_eq_token_iff]
    exact ⟨rfl, by rw [Text.Utf8.encodeString, String.toList_ofList, hd]⟩
  · rintro items run rest rfl hr hw
    rw [scan_closed]
    exact closeString_eq_fault_iff.2 ⟨rfl, fun h => hw (hr.wellFormed h)⟩

theorem literal_decoded_surrogates :
    scan [0x22, 0xC3, 0xA9, 0x5C, 0x75, 0x44, 0x38, 0x33, 0x64, 0x5C, 0x75, 0x64, 0x65, 0x30, 0x30,
        0x22, 0x2E] 7 false = .token (.string "é😀") 16 ∧
      scan [0x22, 0xE2, 0x82, 0x5C, 0x75, 0x30, 0x30, 0x41, 0x43, 0x22] 7 false =
        .fault (.badEncoding 7) := by
  have hhigh : FourDigits [0x44, 0x38, 0x33, 0x64] 0xD83D :=
    .intro (.upper (d := 3) (by decide) rfl) (.decimal (d := 8) (by decide) rfl)
      (.decimal (d := 3) (by decide) rfl) (.lower (d := 3) (by decide) rfl)
  have hlow : FourDigits [0x64, 0x65, 0x30, 0x30] 0xDE00 :=
    .intro (.lower (d := 3) (by decide) rfl) (.lower (d := 4) (by decide) rfl)
      (.decimal (d := 0) (by decide) rfl) (.decimal (d := 0) (by decide) rfl)
  have hsign : FourDigits [0x30, 0x30, 0x41, 0x43] 0xAC :=
    .intro (.decimal (d := 0) (by decide) rfl) (.decimal (d := 0) (by decide) rfl)
      (.upper (d := 0) (by decide) rfl) (.upper (d := 2) (by decide) rfl)
  have hword : Wording ['é', '😀'] _ :=
    .cons (.raw (by decide) (by decide) (by decide)) (.cons (.escape (.pair hhigh hlow (by decide)
      (by decide) (by decide) (by decide) (by decide))) .nil)
  have hcut : ¬ WellFormed [0xE2, 0x82] := by
    rintro ⟨text, ht⟩
    have hd := Text.Utf8.decode?_eq_some_iff.2 ht
    rw [Text.Utf8.decode?_cons] at hd
    cases hd
  let run : List Item := [.raw 0xE2 (by decide) (by decide) (by decide),
    .raw 0x82 (by decide) (by decide) (by decide)]
  let sign : Item := .escape _ '¬' (.unicode hsign)
  have hrun : RawRun (run ++ [sign]) run :=
    ⟨[], [sign], rfl, by simp [run, Item.isRaw], by simp, by simp [sign, Item.isRaw]⟩
  exact ⟨(literal_decoded _ 7 false).2.1 _ _ [0x2E] hword rfl,
    (literal_decoded _ 7 false).2.2 (run ++ [sign]) run [] rfl hrun hcut⟩

end AttributeTrees.Json.Stream
