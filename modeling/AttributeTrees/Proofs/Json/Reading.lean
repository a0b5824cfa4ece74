import AttributeTrees.Proofs.Json.Numerals
import AttributeTrees.Proofs.Json.Overwriting
import AttributeTrees.Proofs.Json.Stream.Place
import Mathlib.Data.List.DropRight
/-!
# Reading what a stream accepts

What is read from a text are the tokens of a phrase, and the value is the one of the phrase's tree
in which the last member of every name counts. Main statement: a text that is read and in which all
number literals are whole is a document of the stream.
-/
namespace AttributeTrees.Json.Reading

open Json.Stream (Items Lexeme Members Numeric Phrase Scalar Slot Spells Token isDigit
  isNumberByte isSpace)
open Text.Utf8 (Bytes)
open Value (lasting lastingItems lastingMembers)
open Visit (Tree)

theorem hexValue?_ne {b : UInt8} {n : Nat} (h : Stream.hexValue? b = some n) :
    b ≠ 0x22 ∧ b ≠ 0x5C := by
  constructor
  · rintro rfl
    cases h
  · rintro rfl
    cases h

theorem numeralsFrom_string {b : UInt8} (hq : b ≠ 0x22) (hs : b ≠ 0x5C) (rest : Bytes) :
    numeralsFrom .string (b :: rest) = numeralsFrom .string rest := by
  simp [numeralsFrom, hq, hs]

theorem fourDigits_ok {bytes rest : Bytes} {n : Nat} (h : fourDigits bytes = .ok (n, rest)) :
    Stream.fourDigits bytes = .found n ∧ (∃ quad, bytes = quad ++ rest ∧ quad.length = 4) ∧
      numeralsFrom .string bytes = numeralsFrom .string rest := by
  unfold fourDigits at h
  split at h
  · cases h
  · split at h
    · next hf =>
      cases h
      have hquad := hf
      unfold Stream.fourDigits at hquad
      split at hquad
      · next a b c d more _ =>
        split at hquad
        · next ha hb hc hd =>
          refine ⟨hf, ⟨[a, b, c, d], rfl, rfl⟩, ?_⟩
          rw [numeralsFrom_string (hexValue?_ne ha).1 (hexValue?_ne ha).2,
            numeralsFrom_string (hexValue?_ne hb).1 (hexValue?_ne hb).2,
            numeralsFrom_string (hexValue?_ne hc).1 (hexValue?_ne hc).2,
            numeralsFrom_string (hexValue?_ne hd).1 (hexValue?_ne hd).2]
          rfl
        · cases hquad
      · split at hquad <;> cases hquad
    · cases h

theorem lowSurrogate_ok {bytes rest : Bytes} {n : Nat} (h : lowSurrogate bytes = .ok (n, rest)) :
    Stream.lowSurrogate bytes = .found n ∧ (∃ half, bytes = half ++ rest ∧ half.length = 6) ∧
      numeralsFrom .string bytes = numeralsFrom .string rest := by
  rcases bytes with _ | ⟨b, _ | ⟨u, bytes⟩⟩
  · cases h
  · cases h
  · rw [lowSurrogate] at h
    split at h
    · next hu =>
      obtain ⟨⟨low, more⟩, hd, h⟩ := exists_of_bind_eq_ok h
      change (if 0xDC00 ≤ low && low < 0xE000 then Except.ok (low, more)
        else .error Fault.malformed) = _ at h
      split at h
      · next hlow =>
        cases h
        obtain ⟨hf, ⟨quad, rfl, hlen⟩, hn⟩ := fourDigits_ok hd
        refine ⟨?_, ⟨b :: u :: quad, rfl, by simp [hlen]⟩, ?_⟩
        · rw [Stream.lowSurrogate, if_pos hu, hf]
          exact if_pos hlow
        · simp only [Bool.and_eq_true, beq_iff_eq] at hu
          rw [hu.1, hu.2]
          exact hn
      · cases h
    · cases h

theorem unicodeEscape_ok {bytes rest : Bytes} {c : Char}
    (h : unicodeEscape bytes = .ok (c, rest)) :
    ∃ escape, bytes = escape ++ rest ∧ Stream.unicodeEscape bytes = .found (c, escape.length) ∧
      numeralsFrom .string bytes = numeralsFrom .string rest := by
  obtain ⟨⟨high, more⟩, hd, h'⟩ := exists_of_bind_eq_ok h
  obtain ⟨hf, ⟨quad, rfl, hlen⟩, hn⟩ := fourDigits_ok hd
  have hdrop : (quad ++ more).drop 4 = more := by rw [← hlen, List.drop_left]
  clear h
  rename _ = Except.ok (c, rest) => h
  dsimp only at h
  split at h
  · cases h
  · next hlow =>
    split at h
    · next hhigh =>
      obtain ⟨⟨low, more'⟩, hl, h⟩ := exists_of_bind_eq_ok h
      obtain ⟨rfl, rfl⟩ := Prod.mk.inj (Except.ok.inj h)
      obtain ⟨hf', ⟨half, rfl, hlen'⟩, hn'⟩ := lowSurrogate_ok hl
      refine ⟨quad ++ half, by simp, ?_, hn.trans hn'⟩
      simp only [Stream.unicodeEscape, hf, hhigh, if_true, hdrop, hf', List.length_append, hlen,
        hlen']
    · next hhigh =>
      cases h
      refine ⟨quad, rfl, ?_, hn⟩
      simp only [Stream.unicodeEscape, hf, if_neg hhigh, if_neg hlow, hlen]

def Closes (decoded bytes d rest : Bytes) : Prop :=
  ∀ done, ∃ body, bytes = body ++ rest ∧ numeralsFrom .string bytes = numerals rest ∧
    Stream.scanString 0 true decoded done bytes = Stream.closeString 0 d (done + body.length)

section
variable {b e : UInt8} {decoded d bytes more rest : Bytes}

theorem closes_quote (bytes : Bytes) : Closes decoded (0x22 :: bytes) decoded.reverse bytes :=
  fun _ => ⟨[0x22], rfl, rfl, Stream.scanString_quote⟩

theorem Closes.prepend {piece before : Bytes} (h : Closes decoded bytes d rest)
    (hn : numeralsFrom .string (piece ++ bytes) = numeralsFrom .string bytes)
    (hs : ∀ done, Stream.scanString 0 true before done (piece ++ bytes) =
      Stream.scanString 0 true decoded (done + piece.length) bytes) :
    Closes before (piece ++ bytes) d rest := by
  intro done
  obtain ⟨body, rfl, hgap, hscan⟩ := h (done + piece.length)
  refine ⟨piece ++ body, (List.append_assoc ..).symm, hn.trans hgap, ?_⟩
  rw [hs, hscan, List.length_append, Nat.add_assoc]

theorem Closes.byte (h : Closes (b :: decoded) bytes d rest) (hq : b ≠ 0x22) (hs : b ≠ 0x5C)
    (hc : ¬ b < 0x20) : Closes decoded (b :: bytes) d rest := by
  change Closes decoded ([b] ++ bytes) d rest
  refine h.prepend (numeralsFrom_string hq hs _) fun done => ?_
  rw [List.singleton_append, Stream.scanString_byte hq hs, if_neg hc, List.length_singleton]

theorem Closes.short {byte : UInt8} (h : Closes (byte :: decoded) bytes d rest) (he : e ≠ 0x75)
    (hb : Stream.shortEscape? e = some byte) : Closes decoded (0x5C :: e :: bytes) d rest := by
  change Closes decoded ([0x5C, e] ++ bytes) d rest
  exact h.prepend rfl fun done => Stream.scanString_short he hb

theorem Closes.unicode {c : Char}
    (h : Closes ((Text.Utf8.encodeChar c).reverse ++ decoded) more d rest)
    (hu : unicodeEscape bytes = .ok (c, more)) :
    Closes decoded (0x5C :: 0x75 :: bytes) d rest := by
  obtain ⟨escape, rfl, hf, hn⟩ := unicodeEscape_ok hu
  change Closes decoded ((0x5C :: 0x75 :: escape) ++ more) d rest
  refine h.prepend hn fun done => ?_
  rw [List.cons_append, List.cons_append, Stream.scanString_unicode hf, List.drop_left,
    List.length_cons, List.length_cons, Nat.add_assoc, Nat.add_comm 2]

end

theorem literal_ok {fuel : Nat} {decoded bytes d rest : Bytes}
    (h : literal fuel decoded bytes = .ok (d, rest)) : Closes decoded bytes d rest := by
  induction fuel generalizing decoded bytes with
  | zero => cases h
  | succ fuel ih =>
    rcases bytes with _ | ⟨b, bytes⟩
    · cases h
    rw [literal.eq_def] at h
    dsimp only at h
    split at h
    · next hq =>
      cases h
      exact eq_of_beq hq ▸ closes_quote _
    next hq =>
    split at h
    · next hs =>
      rw [eq_of_beq hs]
      rcases bytes with _ | ⟨e, more⟩
      · cases h
      dsimp only at h
      split at h
      · next he =>
        rw [eq_of_beq he]
        cases hu : unicodeEscape more with
        | error f =>
          rw [hu] at h
          cases h
        | ok r =>
          rw [hu] at h
          exact (ih h).unicode hu
      · next he =>
        cases hb : Stream.shortEscape? e with
        | none =>
          rw [hb] at h
          cases h
        | some byte =>
          rw [hb] at h
          exact (ih h).short (by simpa using he) hb
    next hs =>
    split at h
    · cases h
    · next hc => exact (ih h).byte (by simpa using hq) (by simpa using hs) hc

theorem string_ok {bytes rest : Bytes} {s : String} (h : string bytes = .ok (s, rest)) :
    ∃ body, bytes = body ++ rest ∧ Lexeme (.string s) (0x22 :: body) ∧
      numerals (0x22 :: bytes) = numerals rest := by
  obtain ⟨⟨decoded, more⟩, hl, h⟩ := exists_of_bind_eq_ok h
  dsimp only at h
  cases hd : Text.Utf8.decode? decoded with
  | none =>
    rw [hd] at h
    cases h
  | some text =>
    rw [hd] at h
    obtain ⟨rfl, rfl⟩ := Prod.mk.inj (Except.ok.inj h)
    obtain ⟨body, rfl, hn, hscan⟩ := literal_ok hl 1
    rw [Stream.closeString, hd] at hscan
    have hfound : Stream.scan (0x22 :: (body ++ more)) 0 true =
        .token (.string (String.ofList text)) (0x22 :: body).length := by
      rw [Stream.scan_quote, hscan, List.length_cons, Nat.add_comm]
    obtain ⟨word, rest, hw, hlen, hlex, -⟩ := Stream.lexeme_of_scan hfound
    have hw' : (0x22 :: body) ++ more = word ++ rest := hw
    obtain ⟨rfl, -⟩ := List.append_inj hw' hlen
    exact ⟨body, rfl, hlex, hn⟩

theorem skipSpace_eq (bytes : Bytes) :
    ∃ space, bytes = space ++ skipSpace bytes ∧ ∀ b ∈ space, isSpace b = true := by
  refine ⟨bytes.takeWhile isSpace, (List.takeWhile_append_dropWhile ..).symm, fun b hb => ?_⟩
  exact List.all_eq_true.1 (List.all_takeWhile (p := isSpace)) b hb

theorem spells_token {bytes word rest : Bytes} {t : Token} (h : skipSpace bytes = word ++ rest)
    (hl : Lexeme t word) (he : t.EndsBefore rest) : Spells bytes [t] rest := by
  obtain ⟨space, hb, hs⟩ := skipSpace_eq bytes
  rw [hb, h, ← List.append_assoc]
  exact .cons hs hl he (.nil rest)

theorem spells_byte {bytes rest : Bytes} {b : UInt8} {t : Token}
    (h : skipSpace bytes = b :: rest) (hl : Lexeme t [b]) (he : t.EndsBefore rest) :
    Spells bytes [t] rest :=
  spells_token (show skipSpace bytes = [b] ++ rest from h) hl he

theorem word_ok {ws bytes rest : Bytes} (h : word ws bytes = .ok rest) : bytes = ws ++ rest := by
  induction ws generalizing bytes with
  | nil =>
    cases h
    rfl
  | cons w ws ih =>
    cases bytes with
    | nil => cases h
    | cons b bytes =>
      rw [word] at h
      split at h
      · next hb => rw [eq_of_beq hb, ih h, List.cons_append]
      · cases h

theorem numerals_cons {b : UInt8} (hb : (b == 0x22 || b == 0x2D || isDigit b) = false)
    (rest : Bytes) : numerals (b :: rest) = numerals rest := by
  simp only [Bool.or_eq_false_iff] at hb
  simp [numerals, numeralsFrom, hb]

inductive Ahead {α : Type} (P : List Token → List α → Prop) :
    Bool → List Token → List α → Prop where
  | first : Ahead P true [] []
  | later {ts : List Token} {xs : List α} : P ts xs → Ahead P false ts xs

theorem next_none {close : UInt8} {first : Bool} {bytes rest : Bytes}
    (h : next close first bytes = .ok (none, rest)) : skipSpace bytes = close :: rest := by
  unfold next at h
  split at h
  · cases h
  · next b more hb =>
    split at h
    · next hc =>
      cases h
      rw [hb, eq_of_beq hc]
    · split at h
      · cases h
      · split at h
        · split at h
          · cases h
          · split at h <;> cases h
        · cases h

theorem next_some {α : Type} {P : List Token → List α → Prop} {close : UInt8} {first : Bool}
    {bytes more rest : Bytes} {us : List Token} {xs : List α}
    (h : next close first bytes = .ok (some more, rest)) (ha : Ahead P first us xs) :
    ∃ commas bytes', Slot P (us ++ commas) xs ∧ Spells bytes commas bytes' ∧
      skipSpace bytes' = more ∧ numerals bytes' = numerals bytes := by
  unfold next at h
  split at h
  · cases h
  · next b r hb =>
    split at h
    · cases h
    · split at h
      · next hf =>
        cases h
        subst hf
        cases ha
        exact ⟨[], bytes, .first, .nil bytes, hb, rfl⟩
      · next hf =>
        split at h
        · next hc =>
          rw [eq_of_beq hc] at hb
          split at h
          · cases h
          · next c r' hr =>
            split at h
            · cases h
            · cases h
              cases ha with
              | first => exact (hf rfl).elim
              | later hp =>
                refine ⟨[.comma], r, .further hp, ?_, hr, ?_⟩
                · exact spells_byte hb .comma trivial
                · rw [← numerals_skipSpace bytes, hb, numerals_cons (by decide)]
        · cases h

theorem key_ok {bytes bytes' rest : Bytes} {k : String} (h : key bytes = .ok (k, rest))
    (hb : skipSpace bytes' = bytes) :
    Spells bytes' [.string k, .colon] rest ∧ numerals bytes' = numerals rest := by
  cases bytes with
  | nil => cases h
  | cons b bytes =>
    rw [key] at h
    split at h
    · next hq =>
      obtain ⟨⟨k', more⟩, hs, h⟩ := exists_of_bind_eq_ok h
      dsimp only at h
      cases hm : skipSpace more with
      | nil =>
        rw [hm] at h
        cases h
      | cons c r =>
        rw [hm] at h
        dsimp only at h
        split at h
        · next hc =>
          cases h
          rw [eq_of_beq hq] at hb
          rw [eq_of_beq hc] at hm
          obtain ⟨body, rfl, hl, hn⟩ := string_ok hs
          refine ⟨(spells_token hb hl trivial).append (spells_byte hm .colon trivial),
            ?_⟩
          rw [← numerals_skipSpace bytes', hb, hn, ← numerals_skipSpace more, hm,
            numerals_cons (by decide)]
        · cases h
    · cases h

/-- The bytes up to the rest are a phrase whose tree has the value, and the number literals in the
rest are whole. -/
def Shows (bytes rest : Bytes) (v : Value) : Prop :=
  AllWhole rest ∧ ∃ ts tree, Spells bytes ts rest ∧ Phrase ts tree ∧ lasting tree = v

def ReadsValue (fuel : Nat) : Prop :=
  ∀ {depth : Nat} {bytes rest : Bytes} {v : Value}, value fuel depth bytes = .ok (v, rest) →
    AllWhole bytes → Shows bytes rest v

def ReadsItems (fuel : Nat) : Prop :=
  ∀ {depth : Nat} {first : Bool} {bytes rest : Bytes} {vs : List Value} {us : List Token}
    {xs : List Tree}, items fuel depth first bytes = .ok (vs, rest) → Ahead Items first us xs →
    AllWhole bytes → AllWhole rest ∧
      ∃ ts ys, Spells bytes ts rest ∧ Phrase (.openArray :: (us ++ ts)) (.list (xs ++ ys)) ∧
        lastingItems ys = vs

def ReadsMembers (fuel : Nat) : Prop :=
  ∀ {depth : Nat} {first : Bool} {bytes rest : Bytes} {ms : List (String × Value)}
    {us : List Token} {xs : List (String × Tree)},
    members fuel depth first (lastingMembers xs []) bytes = .ok (ms, rest) →
    Ahead Members first us xs → AllWhole bytes → AllWhole rest ∧
      ∃ ts ys, Spells bytes ts rest ∧ Phrase (.openObject :: (us ++ ts)) (.struct (xs ++ ys)) ∧
        lastingMembers (xs ++ ys) [] = ms

theorem allWhole_of_numerals_eq {bytes rest : Bytes} (h : AllWhole bytes)
    (hn : numerals rest = numerals bytes) : AllWhole rest :=
  fun run hr => h run (hn ▸ hr)

theorem Ahead.list {first : Bool} {us : List Token} {xs : List Tree} (h : Ahead Items first us xs) :
    Phrase (.openArray :: (us ++ [.closeArray])) (.list xs) := by
  cases h with
  | first => exact Slot.list .first
  | later h => exact h.closed

theorem Ahead.struct {first : Bool} {us : List Token} {xs : List (String × Tree)}
    (h : Ahead Members first us xs) :
    Phrase (.openObject :: (us ++ [.closeObject])) (.struct xs) := by
  cases h with
  | first => exact Slot.struct .first
  | later h => exact h.closed

theorem value_skipSpace (fuel depth : Nat) (bytes : Bytes) :
    value fuel depth (skipSpace bytes) = value fuel depth bytes := by
  have hs : skipSpace (skipSpace bytes) = skipSpace bytes :=
    List.dropWhile_idempotent ..
  cases fuel with
  | zero => rfl
  | succ fuel => rw [value, value, hs]

theorem readsItems_succ {fuel : Nat} (hv : ReadsValue fuel) (hi : ReadsItems fuel) :
    ReadsItems (fuel + 1) := by
  intro depth first bytes rest vs us xs h ha hw
  rw [items] at h
  obtain ⟨⟨more?, r⟩, hnext, h⟩ := exists_of_bind_eq_ok h
  cases more? with
  | none =>
    cases h
    have hs := next_none hnext
    refine ⟨allWhole_of_numerals_eq hw ?_, [.closeArray], [], spells_byte hs .closeArray trivial,
      ?_, rfl⟩
    · rw [← numerals_skipSpace bytes, hs, numerals_cons (by decide)]
    · rw [List.append_nil]
      exact ha.list
  | some more =>
    obtain ⟨commas, bytes', hslot, hcommas, rfl, hn⟩ := next_some hnext ha
    obtain ⟨⟨v, r'⟩, hvalue, h⟩ := exists_of_bind_eq_ok h
    obtain ⟨⟨vs', rest'⟩, hitems, h⟩ := exists_of_bind_eq_ok h
    cases h
    rw [value_skipSpace] at hvalue
    obtain ⟨hw', ts, tree, hspell, hphrase, hlast⟩ :=
      hv hvalue (allWhole_of_numerals_eq hw hn)
    obtain ⟨hw'', ts', ys, hspell', hphrase', hlast'⟩ :=
      hi hitems (.later (hslot.items_snoc hphrase)) hw'
    refine ⟨hw'', commas ++ (ts ++ ts'), tree :: ys,
      hcommas.append (hspell.append hspell'), ?_, ?_⟩
    · simpa using hphrase'
    · rw [lastingItems, hlast, hlast']

theorem readsMembers_succ {fuel : Nat} (hv : ReadsValue fuel) (hm : ReadsMembers fuel) :
    ReadsMembers (fuel + 1) := by
  intro depth first bytes rest ms us xs h ha hw
  rw [members] at h
  obtain ⟨⟨more?, r⟩, hnext, h⟩ := exists_of_bind_eq_ok h
  cases more? with
  | none =>
    cases h
    have hs := next_none hnext
    refine ⟨allWhole_of_numerals_eq hw ?_, [.closeObject], [], spells_byte hs .closeObject trivial,
      ?_, ?_⟩
    · rw [← numerals_skipSpace bytes, hs, numerals_cons (by decide)]
    · rw [List.append_nil]
      exact ha.struct
    · rw [List.append_nil]
  | some more =>
    obtain ⟨commas, bytes', hslot, hcommas, hmore, hn⟩ := next_some hnext ha
    obtain ⟨⟨k, r'⟩, hkey, h⟩ := exists_of_bind_eq_ok h
    obtain ⟨⟨v, r''⟩, hvalue, h⟩ := exists_of_bind_eq_ok h
    obtain ⟨hkeys, hnk⟩ := key_ok hkey hmore
    obtain ⟨hw', ts, tree, hspell, hphrase, rfl⟩ :=
      hv hvalue (allWhole_of_numerals_eq hw (hnk.symm.trans hn))
    have hb : Members.put k (lasting tree) (lastingMembers xs []) =
        lastingMembers (xs ++ [(k, tree)]) [] := by
      rw [Value.lastingMembers_append]
      rfl
    dsimp only at h
    rw [hb] at h
    obtain ⟨hw'', ts', ys, hspell', hphrase', hlast'⟩ :=
      hm h (.later (hslot.members_snoc k hphrase)) hw'
    refine ⟨hw'', commas ++ ([.string k, .colon] ++ (ts ++ ts')), (k, tree) :: ys,
      hcommas.append (hkeys.append (hspell.append hspell')), ?_, ?_⟩
    · simpa using hphrase'
    · simpa using hlast'

section
variable {bytes more rest : Bytes} {b : UInt8} {t : Token} {run : Run} {v : Value}

theorem shows_token {word : Bytes} (hw : AllWhole bytes) (hb : skipSpace bytes = word ++ rest)
    (hn : numerals rest <:+ numerals (word ++ rest)) (hl : Lexeme t word) (he : t.EndsBefore rest)
    (hs : Scalar t run) (hv : Value.ofRun run = [v]) : Shows bytes rest v := by
  refine ⟨fun n hr => hw n ?_, [t], .leaf run, spells_token hb hl he, .scalar hs, ?_⟩
  · rw [← numerals_skipSpace bytes, hb]
    exact hn.subset hr
  · rw [lasting, hv]
    rfl

theorem shows_word {ws : Bytes} (hw : AllWhole bytes) (hb : skipSpace bytes = b :: more)
    (h : word ws more = .ok rest) (hn : numerals (b :: ws ++ rest) = numerals rest)
    (hl : Lexeme t (b :: ws)) (he : t.EndsBefore rest) (hs : Scalar t run)
    (hv : Value.ofRun run = [v]) : Shows bytes rest v := by
  refine shows_token hw ?_ (hn ▸ List.suffix_rfl) hl he hs hv
  rw [hb, word_ok h, List.cons_append]

theorem isWhole_of_allWhole (hw : AllWhole bytes) (hb : skipSpace bytes = b :: more)
    (hd : b = 0x2D ∨ isDigit b = true) : IsWhole (b :: more.takeWhile isNumberByte) := by
  refine hw _ ?_
  rw [← numerals_skipSpace bytes, hb, numerals_number hd]
  exact List.mem_cons_self

theorem shows_number {n : Stream.Number} (hw : AllWhole bytes) (hb : skipSpace bytes = b :: more)
    (hd : b = 0x2D ∨ isDigit b = true)
    (hn : Numeric ((b :: more.takeWhile isNumberByte).map fun b => Char.ofNat b.toNat) n)
    (hs : Scalar (.number n) run) (hv : Value.ofRun run = [v]) :
    Shows bytes (more.dropWhile isNumberByte) v := by
  have hall : ∀ c ∈ more.takeWhile isNumberByte, isNumberByte c = true :=
    List.all_eq_true.1 (List.all_takeWhile (p := isNumberByte))
  have hmore : (b :: more.takeWhile isNumberByte) ++ more.dropWhile isNumberByte = b :: more := by
    rw [List.cons_append, List.takeWhile_append_dropWhile]
  refine shows_token hw (hb.trans hmore.symm) ?_ (.number hd hall hn)
    (Stream.endsBefore_dropWhile n more) hs hv
  rw [hmore, numerals_number hd]
  exact List.suffix_cons ..

theorem shows_string {s : String} (hw : AllWhole bytes) (hb : skipSpace bytes = 0x22 :: more)
    (h : string more = .ok (s, rest)) : Shows bytes rest (.string s) := by
  obtain ⟨body, rfl, hl, hn⟩ := string_ok h
  refine shows_token hw hb ?_ hl trivial (.string s) rfl
  exact List.cons_append ▸ hn ▸ List.suffix_rfl

theorem shows_array {fuel depth : Nat} {vs : List Value} (hi : ReadsItems fuel)
    (hw : AllWhole bytes) (hb : skipSpace bytes = 0x5B :: more)
    (h : items fuel depth true more = .ok (vs, rest)) : Shows bytes rest (.array vs) := by
  have hn : numerals more = numerals bytes := by
    rw [← numerals_skipSpace bytes, hb, numerals_cons (by decide)]
  obtain ⟨hw', ts, ys, hspell, hphrase, hlast⟩ := hi h .first (allWhole_of_numerals_eq hw hn)
  refine ⟨hw', .openArray :: ts, .list ys, ?_, hphrase, by rw [lasting, hlast]⟩
  exact (spells_byte hb .openArray trivial).append hspell

theorem shows_object {fuel depth : Nat} {ms : List (String × Value)} (hm : ReadsMembers fuel)
    (hw : AllWhole bytes) (hb : skipSpace bytes = 0x7B :: more)
    (h : members fuel depth true [] more = .ok (ms, rest)) : Shows bytes rest (.object ms) := by
  have hn : numerals more = numerals bytes := by
    rw [← numerals_skipSpace bytes, hb, numerals_cons (by decide)]
  have hfirst : members fuel depth true (lastingMembers [] []) more = .ok (ms, rest) := h
  obtain ⟨hw', ts, ys, hspell, hphrase, hlast⟩ :=
    hm hfirst .first (allWhole_of_numerals_eq hw hn)
  refine ⟨hw', .openObject :: ts, .struct ys, ?_, hphrase, by rw [lasting, ← hlast]; rfl⟩
  exact (spells_byte hb .openObject trivial).append hspell

end

theorem readsValue_succ {fuel : Nat} (hi : ReadsItems fuel) (hm : ReadsMembers fuel) :
    ReadsValue (fuel + 1) := by
  intro depth bytes rest v h hw
  rw [value] at h
  cases hs : skipSpace bytes with
  | nil =>
    rw [hs] at h
    cases h
  | cons b more =>
    rw [hs] at h
    dsimp only at h
    -- One byte tells what comes.
    split at h
    · next hb =>
      obtain ⟨r, hr, h⟩ := exists_of_bind_eq_ok h
      cases h
      rw [eq_of_beq hb] at hs
      exact shows_word hw hs hr rfl .null trivial .null rfl
    split at h
    · next hb =>
      obtain ⟨r, hr, h⟩ := exists_of_bind_eq_ok h
      cases h
      rw [eq_of_beq hb] at hs
      exact shows_word hw hs hr rfl .yes trivial (.bool true) rfl
    split at h
    · next hb =>
      obtain ⟨r, hr, h⟩ := exists_of_bind_eq_ok h
      cases h
      rw [eq_of_beq hb] at hs
      exact shows_word hw hs hr rfl .no trivial (.bool false) rfl
    split at h
    · next hb =>
      rw [eq_of_beq hb] at hs
      obtain ⟨n, rfl, rfl, hn⟩ := number_signed h (isWhole_of_allWhole hw hs (.inl rfl))
      exact shows_number hw hs (.inl rfl) hn (.int n) rfl
    split at h
    · next hb =>
      obtain ⟨n, rfl, rfl, hn⟩ := number_unsigned hb h (isWhole_of_allWhole hw hs (.inr hb))
      exact shows_number hw hs (.inr hb) hn (.uint n) rfl
    split at h
    · next hb =>
      obtain ⟨⟨s, r⟩, hr, h⟩ := exists_of_bind_eq_ok h
      cases h
      rw [eq_of_beq hb] at hs
      exact shows_string hw hs hr
    split at h
    · cases h
    · split at h
      · next hb =>
        obtain ⟨⟨vs, r⟩, hr, h⟩ := exists_of_bind_eq_ok h
        cases h
        rw [eq_of_beq hb] at hs
        exact shows_array hi hw hs hr
      split at h
      · next hb =>
        obtain ⟨⟨ms, r⟩, hr, h⟩ := exists_of_bind_eq_ok h
        cases h
        rw [eq_of_beq hb] at hs
        exact shows_object hm hw hs hr
      · cases h

theorem reads (fuel : Nat) : ReadsValue fuel ∧ ReadsItems fuel ∧ ReadsMembers fuel := by
  induction fuel with
  | zero =>
    refine ⟨fun h => ?_, fun h => ?_, fun h => ?_⟩
    · rw [value] at h
      cases h
    · rw [items] at h
      cases h
    · rw [members] at h
      cases h
  | succ fuel ih =>
    obtain ⟨hv, hi, hm⟩ := ih
    exact ⟨readsValue_succ hi hm, readsItems_succ hv hi, readsMembers_succ hv hm⟩

/-- A text that is read and whose number literals are whole is a document of the stream, and its
value is that of the document's tree in which the last member of every name counts. -/
theorem begins_of_ofText {text : String} {v : Value} (h : ofText text = .ok v)
    (hw : AllWhole (Text.Utf8.encodeString text)) :
    ∃ tree, Stream.Begins (Text.Utf8.encodeString text) tree ∧ lasting tree = v := by
  obtain ⟨⟨w, rest⟩, hvalue, h⟩ := exists_of_bind_eq_ok h
  dsimp only at h
  split at h
  · cases h
    obtain ⟨-, ts, tree, hspell, hphrase, hlast⟩ := (reads _).1 hvalue hw
    exact ⟨tree, ⟨ts, rest, hspell, hphrase⟩, hlast⟩
  · cases h

end AttributeTrees.Json.Reading
