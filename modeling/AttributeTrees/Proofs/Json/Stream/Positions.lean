import AttributeTrees.Proofs.Json.Stream.Grammar
import AttributeTrees.Proofs.Json.Stream.Literal
import AttributeTrees.Proofs.Json.Stream.Transport
/-!
# Where a fault lies

What is pending are the bytes that were taken from the offset on, and tokens and white space lead
up to it. A scan starts there and finds its faults in the bytes before it, so a fault lies where it
says, counted from the start of the stream.
Main statement: in whatever pieces a stream comes, what is pending is the rest of its bytes, and its
fault is to be found at its offset.
-/
namespace AttributeTrees.Json.Stream

open Text.Utf8 (Bytes WellFormed)
open Visit (Visitor)

def Ahead (bytes : Bytes) (p : Nat) : Prop :=
  p ≤ bytes.length ∧ ∃ ts space, (∀ b ∈ space, isSpace b = true) ∧
    Spells bytes ts (space ++ bytes.drop p)

def Fault.offset? : Fault → Option Nat
  | unexpectedByte _ o => some o
  | unexpectedToken _ o => some o
  | badEscape o => some o
  | badNumber _ o => some o
  | badEncoding o => some o
  | unexpectedEnd => none

/-- What is found in the bytes where a fault lies: the byte; the token that is not allowed; within a
string that is not closed the backslash of what is no escape, whatever comes later; all bytes of the
number; the string whose bytes are no text. -/
def Fault.Located (bytes : Bytes) : Fault → Prop
  | unexpectedByte found o => bytes[o]? = some found
  | unexpectedToken description o => Ahead bytes o ∧ ∃ t word rest,
    bytes.drop o = word ++ rest ∧ Lexeme t word ∧ t.EndsBefore rest ∧ t.description = description
  | badEscape o => ∃ p items rest, Ahead bytes p ∧ o = p + 1 + (spelling items).length ∧
    bytes.drop p = 0x22 :: (spelling items ++ 0x5C :: rest) ∧
    ∀ more word c behind, Escape word c → 0x5C :: rest ++ more ≠ word ++ behind
  | badNumber text o => Ahead bytes o ∧ ∃ run, run = (bytes.drop o).takeWhile isNumberByte ∧
    run ≠ [] ∧ text = String.ofList (run.map fun b => Char.ofNat b.toNat) ∧
    ∀ n, ¬ Numeric (run.map fun b => Char.ofNat b.toNat) n
  | badEncoding o => Ahead bytes o ∧ ∃ items rest,
    bytes.drop o = 0x22 :: (spelling items ++ 0x22 :: rest) ∧ ¬ WellFormed (meaning items)
  | unexpectedEnd => True

section
variable {bytes : Bytes} {p : Nat}

theorem ahead_zero (bytes : Bytes) : Ahead bytes 0 :=
  ⟨Nat.zero_le _, [], [], nofun, .nil _⟩

theorem Ahead.space (h : Ahead bytes p) {space rest : Bytes} (hb : bytes.drop p = space ++ rest)
    (hs : ∀ b ∈ space, isSpace b = true) : Ahead bytes (p + space.length) := by
  obtain ⟨hp, ts, before, hbefore, hspells⟩ := h
  have hlen : (bytes.drop p).length = space.length + rest.length := by rw [hb, List.length_append]
  rw [List.length_drop] at hlen
  refine ⟨by omega, ts, before ++ space, ?_, ?_⟩
  · exact fun b h => (List.mem_append.1 h).elim (hbefore b) (hs b)
  · rw [← List.drop_drop, hb, List.drop_left, List.append_assoc, ← hb]
    exact hspells

theorem Ahead.token (h : Ahead bytes p) {t : Token} {word rest : Bytes}
    (hb : bytes.drop p = word ++ rest) (hl : Lexeme t word) (he : t.EndsBefore rest) :
    Ahead bytes (p + word.length) := by
  obtain ⟨hp, ts, before, hbefore, hspells⟩ := h
  have hlen : (bytes.drop p).length = word.length + rest.length := by rw [hb, List.length_append]
  rw [List.length_drop] at hlen
  refine ⟨by omega, ts ++ [t], [], nofun, ?_⟩
  rw [← List.drop_drop, hb, List.drop_left, List.nil_append]
  rw [hb, ← List.append_assoc] at hspells
  exact hspells.append (.cons hbefore hl he (.nil rest))

theorem Lexeme.ne_nil {t : Token} {word : Bytes} (h : Lexeme t word) : word ≠ [] := by
  cases h <;> exact List.cons_ne_nil _ _

theorem lt_length_of_drop_ne_nil (h : bytes.drop p ≠ []) : p < bytes.length := by
  have hl := List.length_pos_iff.2 h
  rw [List.length_drop] at hl
  omega

theorem Fault.Located.lt_length {f : Fault} {o : Nat} (h : f.Located bytes)
    (ho : f.offset? = some o) : o < bytes.length := by
  cases f with
  | unexpectedByte found =>
    cases ho
    exact (List.getElem?_eq_some_iff.1 h).1
  | unexpectedToken =>
    cases ho
    obtain ⟨-, t, word, rest, hb, hl, -, -⟩ := h
    refine lt_length_of_drop_ne_nil ?_
    rw [hb]
    exact List.append_ne_nil_of_left_ne_nil hl.ne_nil rest
  | badEscape =>
    cases ho
    obtain ⟨p, items, rest, -, rfl, hb, -⟩ := h
    have hl := congrArg List.length hb
    simp only [List.length_drop, List.length_cons, List.length_append] at hl
    omega
  | badNumber =>
    cases ho
    obtain ⟨-, run, rfl, hne, -⟩ := h
    refine lt_length_of_drop_ne_nil fun hb => hne ?_
    rw [hb]
    rfl
  | badEncoding =>
    cases ho
    obtain ⟨-, items, rest, hb, -⟩ := h
    exact lt_length_of_drop_ne_nil (by rw [hb]; exact List.cons_ne_nil _ _)
  | unexpectedEnd => cases ho

theorem located_of_incomplete {atEnd : Bool} {f : Fault} (h : Scan.incomplete atEnd = .fault f) :
    f.Located bytes := by
  cases atEnd <;> cases h
  trivial

theorem getElem?_of_drop {b : UInt8} {rest : Bytes} (hb : bytes.drop p = b :: rest) :
    bytes[p]? = some b := by
  have h : (bytes.drop p)[0]? = bytes[p + 0]? := List.getElem?_drop
  rw [hb] at h
  exact h.symm

theorem located_of_scanWord {t : Token} {offset done : Nat} {atEnd : Bool} {word rest : Bytes}
    {f : Fault} (hr : rest = bytes.drop (offset + done))
    (h : scanWord t offset atEnd word done rest = .fault f) : f.Located bytes := by
  fun_induction scanWord t offset atEnd word done rest with
  | case1 => cases h
  | case2 => exact located_of_incomplete h
  | case3 w word done b rest _ ih =>
    refine ih ?_ h
    rw [← Nat.add_assoc, ← List.drop_drop, ← hr]
    rfl
  | case4 =>
    cases h
    exact getElem?_of_drop hr.symm

theorem located_of_scanString {atEnd : Bool} {rest : Bytes} {f : Fault} (hp : Ahead bytes p)
    (hb : bytes.drop p = 0x22 :: rest) (h : scanString p atEnd [] 1 rest = .fault f) :
    f.Located bytes := by
  obtain ⟨items, rest', rfl, hbreak⟩ := exists_items rest
  have hdrop : bytes.drop (p + (1 + (spelling items).length)) = rest' := by
    rw [← List.drop_drop, hb, Nat.add_comm, List.drop_succ_cons, List.drop_left]
  rw [scanString_spelling] at h
  cases hbreak with
  | quote rest' =>
    rw [scanString_quote, List.append_nil, List.reverse_reverse] at h
    obtain ⟨rfl, hw⟩ := closeString_eq_fault_iff.1 h
    exact ⟨hp, items, rest', hb, hw⟩
  | control rest' hc =>
    rw [scanString_control hc] at h
    cases h
    exact getElem?_of_drop hdrop
  | cut hc =>
    rw [hc.scanString] at h
    exact located_of_incomplete h
  | bad hn =>
    rw [hn.scanString] at h
    cases h
    exact ⟨p, items, _, hp, (Nat.add_assoc _ _ _).symm, hb,
      fun more word c behind he => hn.not_escape he more behind⟩

theorem located_of_scanNumber {atEnd : Bool} {b : UInt8} {rest : Bytes} {f : Fault}
    (hp : Ahead bytes p) (hb : bytes.drop p = b :: rest) (hn : b = 0x2D ∨ isDigit b = true)
    (h : scanNumber (b :: rest) p atEnd = .fault f) : f.Located bytes := by
  have hrun : (b :: rest).takeWhile isNumberByte = b :: rest.takeWhile isNumberByte :=
    List.takeWhile_cons_of_pos (isNumberByte_of_lead hn)
  by_cases hl : ((b :: rest).takeWhile isNumberByte).length ≠ (b :: rest).length ∨ atEnd = true
  · rw [scanNumber_eq_close hl, closeNumber] at h
    split at h
    · cases h
    · next hnone =>
      cases h
      refine ⟨hp, _, by rw [hb], by rw [hrun]; exact List.cons_ne_nil _ _, rfl, fun n hnum => ?_⟩
      rw [hrun] at hnum hnone
      rw [(readNumber?_eq_some_iff (head_ne_plus hn _)).2 hnum] at hnone
      cases hnone
  · simp only [not_or, ne_eq, Decidable.not_not, Bool.not_eq_true] at hl
    rw [hl.2, scanNumber_eq_more hl.1] at h
    cases h

theorem located_of_scan {atEnd : Bool} {f : Fault} (hp : Ahead bytes p)
    (h : scan (bytes.drop p) p atEnd = .fault f) : f.Located bytes := by
  cases hb : bytes.drop p with
  | nil =>
    rw [hb] at h
    exact located_of_incomplete h
  | cons b rest =>
    rw [hb] at h
    cases lead b with
    | punctuation t ht =>
      rw [scan_punctuation ht] at h
      cases h
    | quote hq =>
      subst hq
      rw [scan_quote] at h
      exact located_of_scanString hp hb h
    | number hn =>
      rw [scan_number hn] at h
      exact located_of_scanNumber hp hb hn h
    | word t word hw =>
      rw [scan_word hw] at h
      refine located_of_scanWord ?_ h
      rw [← List.drop_drop, hb]
      rfl
    | never hf =>
      rw [hf] at h
      cases h
      exact getElem?_of_drop hb

end

namespace Machine

variable {σ : Type} {v : Visitor σ} {atEnd : Bool} {bytes : Bytes} {m n : Machine σ}

/-- The machine stands at its offset in the bytes. Before the document is complete tokens lead up to
there, whatever follows unless these are all bytes there are. -/
structure Placed (atEnd : Bool) (bytes : Bytes) (m : Machine σ) : Prop where
  offset_le : m.offset ≤ bytes.length
  pending : m.pending = bytes.drop m.offset
  ahead : m.fault = none → m.expect ≠ .nothing → ∀ more, (atEnd = true → more = []) →
    Ahead (bytes ++ more) m.offset
  located : ∀ f, m.fault = some f → f.Located bytes

namespace Placed

theorem drop_append (h : m.Placed atEnd bytes) (more : Bytes) :
    (bytes ++ more).drop m.offset = m.pending ++ more := by
  rw [List.drop_append_of_le_length h.offset_le, h.pending]

theorem advance_le (h : m.Placed atEnd bytes) {k : Nat} (hk : k ≤ m.pending.length) :
    (m.advance k).offset ≤ bytes.length := by
  have hl := h.offset_le
  rw [h.pending, List.length_drop] at hk
  simp only [advance]
  omega

theorem pending_advance (h : m.Placed atEnd bytes) (k : Nat) :
    (m.advance k).pending = bytes.drop (m.advance k).offset := by
  simp only [advance, h.pending, List.drop_drop]

theorem skipSpace (h : m.Placed atEnd bytes) : m.skipSpace.Placed atEnd bytes where
  offset_le := h.advance_le (List.takeWhile_prefix _).length_le
  pending := h.pending_advance _
  ahead hf hx more hm := by
    have hpend : m.pending = m.pending.takeWhile isSpace ++ m.skipSpace.pending :=
      (List.prefix_iff_eq_append.1 (List.takeWhile_prefix isSpace)).symm
    have hdrop : (bytes ++ more).drop m.offset =
        m.pending.takeWhile isSpace ++ (m.skipSpace.pending ++ more) := by
      rw [h.drop_append, ← List.append_assoc, ← hpend]
    exact (h.ahead hf hx more hm).space hdrop
      (List.all_eq_true.1 (List.all_takeWhile (p := isSpace)))
  located := h.located

theorem fail (h : m.Placed atEnd bytes) {f : Fault} (hf : f.Located bytes) :
    (m.fail f).Placed atEnd bytes where
  offset_le := h.offset_le
  pending := h.pending
  ahead := nofun
  located _ h := by cases h; exact hf

theorem pass (h : m.Placed atEnd bytes) (hm : m.Seeks) {t : Token} {k : Nat}
    (hl : m.look atEnd = .token t k) : (m.pass v t k).Placed atEnd bytes := by
  have hs := h.skipSpace
  obtain ⟨word, rest, hpend, rfl, hlex, hend⟩ := lexeme_of_scan_append hl
  have hk : word.length ≤ m.skipSpace.pending.length := by
    rw [hpend, List.length_append]
    omega
  have hdrop (more : Bytes) : (bytes ++ more).drop m.skipSpace.offset = word ++ (rest ++ more) := by
    rw [hs.drop_append, hpend, List.append_assoc]
  unfold Machine.pass accept
  cases ha : accept? v m.skipSpace t with
  | none =>
    have hp : Ahead (bytes ++ []) m.skipSpace.offset := hs.ahead hm.fault hm.expect [] fun _ => rfl
    have hd := hdrop []
    simp only [List.append_nil] at hp hd
    have hf : (Fault.unexpectedToken t.description m.skipSpace.offset).Located bytes :=
      ⟨hp, t, word, rest, hd, hlex, List.append_nil rest ▸ hend [] fun _ => rfl, rfl⟩
    exact ⟨hs.advance_le hk, hs.pending_advance _, nofun, (hs.fail hf).located⟩
  | some n =>
    rw [eq_carry_of_accept? ha]
    refine ⟨hs.advance_le hk, hs.pending_advance _, fun _ _ more hm' => ?_, fun f hf => ?_⟩
    · exact (hs.ahead hm.fault hm.expect more hm').token (hdrop more) hlex (hend more hm')
    · exact hs.located f hf

theorem read (h : m.Placed atEnd bytes) : (read v atEnd m).Placed atEnd bytes := by
  induction m using read_induction v atEnd with
  | fault m hf => rwa [read_of_fault hf]
  | empty m hf hp => rw [read_of_empty hf hp]; exact h.skipSpace
  | nothing m hf hp hn =>
    have hs := h.skipSpace
    rw [read_of_nothing hf hp hn]
    exact ⟨hs.advance_le (Nat.le_refl _), hs.pending_advance _, fun _ hx => absurd hn hx,
      hs.located⟩
  | more m hm hl => rw [read_of_more hm hl]; exact h.skipSpace
  | bad m f hm hl =>
    have hs := h.skipSpace
    have hp : Ahead (bytes ++ []) m.skipSpace.offset := hs.ahead hm.fault hm.expect [] fun _ => rfl
    rw [List.append_nil] at hp
    rw [read_of_bad hm hl]
    unfold look at hl
    rw [hs.pending] at hl
    exact hs.fail (located_of_scan hp hl)
  | token m t k hm hl ih =>
    rw [read_of_token hm hl]
    exact ih (h.pass hm hl)

theorem tell (h : m.Placed atEnd bytes) (e : Visit.Event) : (tell v m e).Placed atEnd bytes :=
  ⟨h.offset_le, h.pending, h.ahead, h.located⟩

theorem append (h : m.Placed false bytes) (hm : m.fault = none) (data : Bytes) :
    (m.append data).Placed false (bytes ++ data) where
  offset_le := Nat.le_trans h.offset_le (by rw [List.length_append]; omega)
  pending := (h.drop_append data).symm
  ahead hf hx more _ := by
    rw [List.append_assoc]
    exact h.ahead hf hx (data ++ more) nofun
  located f hf := by
    have hnone : m.fault = some f := hf
    rw [hm] at hnone
    cases hnone

theorem take (h : m.Placed false bytes) (hm : m.wantsMore = true) (data : Bytes) :
    (take v m data).2.Placed false (bytes ++ data) := by
  have hf : m.fault = none := by
    cases hf : m.fault <;> simp [wantsMore, hf] at hm ⊢
  have hp : (m.readPiece v data).Placed false (bytes ++ data) := ((h.append hf data).read).tell _
  cases hv : v.wantsMore (m.readPiece v data).visitor with
  | true => rwa [take_of_wantsMore hm hv]
  | false =>
    rw [take_of_stop hm hv]
    exact ⟨hp.offset_le, hp.pending, hp.ahead, hp.located⟩

theorem closed (h : m.Placed false bytes) : m.Placed true bytes :=
  ⟨h.offset_le, h.pending, fun hf hx more _ => h.ahead hf hx more nofun, h.located⟩

theorem readEnd (h : m.Placed true bytes) : (readEnd v m).Placed true bytes := by
  cases hm : m.fault.isSome || m.stopped with
  | true => rwa [readEnd_of_closed hm]
  | false =>
    have hr : (Machine.read v true m).Placed true bytes := h.read
    rw [readEnd_of_open hm, conclude]
    split
    · exact hr.fail trivial
    · exact hr

end Placed

inductive Reached (v : Visitor σ) : Bytes → Machine σ → Prop where
  | fresh (s : σ) : Reached v [] (onto s)
  | begin {bytes : Bytes} {m : Machine σ} : Reached v bytes m → Reached v bytes (begin v m)
  | take {bytes : Bytes} {m : Machine σ} (data : Bytes) : Reached v bytes m →
    m.wantsMore = true → Reached v (bytes ++ data) (take v m data).2
  | late {bytes : Bytes} {m : Machine σ} (data : Bytes) : Reached v bytes m →
    m.wantsMore = false → Reached v bytes (take v m data).2
  | finish {bytes : Bytes} {m : Machine σ} : Reached v bytes m → Reached v bytes (finish v m).2

theorem wantsMore_readEnd (v : Visitor σ) (m : Machine σ) : (readEnd v m).wantsMore = false := by
  cases hm : m.fault.isSome || m.stopped with
  | true =>
    rw [readEnd_of_closed hm]
    cases hf : m.fault <;> simp_all [wantsMore]
  | false =>
    rw [readEnd_of_open hm, conclude]
    split
    · simp [wantsMore, fail]
    · next hn =>
      cases hf : (read v true m).fault <;> simp_all [wantsMore]

theorem Reached.placed (h : Reached v bytes m) :
    ∃ atEnd, m.Placed atEnd bytes ∧ (atEnd = true → m.wantsMore = false) := by
  induction h with
  | fresh s => exact ⟨false, ⟨Nat.le_refl _, rfl, fun _ _ more _ => ahead_zero _, nofun⟩, nofun⟩
  | begin _ ih =>
    obtain ⟨atEnd, hp, hw⟩ := ih
    exact ⟨atEnd, hp.tell _, hw⟩
  | @take bytes m data _ hm ih =>
    obtain ⟨atEnd, hp, hw⟩ := ih
    cases atEnd with
    | false => exact ⟨false, hp.take hm data, nofun⟩
    | true => rw [hw rfl] at hm; cases hm
  | late data _ hm ih =>
    rw [take_of_not_wantsMore hm]
    exact ih
  | @finish bytes m _ ih =>
    obtain ⟨atEnd, hp, -⟩ := ih
    have hc : m.Placed true bytes := by
      cases atEnd with
      | true => exact hp
      | false => exact hp.closed
    rw [finish_snd]
    exact ⟨true, (hc.readEnd).tell _, fun _ => wantsMore_readEnd v m⟩

/-- What was not read yet are the bytes from the offset on. A fault lies at a place of the bytes,
and it is to be found there. -/
theorem fault_located (h : Reached v bytes m) :
    m.offset ≤ bytes.length ∧ m.pending = bytes.drop m.offset ∧
      ∀ f, m.fault = some f → f.Located bytes ∧ ∀ o, f.offset? = some o → o < bytes.length := by
  obtain ⟨atEnd, hp, -⟩ := h.placed
  refine ⟨hp.offset_le, hp.pending, fun f hf => ?_⟩
  have hl := hp.located f hf
  exact ⟨hl, fun o => hl.lt_length⟩

theorem fault_located_surrogate :
    let v := Visitor.essentials
    let m := takeAll v (begin v (onto [])) [[0x5B, 0x22, 0x61, 0x5C, 0x75, 0x64, 0x38],
      [0x33, 0x64, 0x5C, 0x75, 0x30], [0x30, 0x65, 0x39, 0x22]]
    let bytes := [0x5B, 0x22, 0x61, 0x5C, 0x75, 0x64, 0x38, 0x33, 0x64, 0x5C, 0x75, 0x30, 0x30,
      0x65, 0x39, 0x22]
    Reached v bytes m ∧ m.pending = bytes.drop m.offset ∧
      m.fault = some (.badEscape 3) ∧ (Fault.badEscape 3).Located bytes := by
  intro v m bytes
  have hm : Reached v bytes m := by
    have hb : Reached v [] (begin v (onto [])) := (Reached.fresh []).begin
    have hone := hb.take [0x5B, 0x22, 0x61, 0x5C, 0x75, 0x64, 0x38] (by decide +kernel)
    have htwo := hone.take [0x33, 0x64, 0x5C, 0x75, 0x30] (by decide +kernel)
    exact htwo.take [0x30, 0x65, 0x39, 0x22] (by decide +kernel)
  have hf : m.fault = some (.badEscape 3) := by decide +kernel
  obtain ⟨-, hpending, hlocated⟩ := fault_located hm
  exact ⟨hm, hpending, hf, (hlocated _ hf).1⟩

end Machine

end AttributeTrees.Json.Stream
