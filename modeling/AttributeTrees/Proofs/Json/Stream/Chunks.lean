import AttributeTrees.Proofs.Json.Stream.Scanning
import AttributeTrees.Proofs.Json.Stream.Transport
/-!
# Cutting a stream into pieces

What a machine has read of a piece it would have read as well with more bytes behind it, and what
it left pending it reads again. So how a stream is cut into pieces decides nothing but where the
flushes stand and which bytes are reported as unparsed. Main statement: two ways of cutting the
same bytes tell a visitor that never stops the same of the document and end in the same fault, or
both in none.
-/
namespace AttributeTrees.Json.Stream.Machine

open Text.Utf8 (Bytes)
open Visit (Event Visitor essential essential_append)
open Visit.Visitor (NeverStops essentials)

variable {σ : Type} {v : Visitor σ} {m n : Machine σ} {atEnd : Bool} {t : Token} {k : Nat}

@[simp] theorem append_nil (m : Machine σ) : m.append [] = m := by
  simp [append]

theorem append_append (m : Machine σ) (data rest : Bytes) :
    (m.append data).append rest = m.append (data ++ rest) := by
  simp [append]

theorem skipSpace_append (m : Machine σ) (rest : Bytes) :
    (m.append rest).skipSpace = (m.skipSpace.append rest).skipSpace := by
  obtain ⟨s, pending, offset, frames, expect, fault, stopped⟩ := m
  induction pending generalizing offset with
  | nil => rfl
  | cons b pending ih =>
    by_cases hb : isSpace b = true
    · have h := ih (offset + 1)
      simp only [skipSpace, advance, append, List.cons_append, List.takeWhile_cons, hb, if_true,
        List.length_cons, List.drop_succ_cons, mk.injEq, true_and, and_true] at h ⊢
      refine ⟨h.1, ?_⟩
      have ho := h.2
      omega
    · simp [skipSpace, advance, append, hb]

theorem skipSpace_append_of_pending (hp : m.skipSpace.pending ≠ []) (rest : Bytes) :
    (m.append rest).skipSpace = m.skipSpace.append rest := by
  have hl : (m.pending.takeWhile isSpace).length < m.pending.length := by
    simpa [skipSpace, advance] using hp
  have ht : (m.pending ++ rest).takeWhile isSpace = m.pending.takeWhile isSpace := by
    rw [List.takeWhile_append, if_neg (Nat.ne_of_lt hl)]
  simp [skipSpace, advance, append, ht, List.drop_append_of_le_length (Nat.le_of_lt hl)]

theorem read_congr (hm : m.fault = none) (hn : n.fault = none) (h : m.skipSpace = n.skipSpace) :
    read v atEnd m = read v atEnd n := by
  have he : m.skipSpace.expect = n.skipSpace.expect := by rw [h]
  change m.expect = n.expect at he
  by_cases hp : n.skipSpace.pending = []
  · rw [read_of_empty hm (h ▸ hp), read_of_empty hn hp, h]
  · by_cases hx : n.expect = .nothing
    · rw [read_of_nothing hm (h ▸ hp) (he.trans hx), read_of_nothing hn hp hx, h]
    · rw [read_of_seeks ⟨hm, he ▸ hx, h ▸ hp⟩, read_of_seeks ⟨hn, hx, hp⟩]
      simp only [look, pass, h]

theorem Seeks.append (hm : m.Seeks) (rest : Bytes) : (m.append rest).Seeks := by
  refine ⟨hm.fault, hm.expect, ?_⟩
  rw [skipSpace_append_of_pending hm.pending]
  exact List.append_ne_nil_of_left_ne_nil hm.pending _

theorem look_append (hm : m.Seeks) (hl : m.look false ≠ .more) (rest : Bytes) (atEnd : Bool) :
    (m.append rest).look atEnd = m.look false := by
  rw [look, skipSpace_append_of_pending hm.pending]
  exact scan_append hl rest atEnd

theorem accept_append (m : Machine σ) (t : Token) (offset : Nat) (rest : Bytes) :
    accept v (m.append rest) t offset = (accept v m t offset).append rest := by
  have hc := accept?_carry (respects_id v) (m.append rest) m t
  rw [show m.carry id (m.append rest) = m.append rest from rfl] at hc
  unfold accept
  rw [hc]
  cases ha : accept? v m t with
  | none => rfl
  | some n =>
    rw [eq_carry_of_accept? ha]
    rfl

theorem pass_append (hm : m.Seeks) (hk : k ≤ m.skipSpace.pending.length) (rest : Bytes) :
    (m.append rest).pass v t k = (m.pass v t k).append rest := by
  rw [pass, skipSpace_append_of_pending hm.pending, accept_append]
  simp [pass, advance, append, List.drop_append_of_le_length hk]

theorem read_append (v : Visitor σ) (m : Machine σ) (rest : Bytes) (atEnd : Bool)
    (hf : (read v false m).fault = none) (hx : (read v false m).expect ≠ .nothing) :
    read v atEnd (m.append rest) = read v atEnd ((read v false m).append rest) := by
  -- Along the rounds of reading the part: what each of them finds, reading the whole finds too.
  induction m using read_induction v false with
  | fault m hm => rw [read_of_fault hm]
  | empty m hm hp =>
    rw [read_of_empty hm hp]
    exact read_congr hm hm (skipSpace_append m rest)
  | nothing m hm hp hn =>
    rw [read_of_nothing hm hp hn] at hx
    exact absurd hn hx
  | more m hm hl =>
    rw [read_of_more hm hl]
    exact read_congr hm.fault hm.fault (skipSpace_append m rest)
  | bad m f hm hl =>
    rw [read_of_bad hm hl] at hf
    cases hf
  | token m t k hm hl ih =>
    have hs : (m.append rest).look atEnd = .token t k := by
      rw [look_append hm (by rw [hl]; nofun), hl]
    rw [read_of_token hm hl] at hf hx ⊢
    rw [read_of_token (hm.append rest) hs, pass_append hm (length_le_of_scan hl), ih hf hx]

/-- What a machine has come to, apart from the bytes it has not read. -/
def outcome (m : Machine σ) : σ × List Frame × Expect × Option Fault :=
  (m.visitor, m.frames, m.expect, m.fault)

def Settled (m : Machine σ) : Prop := m.fault.isSome = true ∨ m.expect = .nothing

theorem outcome_eq_iff {p q : Machine σ} : p.outcome = q.outcome ↔
    p.visitor = q.visitor ∧ p.frames = q.frames ∧ p.expect = q.expect ∧ p.fault = q.fault := by
  simp [outcome]

theorem settled_iff : m.Settled ↔ ¬ (m.fault = none ∧ m.expect ≠ .nothing) := by
  cases hf : m.fault <;> simp [Settled, hf]

variable {q r : Machine (List Event)}

theorem tell_aside {e : Event} (he : e.isAside = true) (q : Machine (List Event)) :
    tell essentials q e = q := by
  simp [tell, essentials, essential, he]

theorem tell_told {e : Event} (he : e.isAside = false) (q : Machine (List Event)) :
    tell essentials q e = { q with visitor := q.visitor ++ [e] } := by
  simp [tell, essentials, essential, he]

theorem Settled.outcome_read (hq : q.Settled) (atEnd : Bool) :
    (read essentials atEnd q).outcome = q.outcome := by
  cases hf : q.fault with
  | some f => rw [read_of_fault (by simp [hf])]
  | none =>
    have hn : q.expect = .nothing := by simpa [Settled, hf] using hq
    by_cases hp : q.skipSpace.pending = []
    · rw [read_of_empty hf hp]
      rfl
    · rw [read_of_nothing hf hp hn, tell_aside rfl]
      rfl

theorem outcome_read_append (q : Machine (List Event)) (rest : Bytes) (atEnd : Bool)
    (hs : (read essentials false q).Settled) :
    (read essentials atEnd (q.append rest)).outcome = (read essentials false q).outcome := by
  induction q using read_induction essentials false with
  | fault q hf =>
    rw [read_of_fault hf, read_of_fault (m := q.append rest) hf]
    rfl
  | empty q hf hp =>
    rw [read_of_empty hf hp] at hs ⊢
    exact Settled.outcome_read (q := q.append rest) hs atEnd
  | nothing q hf hp hn =>
    rw [Settled.outcome_read (q := q.append rest) (.inr hn), Settled.outcome_read (.inr hn)]
    rfl
  | more q hq hl =>
    rw [read_of_more hq hl] at hs
    rcases hs with hs | hs
    · have hf : q.fault.isSome = true := hs
      simp [hq.fault] at hf
    · exact absurd hs hq.expect
  | bad q f hq hl =>
    have hl' : (q.append rest).look atEnd = .fault f := by
      rw [look_append hq (by rw [hl]; nofun), hl]
    rw [read_of_bad hq hl, read_of_bad (hq.append rest) hl']
    rfl
  | token q t k hq hl ih =>
    have hl' : (q.append rest).look atEnd = .token t k := by
      rw [look_append hq (by rw [hl]; nofun), hl]
    rw [read_of_token hq hl] at hs ⊢
    rw [read_of_token (hq.append rest) hl', pass_append hq (length_le_of_scan hl), ih hs]

theorem outcome_conclude (h : q.outcome = r.outcome) : q.conclude.outcome = r.conclude.outcome := by
  obtain ⟨hv, hf, hx, hr⟩ := outcome_eq_iff.1 h
  simp only [conclude, hx, hr]
  split <;> simp [outcome, fail, *]

theorem Settled.conclude (hq : q.Settled) : q.conclude = q := by
  rcases hq with hf | hn
  · simp [Machine.conclude, Option.isNone_iff_eq_none, Option.isSome_iff_ne_none.1 hf]
  · simp [Machine.conclude, hn]

theorem Settled.outcome_readEnd (hq : q.Settled) :
    (readEnd essentials q).outcome = q.outcome := by
  cases hc : q.fault.isSome || q.stopped with
  | true => rw [readEnd_of_closed hc]
  | false => rw [readEnd_of_open hc, outcome_conclude (hq.outcome_read true), hq.conclude]

theorem outcome_finish_eq {log : List Event} {fs : List Frame} {e : Expect} {f : Option Fault}
    (h : (readEnd essentials q).outcome = (log, fs, e, f)) :
    (finish essentials q).2.outcome = (log ++ [ending f], fs, e, f) := by
  cases h
  have he : (ending (readEnd essentials q).fault).isAside = false := by
    unfold ending
    split <;> rfl
  rw [finish_snd, tell_told he]
  rfl

theorem outcome_finish (h : (readEnd essentials q).outcome = (readEnd essentials r).outcome) :
    (finish essentials q).2.outcome = (finish essentials r).2.outcome := by
  rw [outcome_finish_eq h, outcome_finish_eq rfl]

theorem outcome_finish_take (hs : q.stopped = false) (data rest : Bytes) :
    (finish essentials ((take essentials q data).2.append rest)).2.outcome =
      (finish essentials (q.append (data ++ rest))).2.outcome := by
  refine outcome_finish ?_
  cases hw : q.wantsMore with
  | false =>
    have hq : q.Settled := by
      rw [settled_iff]
      rintro ⟨hf, hx⟩
      simp [wantsMore, hs, hf, hx] at hw
    rw [take_of_not_wantsMore hw, Settled.outcome_readEnd (q := q.append rest) hq,
      Settled.outcome_readEnd (q := q.append _) hq]
    rfl
  | true =>
    have hf : q.fault = none := by simp_all [wantsMore]
    have hc (p : Machine (List Event)) (hp : p.fault = none) (hps : p.stopped = false) :
        (readEnd essentials p) = (read essentials true p).conclude :=
      readEnd_of_open (by simp [hp, hps])
    rw [take_of_wantsMore hw rfl, ← append_append, hc ((q.append data).append rest) hf hs,
      readPiece, tell_aside rfl]
    have hns := stopped_read essentials false (q.append data)
    generalize hn : read essentials false (q.append data) = n at hns
    -- Either the piece settles the matter or what it left pending is read again with the rest.
    by_cases hset : n.Settled
    · have h := outcome_read_append (q.append data) rest true (hn ▸ hset)
      rw [hn] at h
      rw [Settled.outcome_readEnd (q := n.append rest) hset, outcome_conclude h, hset.conclude]
      rfl
    · obtain ⟨hnf, hnx⟩ := Decidable.not_not.1 (mt settled_iff.2 hset)
      have h := read_append essentials (q.append data) rest true (hn ▸ hnf) (hn ▸ hnx)
      rw [h, hn, hc (n.append rest) hnf (hns.trans hs)]

theorem stopped_take (hs : q.stopped = false) (data : Bytes) :
    (take essentials q data).2.stopped = false := by
  cases hw : q.wantsMore with
  | false => rw [take_of_not_wantsMore hw, hs]
  | true =>
    rw [take_of_wantsMore hw rfl]
    exact (stopped_read essentials false (q.append data)).trans hs

theorem outcome_finish_takeAll (hs : q.stopped = false) (chunks : List Bytes) :
    (finish essentials (takeAll essentials q chunks)).2.outcome =
      (finish essentials (q.append chunks.flatten)).2.outcome := by
  induction chunks generalizing q with
  | nil => simp
  | cons data chunks ih =>
    rw [takeAll_cons, ih (stopped_take hs data), outcome_finish_take hs, List.flatten_cons]

/-- A stream comes to what all its bytes at once come to. -/
theorem outcome_run (chunks : List Bytes) :
    (run essentials [] chunks).outcome =
      (finish essentials ((begin essentials (onto [])).append chunks.flatten)).2.outcome :=
  outcome_finish_takeAll rfl chunks

theorem respects_essential (v : Visitor σ) (s : σ) :
    Respects essential (v.history s) essentials := fun log e => essential_append log [e]

variable {s : σ}

theorem run_essentials (hv : NeverStops v s) (chunks : List Bytes) :
    run essentials [] chunks = (run (v.history s) [] chunks).map essential :=
  run_map (respects_essential v s) (fun log => (hv log).symm) [] chunks

theorem essential_log (hv : NeverStops v s) (chunks : List Bytes) :
    essential (log v s chunks) = (run essentials [] chunks).visitor := by
  rw [run_essentials hv]
  rfl

theorem fault_run (hv : NeverStops v s) (chunks : List Bytes) :
    (run v s chunks).fault = (run essentials [] chunks).fault := by
  rw [run_essentials hv, run_eq_map_history]
  rfl

theorem log_getLast? (v : Visitor σ) (s : σ) (chunks : List Bytes) :
    (log v s chunks).getLast? = some (ending (run v s chunks).fault) := by
  rw [run_eq_map_history, log, run, finish_snd]
  exact List.getLast?_concat

/-- However a stream is cut into pieces, a visitor that never stops is told the same of the
document up to the same last event, and the machine meets the same fault or none. -/
theorem essential_log_eq_of_flatten_eq (hv : NeverStops v s) {cs ds : List Bytes}
    (h : cs.flatten = ds.flatten) :
    essential (log v s cs) = essential (log v s ds) ∧
      (∃ last, (last = .finish ∨ last = .fail) ∧
        (log v s cs).getLast? = some last ∧ (log v s ds).getLast? = some last) ∧
      (run v s cs).fault = (run v s ds).fault := by
  have ho : (run essentials [] cs).outcome = (run essentials [] ds).outcome := by
    rw [outcome_run, outcome_run, h]
  obtain ⟨hvis, -, -, hf⟩ := outcome_eq_iff.1 ho
  have hfault : (run v s cs).fault = (run v s ds).fault := by rw [fault_run hv, fault_run hv, hf]
  have hlog : essential (log v s cs) = essential (log v s ds) := by
    rw [essential_log hv, essential_log hv, hvis]
  refine ⟨hlog, ⟨ending (run v s cs).fault, ?_, ?_, ?_⟩, hfault⟩
  · unfold ending
    split
    · exact .inr rfl
    · exact .inl rfl
  · exact log_getLast? v s cs
  · rw [log_getLast?, hfault]

theorem essential_log_number_character :
    let v := Visit.Recorder.visitor
    let s := Visit.Recorder.fresh none true
    let cs := [[0x5B, 0x31], [0x32, 0x2C, 0x22, 0xC3], [0xA9, 0x22, 0x5D]]
    let ds := [[], [0x5B], [0x31, 0x32, 0x2C, 0x22, 0xC3, 0xA9, 0x22, 0x5D]]
    NeverStops v s ∧ cs.flatten = ds.flatten ∧
      essential (log v s cs) = essential (log v s ds) ∧
      (∃ last, (last = .finish ∨ last = .fail) ∧
        (log v s cs).getLast? = some last ∧ (log v s ds).getLast? = some last) ∧
      (run v s cs).fault = (run v s ds).fault :=
  ⟨Visit.Recorder.neverStops true, rfl,
    essential_log_eq_of_flatten_eq (Visit.Recorder.neverStops true) rfl⟩

end AttributeTrees.Json.Stream.Machine
