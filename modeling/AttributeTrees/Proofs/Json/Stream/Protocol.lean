import AttributeTrees.Proofs.Json.Stream.Place
/-!
# What a visitor can rely on

A visitor may ask to stop at any time, and the input may break off, go wrong or go on behind the
document. What is kept in all of that is an invariant of the machine: between the start and the end
a part of some tree's events is told, a flush that is answered with a no is the last event, and
input is left over once at most. Main statement: whatever a feed is given until it is ended, what
the visitor received keeps the protocol.
-/
namespace AttributeTrees.Json.Stream.Machine

open Text.Utf8 (Bytes)
open Visit (Event Tree Visitor essential essential_append)
open Visit.Visitor (essentials)

variable {σ : Type} {v : Visitor σ}

section
variable {I : σ → Prop} (hI : ∀ s e, e.isContent = true → I s → I (v.receive s e))
  {m n : Machine σ} {t : Token}

include hI

theorem keeps_valueDone (hm : I m.visitor) : I (valueDone v m).visitor := by
  unfold valueDone
  split
  · exact hI _ _ rfl hm
  · exact hm
  · exact hm
  · exact hm

theorem keeps_acceptValue (hm : I m.visitor) (h : acceptValue v m t = some n) : I n.visitor := by
  unfold acceptValue at h
  split at h
  · cases h
    exact hI _ _ rfl hm
  · cases h
    exact hI _ _ rfl hm
  · obtain ⟨run, -, rfl⟩ := Option.map_eq_some_iff.1 h
    exact keeps_valueDone hI (hI _ _ rfl hm)

theorem keeps_closeArray (hm : I m.visitor) (h : closeArray v m = some n) : I n.visitor := by
  unfold closeArray at h
  split at h <;> cases h
  exact keeps_valueDone hI (hI _ _ rfl hm)

theorem keeps_closeObject (hm : I m.visitor) (h : closeObject v m = some n) : I n.visitor := by
  unfold closeObject at h
  split at h <;> cases h
  exact keeps_valueDone hI (hI _ _ rfl hm)

theorem keeps_accept? (hm : I m.visitor) (h : accept? v m t = some n) : I n.visitor := by
  unfold accept? at h
  split at h
  · exact keeps_closeArray hI hm h
  · exact keeps_acceptValue hI hm h
  · exact keeps_acceptValue hI hm h
  · exact keeps_closeArray hI hm h
  · exact keeps_closeObject hI hm h
  · cases h
    exact hm
  · exact keeps_closeObject hI hm h
  · cases h
    exact hI _ _ rfl hm
  · cases h
    exact hm
  · cases h

theorem keeps_pass (hm : I m.visitor) (k : Nat) : I (m.pass v t k).visitor := by
  change I (accept v m.skipSpace t m.skipSpace.offset).visitor
  unfold accept
  cases h : accept? v m.skipSpace t with
  | none => exact hm
  | some n => exact keeps_accept? (m := m.skipSpace) hI hm h

end

section
variable {s : σ} {m : Machine (List Event)} {atEnd : Bool}

theorem visitor_read (v : Visitor σ) (s : σ) (atEnd : Bool) (m : Machine (List Event)) :
    ∃ told left, (read (v.history s) atEnd m).visitor = m.visitor ++ (told ++ left) ∧
      told.all Event.isContent = true ∧
      (left = [] ∨ ∃ b, left = [.unparsed b] ∧ (read (v.history s) atEnd m).expect = .nothing) := by
  induction m using read_induction (v.history s) atEnd with
  | fault m hf =>
    rw [read_of_fault hf]
    exact ⟨[], [], (List.append_nil _).symm, rfl, .inl rfl⟩
  | empty m hf hp =>
    rw [read_of_empty hf hp]
    exact ⟨[], [], (List.append_nil _).symm, rfl, .inl rfl⟩
  | nothing m hf hp hn =>
    rw [read_of_nothing hf hp hn]
    exact ⟨[], [.unparsed [m.skipSpace.pending]], rfl, rfl, .inr ⟨_, rfl, hn⟩⟩
  | more m hm hl =>
    rw [read_of_more hm hl]
    exact ⟨[], [], (List.append_nil _).symm, rfl, .inl rfl⟩
  | bad m f hm hl =>
    rw [read_of_bad hm hl]
    exact ⟨[], [], (List.append_nil _).symm, rfl, .inl rfl⟩
  | token m t k hm hl ih =>
    rw [read_of_token hm hl]
    obtain ⟨told, left, hv, ht, hr⟩ := ih
    have hpass : ∃ es, (m.pass (v.history s) t k).visitor = m.visitor ++ es ∧
        es.all Event.isContent = true := by
      refine keeps_pass
        (I := fun log => ∃ es, log = m.visitor ++ es ∧ es.all Event.isContent = true)
        ?_ ⟨[], (List.append_nil _).symm, rfl⟩ k
      rintro _ e he ⟨es, rfl, hes⟩
      exact ⟨es ++ [e], List.append_assoc .., by simp [hes, he]⟩
    obtain ⟨es, hes, hcontent⟩ := hpass
    exact ⟨es ++ told, left, by rw [hv, hes]; simp, by rw [List.all_append, hcontent, ht]; rfl, hr⟩

theorem pending_read {v : Visitor σ} {m : Machine σ} (hf : (read v atEnd m).fault = none)
    (hx : (read v atEnd m).expect = .nothing) : (read v atEnd m).pending = [] := by
  induction m using read_induction v atEnd with
  | fault m hm =>
    rw [read_of_fault hm] at hf
    simp [hf] at hm
  | empty m hm hp => rwa [read_of_empty hm hp]
  | nothing m hm hp hn =>
    rw [read_of_nothing hm hp hn]
    exact List.drop_length
  | more m hm hl =>
    rw [read_of_more hm hl] at hx
    exact absurd hx hm.expect
  | bad m f hm hl =>
    rw [read_of_bad hm hl] at hf
    cases hf
  | token m t k hm hl ih =>
    rw [read_of_token hm hl] at hf hx ⊢
    exact ih hf hx

def LeftOnce (log : List Event) : Prop :=
  (∀ b, .unparsed b ∉ log) ∨ ∃ before b behind, log = before ++ .unparsed b :: behind ∧
    (∃ t : Tree, t.Single ∧ essential before = .start :: t.events) ∧
    ∀ c, .unparsed c ∉ before ++ behind

theorem LeftOnce.snoc {log : List Event} {e : Event} (h : LeftOnce log)
    (he : ∀ b, e ≠ .unparsed b) : LeftOnce (log ++ [e]) := by
  rcases h with h | ⟨before, b, behind, rfl, ht, h⟩
  · refine .inl fun b hb => ?_
    rcases List.mem_append.1 hb with hb | hb
    · exact h b hb
    · exact he b (List.mem_singleton.1 hb).symm
  · refine .inr ⟨before, b, behind ++ [e], by simp, ht, fun c hc => ?_⟩
    rw [← List.append_assoc] at hc
    rcases List.mem_append.1 hc with hc | hc
    · exact h c hc
    · exact he c (List.mem_singleton.1 hc).symm

/-- What holds of a machine at any time, of what it told and of the answers it was given. -/
structure Orderly (v : Visitor σ) (s : σ) (m : Machine (List Event)) : Prop where
  stands : ∃ ts, (m.map essential).Stands ts
  framed : ∃ between, m.visitor = .start :: between ∧
    ∀ e ∈ between, e.isContent = true ∨ e.isAside = true
  left : LeftOnce m.visitor
  clean : m.expect ≠ .nothing → ∀ b, .unparsed b ∉ m.visitor
  spent : m.fault = none → m.expect = .nothing → m.pending = []
  /-- Only the last flush may be answered with a no, and then the machine has stopped. -/
  asked : ∀ before, before ++ [.flush] <+: m.visitor →
    v.wantsMore (v.receiveAll s (before ++ [.flush])) = false →
    m.stopped = true ∧ m.visitor = before ++ [.flush]
  refused : m.stopped = true → ∃ before, m.visitor = before ++ [.flush] ∧
    v.wantsMore (v.receiveAll s (before ++ [.flush])) = false

theorem prefix_of_not_mem {es fs before : List Event} {e : Event} (h : before ++ [e] <+: es ++ fs)
    (he : e ∉ fs) : before ++ [e] <+: es := by
  obtain ⟨rest, hr⟩ := h
  rcases List.append_eq_append_iff.1 hr with ⟨more, hm, -⟩ | ⟨more, hm, hf⟩
  · exact ⟨more, hm.symm⟩
  · rcases List.eq_nil_or_concat more with rfl | ⟨init, d, rfl⟩
    · exact ⟨[], by simpa using hm⟩
    · rw [List.concat_eq_append, ← List.append_assoc] at hm
      have hd : e = d := List.singleton_inj.1 (List.append_inj_right' hm rfl)
      refine absurd ?_ he
      rw [hf, hd]
      simp

theorem Orderly.append (hm : Orderly v s m) (hx : m.expect ≠ .nothing) (data : Bytes) :
    Orderly v s (m.append data) :=
  { hm with spent := fun _ h => absurd h hx }

theorem map_read (v : Visitor σ) (s : σ) (atEnd : Bool) (m : Machine (List Event)) :
    (read (v.history s) atEnd m).map essential = read essentials atEnd (m.map essential) :=
  (read_map (respects_essential v s) atEnd m).symm

theorem Orderly.silent (hm : Orderly v s m) (hs : m.Settled) (atEnd : Bool) :
    (Machine.read (v.history s) atEnd m).visitor = m.visitor ∧
      (Machine.read (v.history s) atEnd m).expect = m.expect := by
  cases hf : m.fault with
  | some f =>
    rw [read_of_fault (by simp [hf])]
    exact ⟨rfl, rfl⟩
  | none =>
    have hn : m.expect = .nothing := by simpa [Settled, hf] using hs
    rw [read_of_empty hf (by simp [skipSpace, advance, hm.spent hf hn])]
    exact ⟨rfl, rfl⟩

theorem Orderly.leftOnce_read (hm : Orderly v s m) (atEnd : Bool) :
    LeftOnce (Machine.read (v.history s) atEnd m).visitor ∧
      ((Machine.read (v.history s) atEnd m).expect ≠ .nothing →
        ∀ b, .unparsed b ∉ (Machine.read (v.history s) atEnd m).visitor) := by
  by_cases hs : m.Settled
  · obtain ⟨hv, hx⟩ := hm.silent hs atEnd
    rw [hv, hx]
    exact ⟨hm.left, hm.clean⟩
  · obtain ⟨told, left, hv, ht, hl⟩ := visitor_read v s atEnd m
    have hc : ∀ b, Event.unparsed b ∉ m.visitor ++ told := by
      intro b hb
      rcases List.mem_append.1 hb with hb | hb
      · exact hm.clean (fun hn => hs (.inr hn)) b hb
      · exact absurd (List.all_eq_true.1 ht _ hb) nofun
    rw [hv, ← List.append_assoc]
    rcases hl with rfl | ⟨b, rfl, hx⟩
    · rw [List.append_nil]
      exact ⟨.inl hc, fun _ => hc⟩
    · obtain ⟨ts, hts⟩ := hm.stands
      obtain ⟨us, rest, -, hst⟩ := hts.read atEnd
      rw [← map_read v s] at hst
      obtain ⟨tree, hp, hw⟩ := hst.complete hx
      have he : essential (m.visitor ++ told) = .start :: tree.events := by
        rw [← hw, Machine.map, hv, ← List.append_assoc]
        exact ((essential_append _ [Event.unparsed b]).trans (List.append_nil _)).symm
      exact ⟨.inr ⟨_, b, [], rfl, ⟨tree, hp.single, he⟩, by simpa using hc⟩, fun h => absurd hx h⟩

theorem Orderly.read (hm : Orderly v s m) (hs : m.stopped = false) (atEnd : Bool) :
    Orderly v s (read (v.history s) atEnd m) := by
  obtain ⟨told, left, hv, ht, hl⟩ := visitor_read v s atEnd m
  obtain ⟨ts, hts⟩ := hm.stands
  obtain ⟨us, rest, -, hst⟩ := hts.read atEnd
  rw [← map_read v s] at hst
  have hstop := stopped_read (v.history s) atEnd m
  have hcontent : ∀ e ∈ told, e.isContent = true := List.all_eq_true.1 ht
  have hflush : Event.flush ∉ told ++ left := by
    intro h
    rcases List.mem_append.1 h with h | h
    · exact absurd (hcontent _ h) nofun
    · rcases hl with rfl | ⟨b, rfl, -⟩ <;> simp at h
  have hasked : ∀ before, before ++ [.flush] <+: (Machine.read (v.history s) atEnd m).visitor →
      v.wantsMore (v.receiveAll s (before ++ [.flush])) = true := by
    intro before hb
    rw [hv] at hb
    cases hw : v.wantsMore (v.receiveAll s (before ++ [.flush])) with
    | true => rfl
    | false =>
      have ha := (hm.asked before (prefix_of_not_mem hb hflush) hw).1
      rw [hs] at ha
      cases ha
  refine ⟨⟨_, hst⟩, ?_, ?_, ?_, pending_read, ?_, ?_⟩
  · obtain ⟨between, hb, hin⟩ := hm.framed
    refine ⟨between ++ (told ++ left), by rw [hv, hb]; rfl, fun e he => ?_⟩
    simp only [List.mem_append] at he
    rcases he with he | he | he
    · exact hin e he
    · exact .inl (hcontent e he)
    · rcases hl with rfl | ⟨b, rfl, -⟩
      · cases he
      · rw [List.mem_singleton.1 he]
        exact .inr rfl
  · exact (hm.leftOnce_read atEnd).1
  · exact (hm.leftOnce_read atEnd).2
  · intro before hb hw
    rw [hasked before hb] at hw
    cases hw
  · intro h
    rw [hstop, hs] at h
    cases h

theorem Orderly.conclude (hm : Orderly v s m) : Orderly v s m.conclude := by
  unfold Machine.conclude
  split
  · exact { hm with spent := nofun }
  · exact hm

theorem Orderly.flush (hm : Orderly v s m) (hs : m.stopped = false) :
    Orderly v s { tell (v.history s) m .flush with
      stopped := !v.wantsMore (v.receiveAll s (m.visitor ++ [.flush])) } := by
  refine ⟨?_, ?_, ?_, ?_, hm.spent, ?_, ?_⟩
  · obtain ⟨ts, hts⟩ := hm.stands
    refine ⟨ts, ?_⟩
    have he : essential (m.visitor ++ [.flush]) = essential m.visitor :=
      (essential_append _ _).trans (List.append_nil _)
    change ∃ es, essential (m.visitor ++ [.flush]) = _ ∧ _
    rw [he]
    exact hts
  · obtain ⟨between, hb, hin⟩ := hm.framed
    refine ⟨between ++ [Event.flush], congrArg (· ++ [Event.flush]) hb, fun e he => ?_⟩
    rcases List.mem_append.1 he with he | he
    · exact hin e he
    · rw [List.mem_singleton.1 he]
      exact .inr rfl
  · exact hm.left.snoc nofun
  · intro hx b hb
    rcases List.mem_append.1 hb with hb | hb
    · exact hm.clean hx b hb
    · cases List.mem_singleton.1 hb
  · intro before hb hw
    rcases List.prefix_concat_iff.1 hb with he | hb
    · rw [he] at hw
      exact ⟨by simp [hw], he.symm⟩
    · have ha := (hm.asked before hb hw).1
      rw [hs] at ha
      cases ha
  · intro h
    exact ⟨m.visitor, rfl, by simpa using h⟩

theorem take_snd {m : Machine σ} (hm : m.wantsMore = true) (data : Bytes) :
    (take v m data).2 = { m.readPiece v data with
      stopped := !v.wantsMore (m.readPiece v data).visitor } := by
  have hs : (m.readPiece v data).stopped = false := by
    have h := stopped_read v false (m.append data)
    simp_all [wantsMore, readPiece, append, tell]
  cases hv : v.wantsMore (m.readPiece v data).visitor with
  | true =>
    rw [take_of_wantsMore hm hv]
    simp [← hs]
  | false => rw [take_of_stop hm hv]; rfl

theorem Orderly.take (hm : Orderly v s m) (data : Bytes) :
    Orderly v s (take (v.history s) m data).2 := by
  cases hw : m.wantsMore with
  | false => rwa [take_of_not_wantsMore hw]
  | true =>
    obtain ⟨⟨hf, hs⟩, hx⟩ : (m.fault = none ∧ m.stopped = false) ∧ m.expect ≠ .nothing := by
      simpa [wantsMore] using hw
    rw [take_snd hw]
    have hr : Orderly v s (Machine.read (v.history s) false (m.append data)) :=
      (hm.append hx data).read hs false
    exact hr.flush ((stopped_read _ _ _).trans hs)

theorem Orderly.readEnd (hm : Orderly v s m) : Orderly v s (readEnd (v.history s) m) := by
  cases hc : m.fault.isSome || m.stopped with
  | true => rwa [readEnd_of_closed hc]
  | false =>
    rw [readEnd_of_open hc]
    exact (hm.read (by simp_all) true).conclude

end

def given (v : Visitor σ) (s : σ) (chunks : List Bytes) : Feed (Machine σ) :=
  chunks.foldl (Feed.give (parser v)) (Feed.start (parser v) (onto s))

def fed (v : Visitor σ) (s : σ) (chunks : List Bytes) : Feed (Machine σ) :=
  Feed.finish (parser v) (given v s chunks)

end AttributeTrees.Json.Stream.Machine
