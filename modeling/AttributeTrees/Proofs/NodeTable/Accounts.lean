import AttributeTrees.Proofs.NodeTable
/-!
# Accounts of a node table

Calls on a table are answered one after the other, for any nodes and any ids, those included that
were never given out or are gone. Main statement: after all such histories an entry has the uses
that the answers say were taken and not ended, an id that is gone stays gone, and an entry stands
for the node that it was made from.
-/
namespace AttributeTrees.NodeTable

variable {ν : Type}

inductive Call (ν : Type) where
  | make (node : ν)
  | addUse (id : NodeId)
  | release (id : NodeId)

inductive Answer where
  | made (id : NodeId)
  | used (id : NodeId) (known : Bool)
  | released (id : NodeId) (known : Bool)
deriving DecidableEq, Repr

def Call.answer [BEq ν] (t : NodeTable ν) : Call ν → Answer × NodeTable ν
  | make node => let (id, t) := t.make node; (.made id, t)
  | addUse id => let (known, t) := t.addUse id; (.used id known, t)
  | release id => let (known, t) := t.release id; (.released id known, t)

def run [BEq ν] (t : NodeTable ν) : List (Call ν) → List Answer × NodeTable ν
  | [] => ([], t)
  | call :: rest =>
    let (answer, t) := call.answer t
    let (log, t) := t.run rest
    (answer :: log, t)

def MadeFrom (calls : List (Call ν)) (log : List Answer) (id : NodeId) (n : ν) : Prop :=
  ∃ i : Nat, calls[i]? = some (.make n) ∧ log[i]? = some (.made id) ∧
    ∀ j < i, log[j]? ≠ some (.made id)

variable {t : NodeTable ν} {id : NodeId} {n : ν} {calls : List (Call ν)} {log : List Answer}

theorem MadeFrom.snoc (h : MadeFrom calls log id n) (call : Call ν) (answer : Answer) :
    MadeFrom (calls ++ [call]) (log ++ [answer]) id n := by
  obtain ⟨i, hcall, hanswer, hfirst⟩ := h
  have hi : i < log.length := (List.getElem?_eq_some_iff.1 hanswer).1
  refine ⟨i, ?_, ?_, fun j hj => ?_⟩
  · rw [List.getElem?_append_left (List.getElem?_eq_some_iff.1 hcall).1, hcall]
  · rw [List.getElem?_append_left hi, hanswer]
  · rw [List.getElem?_append_left (Nat.lt_trans hj hi)]
    exact hfirst j hj

theorem madeFrom_snoc (hlength : log.length = calls.length) (hnew : .made id ∉ log) (n : ν) :
    MadeFrom (calls ++ [.make n]) (log ++ [.made id]) id n := by
  refine ⟨calls.length, by simp, by simp [← hlength], fun j hj h => hnew ?_⟩
  rw [List.getElem?_append_left (hlength ▸ hj)] at h
  exact List.mem_of_getElem? h

def Gone (t : NodeTable ν) (id : NodeId) : Prop := id < t.next ∧ t.find? id = none

theorem Gone.unknown (h : Gone t id) : t.addUse id = (false, t) ∧ t.release id = (false, t) ∧
    t.uses id = 0 ∧ t.get? id = none := by
  simp [NodeTable.addUse, NodeTable.release, uses, get?, h.2]

variable [BEq ν]

theorem Sound.make_lt_next (ht : t.Sound) (n : ν) : (t.make n).1 < (t.make n).2.next := by
  rcases make_eq t n with ⟨e, he, -, hid, heq⟩ | ⟨-, hid, heq⟩
  · rw [hid, heq]
    exact ht.below e he
  · rw [hid, heq]
    exact Nat.lt_succ_self t.next

theorem Sound.get?_of_make [PartialEquivBEq ν] (ht : t.Sound) {m : ν}
    (h : (t.make n).2.get? id = some m) :
    t.get? id = some m ∨ id = t.next ∧ (t.make n).1 = id ∧ m = n := by
  by_cases hid : id < t.next
  · rw [get?_make n hid] at h
    exact .inl h
  · have hlt : id < (t.make n).2.next := by
      by_contra hge
      have hnone := (ht.make n).find?_next (Nat.le_of_not_lt hge)
      rw [get?, hnone] at h
      cases h
    rcases make_eq t n with ⟨e, -, -, -, heq⟩ | ⟨-, hmade, heq⟩
    · rw [heq] at hlt
      exact absurd hlt hid
    · have hnext : id = t.next := by
        rw [heq] at hlt
        exact Nat.le_antisymm (Nat.le_of_lt_succ hlt) (Nat.le_of_not_lt hid)
      subst hnext
      have hnew : t.entries.find? (·.id == t.next) = none := ht.find?_next (Nat.le_refl _)
      rw [heq] at h
      simp only [get?, find?, List.find?_append, hnew, Option.none_or, List.find?_singleton,
        beq_self_eq_true, if_true, Option.map_some, Option.some.injEq] at h
      exact .inr ⟨rfl, hmade, h.symm⟩

theorem Sound.make_fst [PartialEquivBEq ν] (ht : t.Sound) {e : Entry ν} (he : e ∈ t.entries)
    (h : (e.node == n) = true) : (t.make n).1 = e.id := by
  rcases make_eq t n with ⟨d, hd, hdn, hid, -⟩ | ⟨hnew, -, -⟩
  · rw [hid]
    exact ht.nodes d hd e he (BEq.trans hdn (BEq.symm h))
  · rw [hnew e he] at h
    cases h

theorem Sound.pairwise_nodes (ht : t.Sound) :
    t.entries.Pairwise fun d e => (d.node == e.node) = false := by
  refine (List.pairwise_map.1 ht.ids).imp_of_mem fun {d e} hd he hne => ?_
  cases h : d.node == e.node with
  | false => rfl
  | true => exact absurd (ht.nodes d hd e he h) hne

/-- The answers to calls on a new table account for the table behind them. -/
structure Accounts (calls : List (Call ν)) (log : List Answer) (t : NodeTable ν) : Prop where
  sound : t.Sound
  length : log.length = calls.length
  balance : ∀ id, t.uses id + log.count (.released id true) =
    log.count (.made id) + log.count (.used id true)
  issued : ∀ {id}, .made id ∈ log → id < t.next
  origin : ∀ {id n}, t.get? id = some n → MadeFrom calls log id n

theorem accounts_empty : Accounts ([] : List (Call ν)) [] empty where
  sound := sound_empty
  length := rfl
  balance _ := rfl
  issued := nofun
  origin := nofun

theorem Accounts.make [PartialEquivBEq ν] (h : Accounts calls log t) (n : ν) :
    Accounts (calls ++ [.make n]) (log ++ [.made (t.make n).1]) (t.make n).2 where
  sound := h.sound.make n
  length := by simp [h.length]
  balance id := by
    have hb := h.balance id
    rw [h.sound.uses_make]
    by_cases hid : id = (t.make n).1
    · subst hid
      simp
      omega
    · simpa [hid, Ne.symm hid] using hb
  issued {id} hid := by
    rcases List.mem_append.1 hid with hid | hid
    · exact Nat.lt_of_lt_of_le (h.issued hid) (next_le_make t n)
    · cases List.mem_singleton.1 hid
      exact h.sound.make_lt_next n
  origin {id m} hm := by
    rcases h.sound.get?_of_make hm with hold | ⟨hnext, hmade, rfl⟩
    · exact (h.origin hold).snoc _ _
    · rw [hmade]
      refine madeFrom_snoc h.length (fun hin => ?_) m
      exact Nat.lt_irrefl _ (hnext ▸ h.issued hin)

theorem Accounts.addUse (h : Accounts calls log t) (id : NodeId) :
    Accounts (calls ++ [.addUse id]) (log ++ [.used id (t.addUse id).1]) (t.addUse id).2 where
  sound := h.sound.addUse id
  length := by simp [h.length]
  balance j := by
    have hb := h.balance j
    cases hf : t.find? id with
    | none => simpa [NodeTable.addUse, hf] using hb
    | some e =>
      have hg : t.get? id = some e.node := by rw [get?, hf]; rfl
      rw [uses_addUse hg]
      by_cases hj : j = id
      · subst hj
        simp [NodeTable.addUse, hf]
        omega
      · simpa [NodeTable.addUse, hf, hj, Ne.symm hj] using hb
  issued {j} hj := by
    rw [next_addUse]
    exact h.issued (by simpa using hj)
  origin hm := by
    rw [get?_addUse] at hm
    exact (h.origin hm).snoc _ _

theorem Accounts.release (h : Accounts calls log t) (id : NodeId) :
    Accounts (calls ++ [.release id]) (log ++ [.released id (t.release id).1])
      (t.release id).2 where
  sound := h.sound.release id
  length := by simp [h.length]
  balance j := by
    have hb := h.balance j
    cases hf : t.find? id with
    | none => simpa [NodeTable.release, hf] using hb
    | some e =>
      rw [h.sound.uses_release]
      by_cases hj : j = id
      · subst hj
        have hpos : 0 < t.uses j := h.sound.uses_pos_iff.2 ⟨e.node, by rw [get?, hf]; rfl⟩
        simp [NodeTable.release, hf]
        omega
      · simpa [NodeTable.release, hf, hj, Ne.symm hj] using hb
  issued {j} hj := by
    rw [next_release]
    exact h.issued (by simpa using hj)
  origin {j m} hm := by
    rcases h.sound.get?_release id j with hold | hnone
    · exact (h.origin (hold ▸ hm)).snoc _ _
    · rw [hnone] at hm
      cases hm

theorem Accounts.answer [PartialEquivBEq ν] (h : Accounts calls log t) (call : Call ν) :
    Accounts (calls ++ [call]) (log ++ [(call.answer t).1]) (call.answer t).2 := by
  cases call with
  | make n => exact h.make n
  | addUse id => exact h.addUse id
  | release id => exact h.release id

theorem Accounts.run [PartialEquivBEq ν] (h : Accounts calls log t) (more : List (Call ν)) :
    Accounts (calls ++ more) (log ++ (t.run more).1) (t.run more).2 := by
  induction more generalizing calls log t with
  | nil => simpa [NodeTable.run] using h
  | cons call more ih => simpa [NodeTable.run] using ih (h.answer call)

theorem Gone.answer (ht : t.Sound) (h : Gone t id) (call : Call ν) :
    (call.answer t).1 ≠ .made id ∧ Gone (call.answer t).2 id := by
  obtain ⟨hlt, hnone⟩ := h
  cases call with
  | make n =>
    have hget : (t.make n).2.get? id = none := by
      rw [get?_make n hlt, get?, hnone]
      rfl
    refine ⟨fun he => ?_, Nat.lt_of_lt_of_le hlt (next_le_make t n), Option.map_eq_none_iff.1 hget⟩
    have hid : (t.make n).1 = id := Answer.made.inj he
    rcases make_eq t n with ⟨e, he, -, hmade, -⟩ | ⟨-, hmade, -⟩
    · rw [← hid, hmade, ht.find?_of_mem he] at hnone
      cases hnone
    · exact Nat.ne_of_lt hlt (hid.symm.trans hmade)
  | addUse j =>
    refine ⟨nofun, (next_addUse (t := t) j).symm ▸ hlt, ?_⟩
    change (t.addUse j).2.find? id = none
    rw [find?_addUse, hnone]
    rfl
  | release j =>
    refine ⟨nofun, (next_release (t := t) j).symm ▸ hlt, ?_⟩
    change (t.release j).2.find? id = none
    rw [ht.find?_release, hnone]
    split <;> rfl

theorem Gone.run [PartialEquivBEq ν] (h : Accounts calls log t) (hid : Gone t id)
    (more : List (Call ν)) : .made id ∉ (t.run more).1 ∧ Gone (t.run more).2 id := by
  induction more generalizing calls log t with
  | nil => exact ⟨nofun, hid⟩
  | cons call more ih =>
    obtain ⟨hne, hgone⟩ := hid.answer h.sound call
    obtain ⟨hnot, hlater⟩ := ih (h.answer call) hgone
    exact ⟨List.not_mem_cons_of_ne_of_not_mem hne.symm hnot, hlater⟩

/-- Whatever calls a new table has answered, ids and nodes tell its entries apart, and each has as
many uses as the answers say were taken and not ended. An id that is gone is never given out again
and is unknown to all later calls. An entry stands for the node that it was made from, and is what
each equal node gets. -/
theorem accounted [PartialEquivBEq ν] (calls : List (Call ν)) :
    let (log, t) := (empty : NodeTable ν).run calls
    (t.entries.map (·.id)).Nodup ∧
    t.entries.Pairwise (fun d e => (d.node == e.node) = false) ∧
    (∀ e ∈ t.entries, 1 ≤ e.uses ∧ e.uses + log.count (.released e.id true) =
      log.count (.made e.id) + log.count (.used e.id true)) ∧
    (∀ id, .made id ∈ log → (∀ e ∈ t.entries, e.id ≠ id) → ∀ more,
      let (answers, later) := t.run more
      .made id ∉ answers ∧ later.addUse id = (false, later) ∧ later.release id = (false, later) ∧
        later.uses id = 0 ∧ later.get? id = none) ∧
    ∀ e ∈ t.entries, t.get? e.id = some e.node ∧ MadeFrom calls log e.id e.node ∧
      ∀ n, (e.node == n) = true → (t.make n).1 = e.id := by
  have h : Accounts calls _ _ := (accounts_empty (ν := ν)).run calls
  rw [List.nil_append] at h
  have hs := h.sound
  refine ⟨hs.ids, hs.pairwise_nodes, fun e he => ?_, fun id hid hgone more => ?_, fun e he => ?_⟩
  · rw [← h.balance e.id, (hs.mem_iff.1 he).2]
    exact ⟨hs.used e he, rfl⟩
  · have hnone : ((empty : NodeTable ν).run calls).2.find? id = none := by
      simpa [find?, List.find?_eq_none] using hgone
    obtain ⟨hnot, hlater⟩ := Gone.run h ⟨h.issued hid, hnone⟩ more
    exact ⟨hnot, hlater.unknown⟩
  · have hget := (hs.mem_iff.1 he).1
    exact ⟨hget, h.origin hget, fun n => hs.make_fst he⟩

theorem accounted_strings :
    let calls : List (Call String) :=
      [.make "a", .make "b", .make "a", .release 1, .release 1, .addUse 7, .make "b"]
    let (log, t) := (empty : NodeTable String).run calls
    log = [.made 0, .made 1, .made 0, .released 1 true, .released 1 false, .used 7 false,
      .made 2] ∧
    (t.entries.map fun e => (e.id, e.uses, e.node)) = [(0, 2, "a"), (2, 1, "b")] ∧
    t.entries.Pairwise (fun d e => (d.node == e.node) = false) ∧
    (∀ more, .made 1 ∉ (t.run more).1) ∧ (t.make "a").1 = 0 := by
  intro calls
  obtain ⟨-, hnodes, -, hgone, hlive⟩ := accounted calls
  refine ⟨by decide, by decide, hnodes, fun more => ?_, ?_⟩
  · exact (hgone 1 (by decide) (by decide) more).1
  · exact (hlive ⟨0, 2, "a"⟩ (.head _)).2.2 "a" (by decide)

end AttributeTrees.NodeTable
