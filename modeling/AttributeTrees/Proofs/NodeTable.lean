import AttributeTrees.NodeTable
import Mathlib.Data.List.Basic
import Mathlib.Data.List.Nodup
/-!
# What a node table holds

A table is looked at through what it says of each id: the node it stands for and how often it is in
use. An operation on one id leaves what is said of the others. Main statements: what each operation
does to the uses and nodes, and that it keeps the table sound.
-/
namespace AttributeTrees.NodeTable

variable {ν : Type}

/-- Ids and nodes tell the entries apart, every entry is in use, and later ids are new. -/
structure Sound [BEq ν] (t : NodeTable ν) : Prop where
  ids : (t.entries.map (·.id)).Nodup
  nodes : ∀ d ∈ t.entries, ∀ e ∈ t.entries, (d.node == e.node) = true → d.id = e.id
  used : ∀ e ∈ t.entries, 0 < e.uses
  below : ∀ e ∈ t.entries, e.id < t.next

section
variable {id j : NodeId} {entries : List (Entry ν)}

theorem find?_bump (id j : NodeId) (entries : List (Entry ν)) :
    (bump id entries).find? (·.id == j) =
      (entries.find? (·.id == j)).map fun e =>
        if j = id then { e with uses := e.uses + 1 } else e := by
  induction entries with
  | nil => rfl
  | cons e rest ih =>
    by_cases hj : e.id = j
    · subst hj
      by_cases hi : e.id = id <;> simp [bump, hi]
    · by_cases hi : e.id = id
      · have hne : ¬ j = id := fun h => hj (hi.trans h.symm)
        simp [bump, hi, hne, Ne.symm hne]
      · simp [bump, hi, hj, ih]

theorem find?_drop (hn : (entries.map (·.id)).Nodup) (id j : NodeId) :
    (drop id entries).find? (·.id == j) =
      if j = id then (entries.find? (·.id == j)).bind fun e =>
        if e.uses ≤ 1 then none else some { e with uses := e.uses - 1 }
      else entries.find? (·.id == j) := by
  induction entries with
  | nil => simp [drop]
  | cons e rest ih =>
    obtain ⟨he, hr⟩ := List.nodup_cons.1 hn
    by_cases hi : e.id = id
    · subst hi
      by_cases hj : j = e.id
      · subst hj
        by_cases hu : e.uses ≤ 1
        · have hnone : rest.find? (·.id == e.id) = none := by
            refine List.find?_eq_none.2 fun d hd hde => he ?_
            have hid : d.id = e.id := eq_of_beq hde
            exact List.mem_map.2 ⟨d, hd, hid⟩
          simp [drop, hu, hnone]
        · simp [drop, hu]
      · by_cases hu : e.uses ≤ 1 <;> simp [drop, hu, hj, Ne.symm hj]
    · by_cases hj : e.id = j
      · subst hj
        simp [drop, hi]
      · simp [drop, hi, hj, ih hr]

theorem mem_bump {e : Entry ν} (h : e ∈ bump id entries) :
    ∃ d ∈ entries, d.id = e.id ∧ d.node = e.node ∧ d.uses ≤ e.uses := by
  induction entries with
  | nil => cases h
  | cons d rest ih =>
    unfold bump at h
    split at h
    · rcases List.mem_cons.1 h with rfl | h
      · exact ⟨d, List.mem_cons_self, rfl, rfl, Nat.le_succ _⟩
      · exact ⟨e, List.mem_cons_of_mem d h, rfl, rfl, Nat.le_refl _⟩
    · rcases List.mem_cons.1 h with rfl | h
      · exact ⟨e, List.mem_cons_self, rfl, rfl, Nat.le_refl _⟩
      · obtain ⟨c, hc, h⟩ := ih h
        exact ⟨c, List.mem_cons_of_mem d hc, h⟩

theorem mem_drop {e : Entry ν} (h : e ∈ drop id entries) :
    ∃ d ∈ entries, d.id = e.id ∧ d.node = e.node ∧ (0 < d.uses → 0 < e.uses) := by
  induction entries with
  | nil => cases h
  | cons d rest ih =>
    unfold drop at h
    split at h
    · split at h
      · exact ⟨e, List.mem_cons_of_mem d h, rfl, rfl, fun h => h⟩
      · next hu =>
        rcases List.mem_cons.1 h with rfl | h
        · exact ⟨d, List.mem_cons_self, rfl, rfl, fun _ => by simp only; omega⟩
        · exact ⟨e, List.mem_cons_of_mem d h, rfl, rfl, fun h => h⟩
    · rcases List.mem_cons.1 h with rfl | h
      · exact ⟨e, List.mem_cons_self, rfl, rfl, fun h => h⟩
      · obtain ⟨c, hc, h⟩ := ih h
        exact ⟨c, List.mem_cons_of_mem d hc, h⟩

end

variable {t : NodeTable ν} {id j : NodeId} {n : ν}

theorem mem_of_find? {e : Entry ν} (h : t.find? id = some e) : e ∈ t.entries ∧ e.id = id := by
  have hid := List.find?_some (p := fun e : Entry ν => e.id == id) h
  exact ⟨List.mem_of_find?_eq_some h, eq_of_beq hid⟩

@[simp] theorem next_addUse (id : NodeId) : (t.addUse id).2.next = t.next := by
  unfold addUse
  split <;> rfl

@[simp] theorem next_release (id : NodeId) : (t.release id).2.next = t.next := by
  unfold release
  split <;> rfl

theorem find?_addUse (id j : NodeId) : (t.addUse id).2.find? j =
    (t.find? j).map fun e => if j = id then { e with uses := e.uses + 1 } else e := by
  unfold addUse
  split
  · exact find?_bump id j t.entries
  · next h =>
    cases hj : t.find? j with
    | none => rfl
    | some e =>
      have hne : j ≠ id := by
        rintro rfl
        simp [hj] at h
      simp [hne]

theorem uses_addUse (h : t.get? id = some n) (j : NodeId) :
    (t.addUse id).2.uses j = t.uses j + if j = id then 1 else 0 := by
  unfold uses
  rw [find?_addUse]
  split
  · next hj =>
    obtain ⟨e, he, -⟩ := Option.map_eq_some_iff.1 h
    simp [hj, he]
  · simp

theorem get?_addUse (id j : NodeId) : (t.addUse id).2.get? j = t.get? j := by
  unfold get?
  rw [find?_addUse, Option.map_map]
  congr 1
  funext e
  simp only [Function.comp_apply]
  split <;> rfl

variable [BEq ν]

theorem sound_empty : (empty : NodeTable ν).Sound := ⟨.nil, nofun, nofun, nofun⟩

theorem Sound.find?_of_mem (ht : t.Sound) {e : Entry ν} (he : e ∈ t.entries) :
    t.find? e.id = some e := by
  obtain ⟨before, rest, hs⟩ := List.append_of_mem he
  refine List.find?_eq_some_iff_append.2 ⟨beq_self_eq_true _, before, rest, hs, fun d hd => ?_⟩
  have hn := ht.ids
  rw [hs, List.map_append, List.map_cons] at hn
  have hne := (List.nodup_append.1 hn).2.2 d.id (List.mem_map_of_mem hd) e.id List.mem_cons_self
  simpa using hne

theorem Sound.find?_next (ht : t.Sound) (h : t.next ≤ id) : t.find? id = none := by
  refine List.find?_eq_none.2 fun e he hid => ?_
  have hlt := ht.below e he
  rw [show e.id = id from eq_of_beq hid] at hlt
  exact Nat.not_lt.2 h hlt

theorem Sound.mem_iff (ht : t.Sound) {e : Entry ν} :
    e ∈ t.entries ↔ t.get? e.id = some e.node ∧ t.uses e.id = e.uses := by
  unfold get? uses
  constructor
  · intro he
    rw [ht.find?_of_mem he]
    exact ⟨rfl, rfl⟩
  · rintro ⟨hn, hu⟩
    obtain ⟨d, hd, hdn⟩ := Option.map_eq_some_iff.1 hn
    rw [hd] at hu
    obtain ⟨hm, hid⟩ := mem_of_find? hd
    have hde : d = e := by
      obtain ⟨i, k, n⟩ := d
      cases hid
      cases hdn
      cases hu
      rfl
    exact hde ▸ hm

theorem Sound.uses_pos_iff (ht : t.Sound) : 0 < t.uses id ↔ ∃ n, t.get? id = some n := by
  unfold uses get?
  cases h : t.find? id with
  | none => simp
  | some e => simpa using ht.used e (mem_of_find? h).1

theorem Sound.isEmpty_iff (ht : t.Sound) : t.isEmpty = true ↔ ∀ id, t.uses id = 0 := by
  constructor
  · intro h id
    have he : t.entries = [] := List.isEmpty_iff.1 h
    simp [uses, find?, he]
  · intro h
    rw [isEmpty, List.isEmpty_iff, List.eq_nil_iff_forall_not_mem]
    intro e he
    have hu := h e.id
    rw [uses, ht.find?_of_mem he] at hu
    exact absurd hu (Nat.ne_of_gt (ht.used e he))

theorem Sound.addUse (ht : t.Sound) (id : NodeId) : (t.addUse id).2.Sound := by
  unfold NodeTable.addUse
  split
  · refine ⟨by simpa using ht.ids, fun d hd e he h => ?_, fun e he => ?_, fun e he => ?_⟩
    · obtain ⟨d', hd', hid, hnd, -⟩ := mem_bump hd
      obtain ⟨e', he', hie, hne, -⟩ := mem_bump he
      rw [← hnd, ← hne] at h
      rw [← hid, ← hie]
      exact ht.nodes d' hd' e' he' h
    · obtain ⟨d, hd, -, -, hu⟩ := mem_bump he
      exact Nat.lt_of_lt_of_le (ht.used d hd) hu
    · obtain ⟨d, hd, hid, -, -⟩ := mem_bump he
      rw [← hid]
      exact ht.below d hd
  · exact ht

theorem Sound.find?_release (ht : t.Sound) (id j : NodeId) : (t.release id).2.find? j =
    if j = id then (t.find? j).bind fun e =>
      if e.uses ≤ 1 then none else some { e with uses := e.uses - 1 }
    else t.find? j := by
  unfold release
  split
  · exact find?_drop ht.ids id j
  · next h =>
    split
    · next hj =>
      subst hj
      have hn : t.find? j = none := by simpa using h
      rw [hn]
      rfl
    · rfl

theorem Sound.release (ht : t.Sound) (id : NodeId) : (t.release id).2.Sound := by
  unfold NodeTable.release
  split
  · refine ⟨ht.ids.sublist (map_id_drop_sublist id t.entries), fun d hd e he h => ?_,
      fun e he => ?_, fun e he => ?_⟩
    · obtain ⟨d', hd', hid, hnd, -⟩ := mem_drop hd
      obtain ⟨e', he', hie, hne, -⟩ := mem_drop he
      rw [← hnd, ← hne] at h
      rw [← hid, ← hie]
      exact ht.nodes d' hd' e' he' h
    · obtain ⟨d, hd, -, -, hu⟩ := mem_drop he
      exact hu (ht.used d hd)
    · obtain ⟨d, hd, hid, -, -⟩ := mem_drop he
      rw [← hid]
      exact ht.below d hd
  · exact ht

theorem Sound.uses_release (ht : t.Sound) (id j : NodeId) :
    (t.release id).2.uses j = t.uses j - if j = id then 1 else 0 := by
  unfold uses
  rw [ht.find?_release]
  split
  · cases t.find? j with
    | none => rfl
    | some e =>
      by_cases hu : e.uses ≤ 1
      · simp only [Option.bind_some, hu, if_true, Option.map_none, Option.map_some,
          Option.getD_none, Option.getD_some]
        omega
      · simp [hu]
  · rfl

theorem Sound.get?_release (ht : t.Sound) (id j : NodeId) :
    (t.release id).2.get? j = t.get? j ∨ (t.release id).2.get? j = none := by
  unfold get?
  rw [ht.find?_release]
  split
  · cases t.find? j with
    | none => exact .inl rfl
    | some e => by_cases hu : e.uses ≤ 1 <;> simp [hu]
  · exact .inl rfl

theorem make_eq (t : NodeTable ν) (n : ν) :
    (∃ e ∈ t.entries, (e.node == n) = true ∧ (t.make n).1 = e.id ∧
      (t.make n).2 = { t with entries := bump e.id t.entries }) ∨
    (∀ e ∈ t.entries, (e.node == n) = false) ∧ (t.make n).1 = t.next ∧
      (t.make n).2 = ⟨t.entries ++ [⟨t.next, 1, n⟩], t.next + 1⟩ := by
  unfold make
  cases h : t.entries.find? (·.node == n) with
  | some e =>
    have hn := List.find?_some (p := fun e : Entry ν => e.node == n) h
    exact .inl ⟨e, List.mem_of_find?_eq_some h, hn, rfl, rfl⟩
  | none =>
    refine .inr ⟨fun e he => ?_, rfl, rfl⟩
    simpa using List.find?_eq_none.1 h e he

theorem Sound.make [PartialEquivBEq ν] (ht : t.Sound) (n : ν) : (t.make n).2.Sound := by
  rcases make_eq t n with ⟨e, he, -, -, heq⟩ | ⟨hnew, -, heq⟩
  · have hb := ht.addUse e.id
    rw [NodeTable.addUse, ht.find?_of_mem he] at hb
    rw [heq]
    exact hb
  · rw [heq]
    refine ⟨?_, ?_, ?_, ?_⟩
    · rw [List.map_append, List.nodup_append]
      refine ⟨ht.ids, List.pairwise_singleton .., fun i hi k hk => ?_⟩
      obtain ⟨e, he, rfl⟩ := List.mem_map.1 hi
      have hlt := ht.below e he
      rw [List.mem_singleton.1 hk]
      exact Nat.ne_of_lt hlt
    · simp only [List.forall_mem_append, List.forall_mem_singleton]
      refine ⟨fun d hd => ⟨ht.nodes d hd, fun h => ?_⟩, fun e he h => ?_, fun _ => trivial⟩
      · rw [hnew d hd] at h
        cases h
      · rw [BEq.comm, hnew e he] at h
        cases h
    · simp only [List.forall_mem_append, List.forall_mem_singleton]
      exact ⟨ht.used, Nat.one_pos⟩
    · simp only [List.forall_mem_append, List.forall_mem_singleton]
      exact ⟨fun e he => Nat.lt_succ_of_lt (ht.below e he), Nat.lt_succ_self _⟩

theorem Sound.uses_make (ht : t.Sound) (n : ν) (j : NodeId) :
    (t.make n).2.uses j = t.uses j + if j = (t.make n).1 then 1 else 0 := by
  rcases make_eq t n with ⟨e, he, -, hid, heq⟩ | ⟨-, hid, heq⟩
  · rw [heq, hid]
    unfold uses find?
    rw [find?_bump]
    split
    · next hj =>
      have hf : t.entries.find? (·.id == j) = some e := hj ▸ ht.find?_of_mem he
      simp [hf]
    · simp
  · have hnext : t.find? t.next = none := ht.find?_next (Nat.le_refl _)
    rw [heq, hid]
    unfold uses find?
    rw [List.find?_append]
    split
    · next hj =>
      subst hj
      rw [find?] at hnext
      simp [hnext]
    · next hj => simp [Ne.symm hj]

theorem get?_make (n : ν) (h : j < t.next) :
    (t.make n).2.get? j = t.get? j := by
  rcases make_eq t n with ⟨e, he, -, hid, heq⟩ | ⟨-, hid, heq⟩
  · rw [heq]
    unfold get? find?
    rw [find?_bump, Option.map_map]
    congr 1
    funext d
    simp only [Function.comp_apply]
    split <;> rfl
  · have hj : ¬ t.next = j := Nat.ne_of_gt h
    rw [heq]
    unfold get? find?
    simp [List.find?_append, hj]

theorem Sound.get?_make_self [ReflBEq ν] (ht : t.Sound) (n : ν) :
    ∃ m, (t.make n).2.get? (t.make n).1 = some m ∧ (m == n) = true := by
  rcases make_eq t n with ⟨e, he, hn, hid, heq⟩ | ⟨-, hid, heq⟩
  · refine ⟨e.node, ?_, hn⟩
    rw [heq, hid]
    unfold get? find?
    have hf : t.entries.find? (·.id == e.id) = some e := ht.find?_of_mem he
    simp [find?_bump, hf]
  · refine ⟨n, ?_, BEq.refl n⟩
    have hnext : t.entries.find? (·.id == t.next) = none := ht.find?_next (Nat.le_refl _)
    rw [heq, hid]
    unfold get? find?
    simp [List.find?_append, hnext]

theorem next_le_make (t : NodeTable ν) (n : ν) : t.next ≤ (t.make n).2.next := by
  rcases make_eq t n with ⟨e, -, -, -, heq⟩ | ⟨-, -, heq⟩
  · exact heq ▸ Nat.le_refl t.next
  · exact heq ▸ Nat.le_succ t.next

theorem Sound.id_eq_iff [ReflBEq ν] (ht : t.Sound) {m : ν} (hm : t.get? id = some m)
    (hn : t.get? j = some n) : id = j ↔ (m == n) = true := by
  obtain ⟨d, hd, rfl⟩ := Option.map_eq_some_iff.1 hm
  obtain ⟨e, he, rfl⟩ := Option.map_eq_some_iff.1 hn
  obtain ⟨hdm, rfl⟩ := mem_of_find? hd
  obtain ⟨hem, rfl⟩ := mem_of_find? he
  refine ⟨fun h => ?_, ht.nodes d hdm e hem⟩
  rw [h, he] at hd
  rw [Option.some.inj hd]
  exact BEq.refl _

end AttributeTrees.NodeTable
