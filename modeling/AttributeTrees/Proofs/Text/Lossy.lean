import AttributeTrees.Proofs.Text.Utf8
/-!
# Readings of cut bytes

A cut through bytes falls between two units or within one. A unit that is cut is broken off in front
of the cut, and behind it no unit can begin with what is left. No unit has more than four bytes.
Main statements: a cut puts at most one replacement character at the end of what is read in front of
it, and the first characters are read alike from as many times four bytes.
-/
namespace AttributeTrees.Text.Utf8

variable {lead b : UInt8} {rest : Bytes} {k n : Nat}

theorem unit_take (lead : UInt8) (rest : Bytes) (k : Nat) :
    unit lead (rest.take k) = if (unit lead rest).2 ≤ k then unit lead rest else (none, k) := by
  -- No more than three bytes are looked at, so the cases are how many there are and how many stay.
  rcases rest with _ | ⟨b, _ | ⟨c, _ | ⟨d, rest⟩⟩⟩ <;> rcases k with _ | _ | _ | k <;>
    simp only [unit, List.take_nil, List.take_succ_cons, List.take_zero] <;> grind

theorem unit_snd_le (lead : UInt8) (rest : Bytes) :
    (unit lead rest).2 ≤ 3 ∧ (unit lead rest).2 ≤ rest.length := by
  unfold unit
  repeat' split
  all_goals simp

theorem isContinuation_of_followsLead (h : followsLead lead b = true) :
    isContinuation b = true := by
  obtain ⟨hlow, hhigh, -⟩ := followsLead_iff.1 h
  exact isContinuation_iff.2 ⟨hlow, hhigh⟩

theorem isContinuation_of_mem_unit (h : b ∈ rest.take (unit lead rest).2) :
    isContinuation b = true := by
  unfold unit at h
  repeat' split at h
  all_goals
    simp only [List.take_zero, List.take_succ_cons, List.not_mem_nil, List.mem_cons, or_false] at h
    try grind [isContinuation_of_followsLead]

theorem unit_of_isContinuation (h : isContinuation lead = true) (rest : Bytes) :
    unit lead rest = (none, 0) := by
  obtain ⟨hlow, hhigh⟩ := isContinuation_iff.1 h
  have hfirst : ¬ lead < 0x80 := by
    simp only [UInt8.lt_iff_toNat_lt, UInt8.reduceToNat]
    omega
  have hrange (low high : UInt8) (hb : 0xBF < low.toNat) :
      ¬ (low ≤ lead && lead ≤ high) = true := by
    simp only [Bool.and_eq_true, decide_eq_true_eq, UInt8.le_iff_toNat_le]
    omega
  rw [unit.eq_def, if_neg hfirst, if_neg (hrange _ _ (by decide)),
    if_neg (hrange _ _ (by decide)), if_neg (hrange _ _ (by decide))]

theorem length_units_le (bytes : Bytes) : (units bytes).length ≤ bytes.length := by
  induction bytes using units.induct with
  | case1 => simp
  | case2 lead rest ih =>
    rw [units_cons, List.length_cons, List.length_cons]
    rw [List.length_drop] at ih
    omega

/-- A cut falls between two units, or within one and then leaves a broken unit on both sides. -/
theorem units_cut (bytes : Bytes) (k : Nat) :
    units bytes = units (bytes.take k) ++ units (bytes.drop k) ∨
      ∃ front u behind rest, units bytes = front ++ u :: behind ∧
        units (bytes.take k) = front ++ [none] ∧ units (bytes.drop k) = none :: rest := by
  induction bytes using units.induct generalizing k with
  | case1 => simp
  | case2 lead rest ih =>
    cases k with
    | zero => simp
    | succ k =>
      obtain ⟨m, hm⟩ : ∃ m, (unit lead rest).2 = m := ⟨_, rfl⟩
      rw [hm] at ih
      rw [List.take_succ_cons, List.drop_succ_cons, units_cons, units_cons, unit_take, hm]
      by_cases hmk : m ≤ k
      · have htake : (rest.take k).drop m = (rest.drop m).take (k - m) := List.drop_take
        have hdrop : rest.drop k = (rest.drop m).drop (k - m) := by
          rw [List.drop_drop, Nat.add_sub_cancel' hmk]
        rw [if_pos hmk, hm, htake, hdrop]
        rcases ih (k - m) with h | ⟨front, u, behind, more, hall, hfront, hbehind⟩
        · rw [h]
          exact .inl rfl
        · rw [hall, hfront]
          exact .inr ⟨_ :: front, u, behind, more, rfl, rfl, hbehind⟩
      · -- The cut is within this unit, and the byte behind the cut goes on with it.
        have hlength := (unit_snd_le lead rest).2
        have hk : k < rest.length := by omega
        have hmem : rest[k] ∈ rest.take (unit lead rest).2 := by
          rw [hm]
          exact List.mem_take_iff_getElem.2 ⟨k, by omega, rfl⟩
        have hb : isContinuation rest[k] = true := isContinuation_of_mem_unit hmem
        rw [if_neg hmk, List.drop_eq_getElem_cons hk, units_cons rest[k],
          unit_of_isContinuation hb]
        refine .inr ⟨[], _, _, _, rfl, ?_, rfl⟩
        simp

theorem take_units_take (bytes : Bytes) (h : 4 * n ≤ k) :
    (units (bytes.take k)).take n = (units bytes).take n := by
  induction n generalizing bytes k with
  | zero => rfl
  | succ n ih =>
    cases bytes with
    | nil => rw [List.take_nil]
    | cons lead rest =>
      obtain ⟨k, rfl⟩ := Nat.exists_eq_add_of_le' (Nat.le_trans (by omega : 1 ≤ 4 * (n + 1)) h)
      have hunit : (unit lead rest).2 ≤ 3 := (unit_snd_le lead rest).1
      rw [List.take_succ_cons, units_cons, units_cons, unit_take, if_pos (by omega),
        List.drop_take, List.take_succ_cons, List.take_succ_cons, ih _ (by omega)]

@[simp] theorem decodeLossy_nil : decodeLossy [] = [] := by simp [decodeLossy]

theorem length_decodeLossy_le (bytes : Bytes) : (decodeLossy bytes).length ≤ bytes.length :=
  Nat.le_trans (Nat.le_of_eq (List.length_map _)) (length_units_le bytes)

theorem decodeLossy_encode (text : List Char) : decodeLossy (encode text) = text := by
  induction text with
  | nil => exact decodeLossy_nil
  | cons c text ih =>
    obtain ⟨lead, tail, h⟩ := exists_encodes c
    rw [encode_cons, encodes_iff.1 h, List.cons_append, decodeLossy, units_cons,
      unit_of_encodes h, List.drop_left]
    exact congrArg (c :: ·) ih

theorem decodeLossy_cut (bytes : Bytes) (k : Nat) :
    decodeLossy bytes = decodeLossy (bytes.take k) ++ decodeLossy (bytes.drop k) ∨
      ∃ front c behind rest, decodeLossy bytes = front ++ c :: behind ∧
        decodeLossy (bytes.take k) = front ++ [replacement] ∧
        decodeLossy (bytes.drop k) = replacement :: rest := by
  unfold decodeLossy
  rcases units_cut bytes k with h | ⟨front, u, behind, rest, hall, hfront, hbehind⟩
  · rw [h, List.map_append]
    exact .inl rfl
  · rw [hall, hfront, hbehind, List.map_append, List.map_append]
    exact .inr ⟨_, _, _, _, rfl, rfl, rfl⟩

theorem take_decodeLossy_take (bytes : Bytes) (n : Nat) :
    (decodeLossy (bytes.take (4 * n))).take n = (decodeLossy bytes).take n := by
  unfold decodeLossy
  rw [← List.map_take, take_units_take bytes (Nat.le_refl _), List.map_take]

example : decodeLossy [0xC3, 0xA9, 0xC3] = ['é', replacement] := by decide +kernel

end AttributeTrees.Text.Utf8
