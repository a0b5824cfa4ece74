/-!
# Members

Values under names, as the members of an object or the entries of a directory, in the order in which
the names first came. A value is put in the old place of its name, or behind all others.
-/
namespace AttributeTrees.Members

variable {α : Type}

def put (name : String) (value : α) : List (String × α) → List (String × α)
  | [] => [(name, value)]
  | (k, old) :: rest => if k = name then (k, value) :: rest else (k, old) :: put name value rest

variable {name other : String} {value : α} {before members : List (String × α)}

theorem lookup_cons (m : String × α) :
    (m :: members).lookup name = if m.1 = name then some m.2 else members.lookup name := by
  rw [List.lookup_cons]
  by_cases h : m.1 = name
  · simp [h]
  · simp [h, beq_false_of_ne (Ne.symm h)]

theorem lookup_eq_none_iff : members.lookup name = none ↔ name ∉ members.map (·.1) := by
  rw [List.lookup_eq_none_iff, List.mem_map, not_exists]
  refine forall_congr' fun m => ?_
  rw [bne_iff_ne, not_and]
  exact ⟨fun h hm he => h hm he.symm, fun h hm he => h hm he.symm⟩

theorem lookup_eq_some_iff : members.lookup name = some value ↔
    ∃ before after, members = before ++ (name, value) :: after ∧ name ∉ before.map (·.1) := by
  rw [List.lookup_eq_some_iff]
  refine exists_congr fun before => exists_congr fun after => and_congr_right fun _ => ?_
  rw [← List.lookup_eq_none_iff, lookup_eq_none_iff]

theorem of_lookup {P : String × α → Prop} (h : ∀ m ∈ members, P m)
    (hv : members.lookup name = some value) : P (name, value) := by
  obtain ⟨before, after, rfl, -⟩ := lookup_eq_some_iff.1 hv
  exact h _ (List.mem_append_right before List.mem_cons_self)

@[simp] theorem lookup_put_self (members : List (String × α)) :
    (put name value members).lookup name = some value := by
  induction members with
  | nil => simp [put]
  | cons m members ih => by_cases h : m.1 = name <;> simp [put, lookup_cons, h, ih]

theorem lookup_put_of_ne (h : name ≠ other) (members : List (String × α)) :
    (put name value members).lookup other = members.lookup other := by
  induction members with
  | nil => simp [put, lookup_cons, h]
  | cons m members ih =>
    by_cases hm : m.1 = name
    · simp [put, lookup_cons, hm, h]
    · simp [put, lookup_cons, hm, ih]

theorem put_put (name : String) (value next : α) (members : List (String × α)) :
    put name next (put name value members) = put name next members := by
  induction members with
  | nil => simp [put]
  | cons m members ih => by_cases h : m.1 = name <;> simp [put, h, ih]

theorem put_of_not_mem (h : name ∉ members.map (·.1)) (value : α) :
    put name value members = members ++ [(name, value)] := by
  induction members with
  | nil => rfl
  | cons m members ih =>
    obtain ⟨hm, hms⟩ := not_or.1 (mt List.mem_cons.2 h)
    rw [put, if_neg (Ne.symm hm), ih hms]
    rfl

theorem put_append (h : name ∉ before.map (·.1)) (old value : α) (after : List (String × α)) :
    put name value (before ++ (name, old) :: after) = before ++ (name, value) :: after := by
  induction before with
  | nil => simp [put]
  | cons m before ih =>
    obtain ⟨hm, hb⟩ := not_or.1 (mt List.mem_cons.2 h)
    rw [List.cons_append, put, if_neg (Ne.symm hm), ih hb]
    rfl

theorem forall_put {P : String × α → Prop} (h : ∀ m ∈ members, P m) (hv : P (name, value)) :
    ∀ m ∈ put name value members, P m := by
  induction members with
  | nil => exact List.forall_mem_singleton.2 hv
  | cons m members ih =>
    obtain ⟨hm, hms⟩ := List.forall_mem_cons.1 h
    rw [put]
    split
    · next hk => exact List.forall_mem_cons.2 ⟨hk ▸ hv, hms⟩
    · exact List.forall_mem_cons.2 ⟨hm, ih hms⟩

end AttributeTrees.Members
