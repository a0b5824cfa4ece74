import AttributeTrees.Proofs.Document.Places
import AttributeTrees.Proofs.Json.Depiction
import AttributeTrees.Proofs.Numeral
import Mathlib.Data.List.Nodup
/-!
# Ways in JSON documents

A member is found by its name and an item by its index. A member of the empty name is reported under
its index, where another member can have that text as its name. Main statement: in a document
without such members all ways lead back, and in any other two places have the same way.
-/
namespace AttributeTrees.Json.Value

open Document (Place at?)

variable {doc v : Value} {place : Place} {members : List (String × Value)} {i : Nat}

/-- A document as it can be in memory: the members of an object have different names, and a machine
word counts the children of a value. -/
inductive Storable : Value → Prop where
  | intro {v : Value} (count : v.childCount ≤ Numeral.maxIndex)
    (names : (v.children.filterMap (·.1)).Nodup) (below : ∀ c ∈ v.children, Storable c.2) :
    Storable v

/-- No member of the empty name is at an index that is the name of a member beside it. -/
def Clear (doc : Value) : Prop :=
  ∀ place members, at? form doc place = some (object members) →
    ∀ (i : Nat) (v : Value), members[i]? = some ("", v) → toString i ∉ members.map (·.1)

theorem at?_cons {i : Nat} {c : Option String × Value} (hc : v.children[i]? = some c) (q : Place) :
    at? form v (i :: q) = at? form c.2 q := by
  have hchild : form.child? v i = some c := (depiction.child? v i).trans hc
  simp [at?, hchild]

theorem Storable.at (hdoc : Storable doc) (hv : at? form doc place = some v) : Storable v := by
  induction place generalizing doc with
  | nil =>
    cases hv
    exact hdoc
  | cons i place ih =>
    simp only [at?] at hv
    cases hc : form.child? doc i with
    | none => simp [hc] at hv
    | some c =>
      rw [hc] at hv
      obtain ⟨-, -, hbelow⟩ := hdoc
      have hmem := depiction.child? doc i ▸ hc
      exact ih (hbelow c (List.mem_of_getElem? hmem)) hv

theorem names_children (members : List (String × Value)) :
    (children (object members)).filterMap (·.1) = members.map (·.1) := by
  simp [children, List.filterMap_map]

theorem Storable.of_object (h : Storable (object members)) :
    members.length ≤ Numeral.maxIndex ∧ (members.map (·.1)).Nodup := by
  obtain ⟨hcount, hnames, -⟩ := h
  rw [names_children] at hnames
  exact ⟨hcount, hnames⟩

theorem segment_unnamed (members : List (String × Value)) (i : Nat) :
    form.segment (object members) (some "") i = toString i := rfl

theorem segment_named {key : String} (h : key ≠ "") (members : List (String × Value)) (i : Nat) :
    form.segment (object members) (some key) i = key :=
  if_neg (mt String.isEmpty_iff.1 h)

theorem index?_object (members : List (String × Value)) (segment : String) :
    form.index? (object members) segment =
      (members.findIdx? (·.1 == segment)).or (Numeral.index? segment) := rfl

theorem findIdx?_of_name (hn : (members.map (·.1)).Nodup) {m : String × Value}
    (hm : members[i]? = some m) : members.findIdx? (·.1 == m.1) = some i := by
  obtain ⟨hi, rfl⟩ := List.getElem?_eq_some_iff.1 hm
  rw [List.findIdx?_eq_some_iff_getElem]
  refine ⟨hi, by simp, ?_⟩
  intro j hj he
  have hjn : j < (members.map (·.1)).length := by simp; omega
  have hin : i < (members.map (·.1)).length := by simpa
  have hname : (members.map (·.1))[j] = (members.map (·.1))[i] := by simpa using he
  have := (List.Nodup.getElem_inj_iff hn).1 hname
  omega

theorem findIdx?_of_not_mem {name : String} (h : name ∉ members.map (·.1)) :
    members.findIdx? (·.1 == name) = none := by
  rw [List.findIdx?_eq_none_iff]
  intro m hm
  simp only [beq_eq_false_iff_ne, ne_eq]
  intro he
  exact h (List.mem_map.2 ⟨m, hm, he⟩)

theorem exists_index {name : String} (h : name ∈ members.map (·.1)) :
    ∃ (j : Nat) (v : Value), members[j]? = some (name, v) := by
  obtain ⟨m, hm, rfl⟩ := List.mem_map.1 h
  obtain ⟨j, hj⟩ := List.mem_iff_getElem?.1 hm
  exact ⟨j, m.2, hj⟩

theorem leadsBack_array {items : List Value} (h : Storable (array items)) :
    depiction.LeadsBack (array items) := by
  intro i c hc
  obtain ⟨hcount, -, -⟩ := h
  have hi : i < items.length := by
    simpa [depiction, children] using (List.getElem?_eq_some_iff.1 hc).1
  apply Numeral.index?_toString
  change items.length ≤ _ at hcount
  omega

theorem leadsBack_object (h : Storable (object members))
    (hclear : ∀ (i : Nat) (v : Value), members[i]? = some ("", v) →
      toString i ∉ members.map (·.1)) :
    depiction.LeadsBack (object members) := by
  intro i c hc
  obtain ⟨hcount, hnames⟩ := h.of_object
  simp only [depiction, children, List.getElem?_map, Option.map_eq_some_iff] at hc
  obtain ⟨m, hm, rfl⟩ := hc
  have hi : i < members.length := (List.getElem?_eq_some_iff.1 hm).1
  by_cases hkey : m.1 = ""
  · have hm' : members[i]? = some ("", m.2) := by rw [hm, ← hkey]
    rw [hkey, segment_unnamed, index?_object, findIdx?_of_not_mem (hclear i m.2 hm'),
      Option.none_or]
    apply Numeral.index?_toString
    omega
  · rw [segment_named hkey, index?_object, findIdx?_of_name hnames hm, Option.some_or]

theorem leadsBack_of_clear (hdoc : Storable doc) (hclear : doc.Clear)
    (hv : at? form doc place = some v) : depiction.LeadsBack v := by
  have hst := hdoc.at hv
  cases v with
  | array items => exact leadsBack_array hst
  | object members => exact leadsBack_object hst (hclear place members hv)
  | _ =>
    intro i c hc
    simp [depiction, children] at hc

/-- In a clear document the way to each place leads there. -/
theorem resolve_way (hdoc : Storable doc) (hclear : doc.Clear)
    (hv : at? form doc place = some v) :
    (Document.access form doc).resolve [] ⟨depiction.way doc place⟩ [] = some place :=
  depiction.follow_way (Document.at?_nil form doc) hv fun _ _ hu =>
    leadsBack_of_clear hdoc hclear hu

theorem exists_way_eq (hclear : ¬ doc.Clear) : ∃ p q, p ≠ q ∧ (at? form doc p).isSome ∧
    (at? form doc q).isSome ∧ depiction.way doc p = depiction.way doc q := by
  simp only [Clear, not_forall, not_not] at hclear
  obtain ⟨place, members, hv, i, v, hi, hmem⟩ := hclear
  obtain ⟨j, w, hj⟩ := exists_index hmem
  have hci : (depiction.children (object members))[i]? = some (some "", v) := by
    simp [depiction, children, hi]
  have hcj : (depiction.children (object members))[j]? = some (some (toString i), w) := by
    simp [depiction, children, hj]
  have hne : i ≠ j := by
    rintro rfl
    rw [hi] at hj
    exact Numeral.toString_ne_empty i (congrArg Prod.fst (Option.some.inj hj)).symm
  refine ⟨place ++ [i], place ++ [j], by simpa using hne, ?_, ?_, ?_⟩
  · simp [depiction.at?_child hv hci]
  · simp [depiction.at?_child hv hcj]
  · rw [depiction.way_append hv, depiction.way_append hv, depiction.way_cons hci,
      depiction.way_cons hcj, segment_unnamed, segment_named (Numeral.toString_ne_empty i)]
    rfl

def places (doc : Value) : List Place := depiction.spots (doc.size + 1) doc

theorem mem_places : place ∈ doc.places ↔ (at? form doc place).isSome :=
  depiction.mem_spots (Nat.lt_succ_self doc.size)

theorem storable_iff : doc.Storable ↔ ∀ place v, at? form doc place = some v →
    v.childCount ≤ Numeral.maxIndex ∧ (v.children.filterMap (·.1)).Nodup := by
  constructor
  · intro h place v hv
    obtain ⟨hcount, hnames, -⟩ := h.at hv
    exact ⟨hcount, hnames⟩
  · intro h
    induction hsize : doc.size using Nat.strongRecOn generalizing doc with
    | ind n ih =>
      obtain ⟨hcount, hnames⟩ := h [] doc rfl
      refine ⟨hcount, hnames, fun c hc => ?_⟩
      obtain ⟨i, hi⟩ := List.mem_iff_getElem?.1 hc
      apply ih _ (hsize ▸ size_child_lt hc) _ rfl
      intro place v hv
      exact h (i :: place) v ((at?_cons hi place).trans hv)

instance (doc : Value) : Decidable doc.Storable :=
  decidable_of_iff (∀ place ∈ doc.places, ∀ v ∈ at? form doc place,
      v.childCount ≤ Numeral.maxIndex ∧ (v.children.filterMap (·.1)).Nodup) <| by
    simp only [mem_places, Option.mem_def, storable_iff]
    constructor
    · intro h place v hv
      exact h place (by simp [hv]) v hv
    · intro h place _ v hv
      exact h place v hv

def members? : Value → Option (List (String × Value))
  | object members => some members
  | _ => none

theorem members?_eq_some {members : List (String × Value)} :
    v.members? = some members ↔ v = object members := by
  cases v <;> simp [members?]

instance (doc : Value) : Decidable doc.Clear :=
  decidable_of_iff (∀ place ∈ doc.places, ∀ members ∈ (at? form doc place).bind members?,
      ∀ i < members.length, members[i]?.map (·.1) = some "" →
        toString i ∉ members.map (·.1)) <| by
    simp only [mem_places, Option.mem_def, Option.bind_eq_some_iff, members?_eq_some]
    constructor
    · intro h place members hp i v hi
      have hlt := (List.getElem?_eq_some_iff.1 hi).1
      exact h place (by simp [hp]) members ⟨_, hp, rfl⟩ i hlt (by simp [hi])
    · rintro h place - members ⟨-, hp, rfl⟩ i hlt hi
      obtain ⟨m, hm, hkey⟩ := Option.map_eq_some_iff.1 hi
      obtain ⟨key, v⟩ := m
      cases hkey
      exact h place members hp i v hm

end AttributeTrees.Json.Value
