import AttributeTrees.Proofs.Access.Ways
import AttributeTrees.Proofs.Document.Depiction
import Mathlib.Data.List.Basic
/-!
# Places of documents and the ways to them

The places of a document, each before those below it and these in order. The way to a place is the
segments under which the values on it are reported. Where each child is found again by its segment,
the way to a place leads there.
-/
namespace AttributeTrees.Document

variable {δ : Type} {f : Form δ} {doc v : δ} {place : Place}

def Form.segment (f : Form δ) (v : δ) (name? : Option String) (i : Nat) : String :=
  if f.isList v then toString i else label name? i

def Form.index? (f : Form δ) (v : δ) (segment : String) : Option Nat :=
  if f.isList v then Numeral.index? segment else f.indexOf? v segment

theorem step_access (hv : at? f doc place = some v) (name : String) :
    (access f doc).step place name [] =
      (f.index? v name).bind fun i => if i < f.childCount v then some (place ++ [i]) else none := by
  have hlist : (access f doc).isList place = f.isList v := by simp [access, hv]
  rw [Access.step_eq, hlist]
  have hchild (i : Nat) : childAt? f doc place i =
      if i < f.childCount v then some (place ++ [i]) else none := by
    simp [childAt?, hv]
  unfold Form.index?
  change (if f.isList v = true then _ else _) = _
  split
  · simp [access, hchild]
  · simp [access, hv, Access.candidates, funext hchild]

namespace Depiction

variable (d : Depiction f)

def spots : Nat → δ → List Place
  | 0, _ => []
  | depth + 1, v => [] :: (List.range' 0 (d.children v).length).flatMap fun i =>
      match (d.children v)[i]? with
      | some c => (spots depth c.2).map (i :: ·)
      | none => []

def way (v : δ) : Place → List String
  | [] => []
  | i :: rest =>
    match (d.children v)[i]? with
    | some c => f.segment v c.1 i :: way c.2 rest
    | none => []

theorem mem_spots {depth : Nat} (hd : f.size v < depth) {q : Place} :
    q ∈ d.spots depth v ↔ (at? f v q).isSome := by
  induction depth generalizing v q with
  | zero => omega
  | succ depth ih =>
    rw [spots]
    cases q with
    | nil => simp
    | cons i q =>
      simp only [List.mem_cons, reduceCtorEq, false_or, List.mem_flatMap, at?, d.child?]
      constructor
      · rintro ⟨j, -, hj⟩
        cases hc : (d.children v)[j]? with
        | none => simp [hc] at hj
        | some c =>
          rw [hc] at hj
          obtain ⟨r, hr, he⟩ := List.mem_map.1 hj
          obtain ⟨rfl, rfl⟩ := List.cons.inj he
          have hsize := d.smaller v c (List.mem_of_getElem? hc)
          simpa [hc] using (ih (by omega)).1 hr
      · intro h
        cases hc : (d.children v)[i]? with
        | none => simp [hc] at h
        | some c =>
          have hsize := d.smaller v c (List.mem_of_getElem? hc)
          have hi := (List.getElem?_eq_some_iff.1 hc).1
          refine ⟨i, by simpa using hi, ?_⟩
          simp only [hc] at h ⊢
          exact List.mem_map_of_mem ((ih (by omega)).2 h)

theorem pairwise_spots (depth : Nat) (v : δ) : (d.spots depth v).Pairwise (· < ·) := by
  induction depth generalizing v with
  | zero => exact .nil
  | succ depth ih =>
    rw [spots, List.pairwise_cons, List.pairwise_flatMap]
    refine ⟨?_, ?_, ?_⟩
    · intro q hq
      obtain ⟨i, -, hi⟩ := List.mem_flatMap.1 hq
      cases hc : (d.children v)[i]? with
      | none => simp [hc] at hi
      | some c =>
        simp only [hc, List.mem_map] at hi
        obtain ⟨r, -, rfl⟩ := hi
        exact List.nil_lt_cons i r
    · intro i _
      cases (d.children v)[i]? with
      | none => exact .nil
      | some c =>
        apply (ih c.2).map
        intro q r hqr
        exact List.cons_lt_cons_iff.2 (.inr ⟨rfl, hqr⟩)
    · refine List.Pairwise.imp ?_ List.pairwise_lt_range'
      intro i j hij q hq r hr
      cases hc : (d.children v)[i]? with
      | none => simp [hc] at hq
      | some c =>
        cases he : (d.children v)[j]? with
        | none => simp [he] at hr
        | some e =>
          simp only [hc, he, List.mem_map] at hq hr
          obtain ⟨q, -, rfl⟩ := hq
          obtain ⟨r, -, rfl⟩ := hr
          exact List.cons_lt_cons_iff.2 (.inl hij)

theorem way_cons {i : Nat} {c : Option String × δ} (hc : (d.children v)[i]? = some c) (q : Place) :
    d.way v (i :: q) = f.segment v c.1 i :: d.way c.2 q := by
  rw [way, hc]

theorem children_access (hv : at? f doc place = some v) :
    (access f doc).children place =
      (List.range' 0 (d.children v).length).map fun i => (i, place ++ [i]) := by
  have hcount : (access f doc).childCount place = (d.children v).length := by
    simp [access, hv, d.childCount]
  have hchild (i : Nat) : (access f doc).childAt place i =
      if i < (d.children v).length then some (place ++ [i]) else none := by
    simp [access, childAt?, hv, d.childCount]
  unfold Access.children
  rw [hcount]
  change (List.range' 0 (d.children v).length).filterMap
    (fun i => Option.map (i, ·) ((access f doc).childAt place i)) = _
  rw [← List.filterMap_eq_map]
  apply List.filterMap_congr
  intro i hi
  have hlt : i < (d.children v).length := by simpa using hi
  rw [hchild, if_pos hlt]
  rfl

theorem segment_access (hv : at? f doc place = some v) {i : Nat} {c : Option String × δ}
    (hc : (d.children v)[i]? = some c) : (access f doc).segment (place ++ [i]) i = label c.1 i := by
  have hname : (access f doc).name (place ++ [i]) = c.1 := d.name?_child hv hc
  unfold label
  cases hc1 : c.1 with
  | none => exact Access.segment_of_none _ (hname.trans hc1) i
  | some name => exact Access.segment_of_name _ (hname.trans hc1) i

theorem rowSegment_access (hv : at? f doc place = some v) {i : Nat} {c : Option String × δ}
    (hc : (d.children v)[i]? = some c) :
    (access f doc).rowSegment place (i, place ++ [i]) = f.segment v c.1 i := by
  have hlist : (access f doc).isList place = f.isList v := by simp [access, hv]
  unfold Access.rowSegment Form.segment
  rw [hlist, d.segment_access hv hc]

theorem rows_access (hv : at? f doc place = some v) (depth : Nat) (p : Path) :
    (access f doc).rows depth place p =
      (d.spots depth v).map fun q => (place ++ q, ⟨p.segments ++ d.way v q⟩) := by
  induction depth generalizing place v p with
  | zero => rfl
  | succ depth ih =>
    have hlink : (access f doc).isLink place = false := by simp [access, hv, d.isLink]
    rw [Access.rows, hlink, d.children_access hv, spots, List.map_cons, List.flatMap_map,
      List.map_flatMap]
    simp only [List.append_nil, way]
    congr 1
    apply List.flatMap_congr
    intro i hi
    have hlt : i < (d.children v).length := by simpa using hi
    have hc := List.getElem?_eq_getElem hlt
    rw [hc, d.rowSegment_access hv hc, ih (d.at?_child hv hc), List.map_map]
    apply List.map_congr_left
    intro q _
    simp [d.way_cons hc, Path.push]

theorem way_append {w : δ} {p : Place} (hw : at? f v p = some w) (q : Place) :
    d.way v (p ++ q) = d.way v p ++ d.way w q := by
  induction p generalizing v with
  | nil =>
    cases hw
    rfl
  | cons i p ih =>
    simp only [at?, d.child?] at hw
    cases hc : (d.children v)[i]? with
    | none => simp [hc] at hw
    | some c =>
      simp only [hc] at hw
      rw [List.cons_append, d.way_cons hc, d.way_cons hc, ih hw, List.cons_append]

/-- Each child is found by the segment under which it is reported. -/
def LeadsBack (v : δ) : Prop :=
  ∀ i c, (d.children v)[i]? = some c → f.index? v (f.segment v c.1 i) = some i

theorem follow_way (hv : at? f doc place = some v) {q : Place} {w : δ} (hw : at? f v q = some w)
    (hall : ∀ r u, at? f v r = some u → d.LeadsBack u) :
    (access f doc).follow [] place (d.way v q) = some (place ++ q) := by
  induction q generalizing place v with
  | nil => exact congrArg some (List.append_nil place).symm
  | cons i q ih =>
    simp only [at?, d.child?] at hw
    cases hc : (d.children v)[i]? with
    | none => simp [hc] at hw
    | some c =>
      simp only [hc] at hw
      have hi : i < f.childCount v := by
        rw [d.childCount]
        exact (List.getElem?_eq_some_iff.1 hc).1
      have hrest := ih (d.at?_child hv hc) hw fun r u hr => by
        apply hall (i :: r) u
        simpa [at?, d.child?, hc] using hr
      rw [d.way_cons hc, Access.follow_cons, step_access hv, hall [] v rfl i c hc]
      simpa [hi] using hrest

end Depiction

end AttributeTrees.Document
