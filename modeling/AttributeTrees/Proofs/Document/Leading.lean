import AttributeTrees.Content
import AttributeTrees.Proofs.Document.Places
import AttributeTrees.Proofs.Json.Depiction
import AttributeTrees.Proofs.Yaml.Depiction
import Mathlib.Data.Nat.Find
/-!
# Names that lead to children

A node lists a child under its own name, or under its index if it has none or an empty one. A name
leads to the first child that is called so, and where children are also found by index and none is
called so, to the one at the index that it reads as. Main statement: in documents a segment is
found where it leads, and what is listed leads somewhere, except for entries of YAML mappings
without a name.
-/
namespace AttributeTrees

namespace Access

variable {ν : Type} (a : Access Id ν) (n : ν) (name : String)

def Called (i : Nat) : Prop := ∃ child, a.childAt n i = some child ∧ a.name child = some name

def Lists (child : ν) : Prop := ∃ i, a.childAt n i = some child ∧ a.segment child i = name

def Leads (indexed : Bool) (child : ν) : Prop :=
  ∃ i, a.childAt n i = some child ∧
    (a.Called n name i ∧ (∀ j < i, ¬ a.Called n name j) ∨
      (∀ j, ¬ a.Called n name j) ∧ indexed = true ∧ Numeral.index? name = some i)

/-- Indices are machine words, as they are in memory. -/
def Countable : Prop := ∀ n i child, a.childAt n i = some child → i ≤ Numeral.maxIndex

variable {a n name} {child : ν}

theorem Called.lists {i : Nat} (h : a.Called n name i) (hname : name ≠ "") :
    ∃ child, a.childAt n i = some child ∧ a.Lists n name child := by
  obtain ⟨child, hchild, hown⟩ := h
  refine ⟨child, hchild, i, hchild, ?_⟩
  rw [a.segment_of_name hown, if_neg (mt String.isEmpty_iff.1 hname)]

/-- What is listed leads to a child that is listed, unless it is the index of a child without a
name where children are not found by index. -/
theorem Lists.leads (h : a.Lists n name child) (ha : a.Countable) (indexed : Bool) :
    (∃ other, a.Leads n name indexed other ∧ a.Lists n name other) ∨
      indexed = false ∧ (a.name child = none ∨ a.name child = some "") := by
  obtain ⟨i, hchild, hsegment⟩ := h
  have hne : name ≠ "" := hsegment ▸ a.segment_ne_empty child i
  by_cases hcalled : ∃ j, a.Called n name j
  · classical
    obtain ⟨first, hfirst, hbefore⟩ := Nat.findX hcalled
    obtain ⟨other, hother, hlists⟩ := hfirst.lists hne
    exact .inl ⟨other, ⟨first, hother, .inl ⟨hfirst, hbefore⟩⟩, hlists⟩
  · -- what is listed without being called so is listed under its index
    have hnone : ∀ j, ¬ a.Called n name j := not_exists.1 hcalled
    have hown : a.name child = none ∨ a.name child = some "" := by
      cases hname : a.name child with
      | none => exact .inl rfl
      | some own =>
        rw [a.segment_of_name hname] at hsegment
        split at hsegment
        · next hempty => exact .inr (congrArg some (String.isEmpty_iff.1 hempty))
        · exact absurd ⟨child, hchild, hsegment ▸ hname⟩ (hnone i)
    cases indexed with
    | false => exact .inr ⟨rfl, hown⟩
    | true =>
      have htext : toString i = name := by
        rw [← hsegment]
        rcases hown with hown | hown
        · rw [a.segment_of_none hown]
        · rw [a.segment_of_name hown]
          rfl
      have hindex : Numeral.index? name = some i :=
        htext ▸ Numeral.index?_toString (ha n i child hchild)
      exact .inl ⟨child, ⟨i, hchild, .inr ⟨hnone, rfl, hindex⟩⟩, i, hchild, hsegment⟩

theorem leads_iff_of_called {i : Nat} (hi : a.Called n name i) (hfirst : ∀ j < i, ¬ a.Called n name j)
    (indexed : Bool) : a.Leads n name indexed child ↔ a.childAt n i = some child := by
  constructor
  · rintro ⟨j, hchild, ⟨hj, hbefore⟩ | ⟨hnone, -⟩⟩
    · rcases Nat.lt_trichotomy i j with hlt | rfl | hlt
      · exact absurd hi (hbefore i hlt)
      · exact hchild
      · exact absurd hj (hfirst j hlt)
    · exact absurd hi (hnone i)
  · intro hchild
    exact ⟨i, hchild, .inl ⟨hi, hfirst⟩⟩

theorem leads_iff_of_not_called (hnone : ∀ j, ¬ a.Called n name j) (indexed : Bool) :
    a.Leads n name indexed child ↔
      ∃ i, (if indexed then Numeral.index? name else none) = some i ∧
        a.childAt n i = some child := by
  constructor
  · rintro ⟨i, hchild, ⟨hi, -⟩ | ⟨-, rfl, hindex⟩⟩
    · exact absurd hi (hnone i)
    · exact ⟨i, hindex, hchild⟩
  · rintro ⟨i, hindex, hchild⟩
    cases indexed with
    | false => cases hindex
    | true => exact ⟨i, hchild, .inr ⟨hnone, rfl, hindex⟩⟩

section
variable {μ : Type} {put : ν → μ} {take? : μ → Option ν} (ht : ∀ n, take? (put n) = some n)

theorem not_childAt_disguise {x : μ} (hx : take? x = none) (i : Nat) (child : μ) :
    (a.disguise put take?).childAt x i ≠ some child := by
  simp only [disguise, hx]
  intro h
  cases h

theorem step_disguise_of_none {x : μ} (hx : take? x = none) (segment : String) :
    (a.disguise put take?).step x segment [] = none := by
  rw [step_eq]
  simp only [disguise, hx]
  cases Numeral.index? segment <;> rfl

include ht

theorem called_disguise (i : Nat) :
    (a.disguise put take?).Called (put n) name i ↔ a.Called n name i := by
  have hname (child : ν) : (a.disguise put take?).name (put child) = a.name child := by
    simp [disguise, ht]
  unfold Called
  simp only [a.childAt_disguise ht]
  constructor
  · rintro ⟨x, hx, hown⟩
    obtain ⟨child, hchild, rfl⟩ := Option.map_eq_some_iff.1 hx
    exact ⟨child, hchild, (hname child).symm.trans hown⟩
  · rintro ⟨child, hchild, hown⟩
    exact ⟨put child, Option.map_eq_some_iff.2 ⟨child, hchild, rfl⟩, (hname child).trans hown⟩

theorem leads_disguise (indexed : Bool) (x : μ) :
    (a.disguise put take?).Leads (put n) name indexed x ↔
      ∃ child, a.Leads n name indexed child ∧ put child = x := by
  unfold Leads
  simp only [called_disguise ht, a.childAt_disguise ht]
  constructor
  · rintro ⟨i, hx, hway⟩
    obtain ⟨child, hchild, rfl⟩ := Option.map_eq_some_iff.1 hx
    exact ⟨child, ⟨i, hchild, hway⟩, rfl⟩
  · rintro ⟨child, ⟨i, hchild, hway⟩, rfl⟩
    exact ⟨i, Option.map_eq_some_iff.2 ⟨child, hchild, rfl⟩, hway⟩

end

end Access

namespace Document

variable {δ : Type} {f : Form δ} {doc v : δ} {place child : Place} {name : String}

def Depiction.named? (d : Depiction f) (v : δ) (name : String) : Option Nat :=
  (d.children v).findIdx? (·.1 == some name)

theorem childAt_eq (hv : at? f doc place = some v) (i : Nat) : (access f doc).childAt place i =
    if i < f.childCount v then some (place ++ [i]) else none := by
  simp [access, childAt?, hv]

theorem Depiction.called_iff (d : Depiction f) (hv : at? f doc place = some v) (i : Nat) :
    (access f doc).Called place name i ↔ ∃ c, (d.children v)[i]? = some c ∧ c.1 = some name := by
  unfold Access.Called
  rw [childAt_eq hv, d.childCount]
  constructor
  · rintro ⟨child, hchild, hname⟩
    split at hchild
    · next hi =>
      cases hchild
      have hc := List.getElem?_eq_getElem hi
      exact ⟨_, hc, (d.name?_child hv hc).symm.trans hname⟩
    · cases hchild
  · rintro ⟨c, hc, hname⟩
    have hi := (List.getElem?_eq_some_iff.1 hc).1
    exact ⟨place ++ [i], if_pos hi, (d.name?_child hv hc).trans hname⟩

theorem Depiction.called_named (d : Depiction f) (hv : at? f doc place = some v) {i : Nat}
    (h : d.named? v name = some i) : (access f doc).Called place name i ∧
      ∀ j < i, ¬ (access f doc).Called place name j := by
  obtain ⟨hi, hname, hbefore⟩ := List.findIdx?_eq_some_iff_getElem.1 h
  refine ⟨(d.called_iff hv i).2 ⟨_, List.getElem?_eq_getElem hi, beq_iff_eq.1 hname⟩, ?_⟩
  intro j hj hcalled
  obtain ⟨c, hc, hown⟩ := (d.called_iff hv j).1 hcalled
  obtain ⟨hlt, rfl⟩ := List.getElem?_eq_some_iff.1 hc
  exact hbefore j hj (beq_iff_eq.2 hown)

theorem Depiction.not_called_of_named (d : Depiction f) (hv : at? f doc place = some v)
    (h : d.named? v name = none) (i : Nat) : ¬ (access f doc).Called place name i := by
  intro hcalled
  obtain ⟨c, hc, hown⟩ := (d.called_iff hv i).1 hcalled
  have hnot := List.findIdx?_eq_none_iff.1 h c (List.mem_of_getElem? hc)
  simp [hown] at hnot

theorem Depiction.step_eq_some_iff (d : Depiction f) (hv : at? f doc place = some v)
    {indexed : Bool} (hindex : f.childCount v ≠ 0 → f.index? v name =
      (d.named? v name).or (if indexed then Numeral.index? name else none)) :
    (access f doc).step place name [] = some child ↔
      (access f doc).Leads place name indexed child := by
  have hstep : (access f doc).step place name [] = some child ↔
      ∃ i, ((d.named? v name).or (if indexed then Numeral.index? name else none)) = some i ∧
        (access f doc).childAt place i = some child := by
    rw [step_access hv, Option.bind_eq_some_iff]
    by_cases hcount : f.childCount v = 0
    · simp [childAt_eq hv, hcount]
    · rw [hindex hcount]
      simp only [childAt_eq hv]
  rw [hstep]
  cases hnamed : d.named? v name with
  | some i =>
    obtain ⟨hcalled, hfirst⟩ := d.called_named hv hnamed
    rw [Access.leads_iff_of_called hcalled hfirst]
    simp
  | none =>
    rw [Access.leads_iff_of_not_called (d.not_called_of_named hv hnamed)]
    simp

theorem step_eq_some_iff_of_none (hv : at? f doc place = none) (indexed : Bool) :
    (access f doc).step place name [] = some child ↔
      (access f doc).Leads place name indexed child := by
  have hstep : (access f doc).step place name [] = none := by
    rw [Access.step_eq]
    simp [access, hv, Access.candidates]
  rw [hstep]
  refine iff_of_false (Option.some_ne_none child).symm ?_
  rintro ⟨i, hchild, -⟩
  simp [access, childAt?, hv] at hchild

end Document

def Content.indexed (c : Content) (d : Disk) (n : Location) : Bool :=
  match c with
  | .json _ => true
  | _ => (show Bool from (c.access d).isList n)

namespace Content

variable {c : Content} {d : Disk} {n child : Location} {name : String}

theorem index?_json {v : Json.Value} (h : Json.Value.form.childCount v ≠ 0) (name : String) :
    Json.Value.form.index? v name =
      (Json.Value.depiction.named? v name).or (Numeral.index? name) := by
  cases v with
  | array items =>
    have hnone : Json.Value.depiction.named? (.array items) name = none := by
      simp [Document.Depiction.named?, Json.Value.depiction, Json.Value.children]
    rw [hnone]
    rfl
  | object members =>
    have hnamed : Json.Value.depiction.named? (.object members) name =
        members.findIdx? (·.1 == name) := by
      simp [Document.Depiction.named?, Json.Value.depiction, Json.Value.children, Function.comp_def]
    rw [hnamed]
    rfl
  | _ => exact absurd rfl h

theorem index?_yaml {v : Yaml.Node} (h : Yaml.Node.form.childCount v ≠ 0) (name : String) :
    Yaml.Node.form.index? v name = (Yaml.Node.depiction.named? v name).or
      (if Yaml.Node.form.isList v then Numeral.index? name else none) := by
  cases v with
  | sequence items =>
    have hnone : Yaml.Node.depiction.named? (.sequence items) name = none := by
      simp [Document.Depiction.named?, Yaml.Node.depiction, Yaml.Node.children]
    rw [hnone]
    rfl
  | mapping entries =>
    have hnamed : Yaml.Node.depiction.named? (.mapping entries) name =
        entries.findIdx? (·.1.text? == some name) := by
      simp [Document.Depiction.named?, Yaml.Node.depiction, Yaml.Node.children, Function.comp_def]
    rw [hnamed]
    exact (Option.or_none).symm
  | _ => exact absurd rfl h

theorem place?_eq_some {n : Location} {place : Document.Place} (h : n.place? = some place) :
    n = .document place := by
  cases n <;> simp_all [Location.place?]

theorem step_disguised {δ : Type} {f : Document.Form δ} {document : δ} {indexed : Bool}
    (h : ∀ place child, n = .document place →
      ((Document.access f document).step place name [] = some child ↔
        (Document.access f document).Leads place name indexed child)) :
    ((Document.access f document).disguise .document Location.place?).step n name [] =
        some child ↔
      ((Document.access f document).disguise .document Location.place?).Leads n name indexed
        child := by
  cases hn : n.place? with
  | none =>
    rw [Access.step_disguise_of_none hn]
    refine iff_of_false (Option.some_ne_none child).symm ?_
    rintro ⟨i, hchild, -⟩
    exact Access.not_childAt_disguise hn i child hchild
  | some place =>
    obtain rfl := place?_eq_some hn
    have ht (q : Document.Place) : (Location.document q).place? = some q := rfl
    rw [Access.step_disguise _ ht, Access.leads_disguise ht, Option.map_eq_some_iff]
    simp only [h place _ rfl]

theorem step_eq_some_iff (hc : (∃ document, c = .json document) ∨ ∃ document, c = .yaml document) :
    (c.access d).step n name [] = some child ↔
      (c.access d).Leads n name (c.indexed d n) child := by
  rcases hc with ⟨document, rfl⟩ | ⟨document, rfl⟩
  · refine step_disguised fun place child _ => ?_
    cases hv : Document.at? Json.Value.form document place with
    | none => exact Document.step_eq_some_iff_of_none hv _
    | some v => exact Json.Value.depiction.step_eq_some_iff hv fun h => index?_json h name
  · refine step_disguised fun place child hn => ?_
    subst hn
    cases hv : Document.at? Yaml.Node.form document place with
    | none => exact Document.step_eq_some_iff_of_none hv _
    | some v =>
      have hlist : (Content.yaml document).indexed d (.document place) =
          Yaml.Node.form.isList v := by
        simp [indexed, access, Access.disguise, Location.place?, Document.access, hv]
      rw [hlist]
      exact Yaml.Node.depiction.step_eq_some_iff hv fun h => index?_yaml h name

end Content

end AttributeTrees
