import AttributeTrees.Proofs.Json.Ways
/-!
# JSON documents that merge

Documents merge if no way leads to an array in one and to an object in another, and no member could
be taken for an item. A way that one of them has leads in each of the others to the place with that
way, if it leads anywhere.
-/
namespace AttributeTrees.Json.Value

open Document (Place at?)

variable {doc other v w : Value} {place : Place} {docs : List Value} {way : List String}

def Keyed (doc : Value) : Prop :=
  ∀ place members, at? form doc place = some (object members) →
    ∀ m ∈ members, m.1 ≠ "" ∧ Numeral.index? m.1 = none

def Alike (v w : Value) : Prop :=
  ∀ p q items members, at? form v p = some (array items) → at? form w q = some (object members) →
    depiction.way v p ≠ depiction.way w q

structure Mergeable (docs : List Value) : Prop where
  storable : ∀ doc ∈ docs, doc.Storable
  keyed : ∀ doc ∈ docs, doc.Keyed
  alike : docs.Pairwise fun v w => v.Alike w ∧ w.Alike v

def Has (v : Value) (way : List String) : Prop :=
  ∃ q, (at? form v q).isSome ∧ depiction.way v q = way

theorem exists_child {i : Nat} {q : Place} (h : at? form v (i :: q) = some w) :
    ∃ c, v.children[i]? = some c := by
  have hchild : form.child? v i = v.children[i]? := depiction.child? v i
  rw [at?, hchild] at h
  cases hc : v.children[i]? with
  | none => simp [hc] at h
  | some c => exact ⟨c, rfl⟩

theorem Keyed.child {i : Nat} {c : Option String × Value} (h : v.Keyed)
    (hc : v.children[i]? = some c) : c.2.Keyed := by
  intro place members hp
  apply h (i :: place) members
  rw [at?_cons hc, hp]

theorem Keyed.clear (h : doc.Keyed) : doc.Clear := by
  intro place members hp i v hi
  exact absurd rfl (h place members hp _ (List.mem_of_getElem? hi)).1

theorem Alike.child (h : v.Alike w) {i j : Nat} {c e : Option String × Value}
    (hc : v.children[i]? = some c) (he : w.children[j]? = some e)
    (hsame : form.segment v c.1 i = form.segment w e.1 j) : c.2.Alike e.2 := by
  intro p q items members hp hq hway
  apply h (i :: p) (j :: q) items members
  · rw [at?_cons hc, hp]
  · rw [at?_cons he, hq]
  · rw [depiction.way_cons hc, depiction.way_cons he, hsame, hway]

theorem has_nil (v : Value) : v.Has [] := ⟨[], rfl, rfl⟩

theorem has_cons {name : String} : v.Has (name :: way) ↔
    ∃ i c, v.children[i]? = some c ∧ form.segment v c.1 i = name ∧ c.2.Has way := by
  constructor
  · rintro ⟨q, hq, hway⟩
    cases q with
    | nil => cases hway
    | cons i q =>
      obtain ⟨w, hw⟩ := Option.isSome_iff_exists.1 hq
      obtain ⟨c, hc⟩ := exists_child hw
      rw [depiction.way_cons hc] at hway
      obtain ⟨hname, hway⟩ := List.cons.inj hway
      rw [at?_cons hc] at hq
      exact ⟨i, c, hc, hname, q, hq, hway⟩
  · rintro ⟨i, c, hc, hname, q, hq, hway⟩
    refine ⟨i :: q, ?_, ?_⟩
    · rw [at?_cons hc]
      exact hq
    · rw [depiction.way_cons hc, hname, hway]

theorem has_append_singleton {name : String} : doc.Has (way ++ [name]) ↔
    ∃ q v i c, at? form doc q = some v ∧ depiction.way doc q = way ∧ v.children[i]? = some c ∧
      form.segment v c.1 i = name := by
  induction way generalizing doc with
  | nil =>
    rw [List.nil_append, has_cons]
    constructor
    · rintro ⟨i, c, hc, hname, -⟩
      exact ⟨[], doc, i, c, rfl, rfl, hc, hname⟩
    · rintro ⟨q, v, i, c, hv, hway, hc, hname⟩
      cases q with
      | nil =>
        cases hv
        exact ⟨i, c, hc, hname, has_nil _⟩
      | cons j q =>
        obtain ⟨e, he⟩ := exists_child hv
        rw [depiction.way_cons he] at hway
        cases hway
  | cons first way ih =>
    rw [List.cons_append, has_cons]
    constructor
    · rintro ⟨j, e, he, hfirst, hhas⟩
      obtain ⟨q, v, i, c, hv, hway, hc, hname⟩ := ih.1 hhas
      refine ⟨j :: q, v, i, c, ?_, ?_, hc, hname⟩
      · rw [at?_cons he, hv]
      · rw [depiction.way_cons he, hfirst, hway]
    · rintro ⟨q, v, i, c, hv, hway, hc, hname⟩
      cases q with
      | nil => cases hway
      | cons j q =>
        obtain ⟨e, he⟩ := exists_child hv
        rw [depiction.way_cons he] at hway
        obtain ⟨hfirst, hway⟩ := List.cons.inj hway
        rw [at?_cons he] at hv
        exact ⟨j, e, he, hfirst, ih.2 ⟨q, v, i, c, hv, hway, hc, hname⟩⟩

theorem Has.length_le (h : v.Has way) : way.length ≤ v.size := by
  induction way generalizing v with
  | nil => exact Nat.zero_le _
  | cons name way ih =>
    obtain ⟨i, c, hc, -, hrest⟩ := has_cons.1 h
    have hlen := ih hrest
    have hsize := size_child_lt (List.mem_of_getElem? hc)
    rw [List.length_cons]
    omega

theorem segment_of_index? (hst : w.Storable) (hw : w.Keyed) (hvw : v.Alike w) (hwv : w.Alike v)
    {name : String} (hname : w.Has [name]) {i : Nat} (hi : form.index? v name = some i)
    (hlt : i < form.childCount v) :
    ∃ c, v.children[i]? = some c ∧ form.segment v c.1 i = name := by
  obtain ⟨j, e, he, hseg, -⟩ := has_cons.1 hname
  cases v with
  | array items =>
    change i < items.length at hlt
    refine ⟨(none, items[i]), by simp [children, hlt], ?_⟩
    cases w with
    | array others =>
      obtain ⟨hcount, -, -⟩ := hst
      have hj : j < others.length := by
        simpa [children] using (List.getElem?_eq_some_iff.1 he).1
      change others.length ≤ _ at hcount
      have hj' : form.index? (array items) name = some j := by
        rw [← hseg]
        exact Numeral.index?_toString (by omega)
      rw [hi] at hj'
      cases hj'
      exact hseg
    | object members => exact absurd rfl (hvw [] [] items members rfl rfl)
    | _ => simp [children] at he
  | object members =>
    cases w with
    | array others => exact absurd rfl (hwv [] [] others members rfl rfl)
    | object others =>
      simp only [children, List.getElem?_map, Option.map_eq_some_iff] at he
      obtain ⟨m, hm, rfl⟩ := he
      obtain ⟨hkey, hindex⟩ := hw [] others rfl m (List.mem_of_getElem? hm)
      rw [segment_named hkey] at hseg
      subst hseg
      rw [index?_object, hindex, Option.or_none] at hi
      obtain ⟨hi, hfound, -⟩ := List.findIdx?_eq_some_iff_getElem.1 hi
      refine ⟨(some members[i].1, members[i].2), by simp [children, hi], ?_⟩
      have hsame : members[i].1 = m.1 := by simpa using hfound
      rw [hsame]
      exact segment_named hkey members i
    | _ => simp [children] at he
  | _ => simp [form, childCount] at hlt

theorem follow_of_has (hv : at? form doc place = some v) (hst : w.Storable) (hw : w.Keyed)
    (hvw : v.Alike w) (hwv : w.Alike v) (hway : w.Has way) {r : Place}
    (h : (Document.access form doc).follow [] place way = some r) :
    ∃ q, r = place ++ q ∧ (at? form v q).isSome ∧ depiction.way v q = way := by
  induction way generalizing place v w with
  | nil =>
    cases h
    exact ⟨[], (List.append_nil _).symm, rfl, rfl⟩
  | cons name way ih =>
    obtain ⟨j, e, he, hseg, hrest⟩ := has_cons.1 hway
    rw [Access.follow_cons, Document.step_access hv] at h
    obtain ⟨next, hnext, hfollow⟩ := Option.bind_eq_some_iff.1 h
    obtain ⟨i, hi, hnext⟩ := Option.bind_eq_some_iff.1 hnext
    by_cases hlt : i < form.childCount v
    · rw [if_pos hlt] at hnext
      cases hnext
      obtain ⟨c, hc, hname⟩ := segment_of_index? hst hw hvw hwv
        (has_cons.2 ⟨j, e, he, hseg, has_nil _⟩) hi hlt
      have hsame : form.segment v c.1 i = form.segment w e.1 j := hname.trans hseg.symm
      have hat : at? form w [j] = some e.2 := at?_cons he []
      have hste : e.2.Storable := hst.at hat
      obtain ⟨q, rfl, hq, hwayq⟩ := ih (depiction.at?_child hv hc) hste (hw.child he)
        (hvw.child hc he hsame) (hwv.child he hc hsame.symm) hrest hfollow
      refine ⟨i :: q, by simp, ?_, ?_⟩
      · rw [at?_cons hc]
        exact hq
      · rw [depiction.way_cons hc, hname, hwayq]
    · simp [hlt] at hnext

theorem Keyed.alike (h : doc.Keyed) (hst : doc.Storable) : doc.Alike doc := by
  intro p q items members hp hq hway
  have hresolve := resolve_way hst h.clear hp
  rw [hway, resolve_way hst h.clear hq] at hresolve
  cases hresolve
  cases hp.symm.trans hq

theorem Mergeable.alike_of_mem (hm : Mergeable docs) (hdoc : doc ∈ docs) (hother : other ∈ docs) :
    doc.Alike other ∧ other.Alike doc := by
  have hself (v : Value) (hv : v ∈ docs) : v.Alike v ∧ v.Alike v :=
    ⟨(hm.keyed v hv).alike (hm.storable v hv), (hm.keyed v hv).alike (hm.storable v hv)⟩
  exact hm.alike.forall_of_forall_of_flip hself (hm.alike.imp And.symm) hdoc hother

/-- A way that one of the documents has leads in another to the place with that way. -/
theorem Mergeable.resolve_iff (hm : Mergeable docs) (hdoc : doc ∈ docs) (hother : other ∈ docs)
    {p : Path} (hp : other.Has p.segments) {q : Place} :
    (Document.access form doc).resolve [] p [] = some q ↔
      (at? form doc q).isSome ∧ depiction.way doc q = p.segments := by
  obtain ⟨halike, halike'⟩ := hm.alike_of_mem hdoc hother
  constructor
  · intro h
    obtain ⟨q', rfl, hq, hway⟩ := follow_of_has (Document.at?_nil form doc)
      (hm.storable other hother) (hm.keyed other hother) halike halike' hp h
    exact ⟨hq, hway⟩
  · rintro ⟨hq, hway⟩
    obtain ⟨v, hv⟩ := Option.isSome_iff_exists.1 hq
    have hresolve := resolve_way (hm.storable doc hdoc) (hm.keyed doc hdoc).clear hv
    rwa [hway] at hresolve

instance (doc : Value) : Decidable doc.Keyed :=
  decidable_of_iff (∀ place ∈ doc.places, ∀ members ∈ (at? form doc place).bind members?,
      ∀ m ∈ members, m.1 ≠ "" ∧ Numeral.index? m.1 = none) <| by
    simp only [mem_places, Option.mem_def, Option.bind_eq_some_iff, members?_eq_some]
    constructor
    · intro h place members hp
      exact h place (by simp [hp]) members ⟨_, hp, rfl⟩
    · rintro h place - members ⟨-, hp, rfl⟩
      exact h place members hp

instance (v w : Value) : Decidable (v.Alike w) :=
  decidable_of_iff (∀ p ∈ v.places, ∀ q ∈ w.places, ((at? form v p).any isArray) →
      ((at? form w q).bind members?).isSome → depiction.way v p ≠ depiction.way w q) <| by
    simp only [mem_places, Option.any_eq_true, Option.isSome_iff_exists, Option.bind_eq_some_iff,
      members?_eq_some]
    constructor
    · intro h p q items members hp hq
      exact h p ⟨_, hp⟩ q ⟨_, hq⟩ ⟨_, hp, rfl⟩ ⟨members, _, hq, rfl⟩
    · rintro h p - q - ⟨v', hp, harray⟩ ⟨members, -, hq, rfl⟩
      cases v' with
      | array items => exact h p q items members hp hq
      | _ => cases harray

end AttributeTrees.Json.Value
