import AttributeTrees.Proofs.Access.Values
import AttributeTrees.Proofs.Config.Lookups
import AttributeTrees.Proofs.Outcome
/-!
# Lookups agree

One value of a key, all its values and the flag that it stands for are looked up by functions of
their own. Main statement: where all values are found, the one value is the first of them, and a
flag is the one truth value, unless an argument without a value speaks for it before. What else was
looked up in between makes no difference.
-/
namespace AttributeTrees.Config

variable {s : Sources} {c : Config} {d : Disk} {key : String} {tag : Option String} {t : Element}

theorem convert_eq_ok {origin : Origin} {text : String} {v : t.Value}
    (h : convert key origin t text = .ok v) : t.read? text = some v := by
  unfold convert at h
  cases hr : t.read? text with
  | none => simp [hr] at h
  | some w => simpa [hr] using h

theorem firstOf_append (texts others : List (Option String)) :
    firstOf t (texts ++ others) = (firstOf t texts).or (firstOf t others) :=
  List.findSome?_append

theorem firstOf_of_mapM {α : Type} {read : α → Except Fault t.Value} {text : α → Option String}
    (hread : ∀ a v, read a = .ok v → (text a).bind t.read? = some v) {items : List α}
    {values : List t.Value} (h : items.mapM read = .ok values) :
    firstOf t (items.map text) = values.head? := by
  cases items with
  | nil =>
    cases h
    rfl
  | cons a items =>
    obtain ⟨v, rest, ha, -, rfl⟩ := exists_of_mapM_cons_eq_ok h
    simp [firstOf, hread a v ha]

theorem firstOf_of_texts {values : List t.Value} (h : texts s key t = .ok values) :
    firstOf t (s.argumentValues key ++ [s.setting? key]) = values.head? := by
  unfold texts at h
  obtain ⟨fromArguments, harguments, h⟩ := exists_of_bind_eq_ok h
  obtain ⟨fromEnvironment, henvironment, h⟩ := exists_of_bind_eq_ok h
  cases h
  have hargs : firstOf t (s.argumentValues key) = fromArguments.head? := by
    rw [← List.map_id (s.argumentValues key)]
    refine firstOf_of_mapM (fun text v hv => ?_) harguments
    cases text with
    | none => cases hv
    | some text => exact convert_eq_ok hv
  have henv : firstOf t ((s.setting? key).toList.map some) = fromEnvironment.head? := by
    refine firstOf_of_mapM (fun text v hv => ?_) henvironment
    exact convert_eq_ok hv
  rw [firstOf_append, hargs, List.head?_append, ← henv]
  cases s.setting? key <;> rfl

/-- Something without a value comes before all that reads as a truth value. -/
def BareFirst (texts : List (Option String)) : Prop :=
  ∃ before rest, texts = before ++ none :: rest ∧
    ∀ text, some text ∈ before → Element.readBool? text = none

theorem BareFirst.cons {text : String} {texts : List (Option String)}
    (htext : Element.readBool? text = none) (h : BareFirst texts) :
    BareFirst (some text :: texts) := by
  obtain ⟨before, rest, rfl, hbefore⟩ := h
  refine ⟨some text :: before, rest, rfl, fun other hother => ?_⟩
  rcases List.mem_cons.1 hother with heq | hother
  · cases heq
    exact htext
  · exact hbefore other hother

def said (texts : List (Option String)) : Option Bool :=
  texts.findSome? fun text =>
    match text with
    | some text => Element.readBool? text
    | none => some true

theorem said_of_bareFirst {texts : List (Option String)} (h : BareFirst texts) :
    said texts = some true := by
  obtain ⟨before, rest, rfl, hbefore⟩ := h
  induction before with
  | nil => rfl
  | cons text before ih =>
    cases text with
    | none => rfl
    | some text =>
      have hnone := hbefore text List.mem_cons_self
      have hlater := ih fun other hother => hbefore other (List.mem_cons_of_mem _ hother)
      simpa [said, hnone] using hlater

theorem said_of_not_bareFirst {texts : List (Option String)} (h : ¬ BareFirst texts) :
    said texts = firstOf .bool texts := by
  induction texts with
  | nil => rfl
  | cons text texts ih =>
    cases text with
    | none => exact absurd ⟨[], texts, rfl, nofun⟩ h
    | some text =>
      cases hb : Element.readBool? text with
      | some b => simp [said, firstOf, Element.read?, hb]
      | none =>
        have hlater := ih fun hbare => h (hbare.cons hb)
        simpa [said, firstOf, Element.read?, hb] using hlater

theorem flagOf_eq (s : Sources) (key : String) : flagOf s key =
    (said (s.argumentValues key)).or ((s.setting? key).bind Element.readBool?) := rfl

theorem flagOf_of_not_bareFirst (h : ¬ BareFirst (s.argumentValues key)) :
    flagOf s key = firstOf .bool (s.argumentValues key ++ [s.setting? key]) := by
  rw [flagOf_eq, said_of_not_bareFirst h, firstOf_append]
  congr 1
  cases s.setting? key <;> simp [firstOf, Element.read?]

theorem first_of_valuesOf {found : Found} {values : List t.Value}
    (h : valuesOf d key t found = .ok values) : found.first d t = values.head? := by
  have ha := found.content.agreed_access d
  unfold valuesOf at h
  dsimp only at h
  split at h
  · split at h
    · next hcount =>
      cases h
      exact ha.none _ t (beq_iff_eq.1 hcount)
    · cases hf : found.first d t with
      | none =>
        rw [hf] at h
        cases h
      | some v =>
        rw [hf] at h
        cases h
        rfl
  · next hkind =>
    split at h
    · cases h
    · cases h
      exact (ha.head _ t fun hbyte => hkind (beq_iff_eq.2 hbyte)).symm

theorem standing?_append_filterMap (hd : d.Rooted) (seen : List Sighting) (files : List String)
    (file : String) :
    standing? d (seen ++ files.filterMap (sighting? d)) file = standing? d seen file := by
  induction files generalizing seen with
  | nil => rw [List.filterMap_nil, List.append_nil]
  | cons other files ih =>
    have hsplit : (other :: files).filterMap (sighting? d) =
        (sighting? d other).toList ++ files.filterMap (sighting? d) := by
      cases hs : sighting? d other <;> simp [hs]
    rw [hsplit, ← List.append_assoc, ih, standing?_append hd]

theorem find_after {seen : List Sighting} (h : History s d c seen) (q : Query) (other : String)
    (tag' : Option String) : ((find d key tag).run (q.after d other tag' c)).1 =
      ((find d key tag).run c).1 := by
  obtain ⟨hd, hs, hagrees⟩ := h.spec
  obtain ⟨-, hs', hagrees'⟩ := (h.ask q other tag').spec
  have hbefore := (find_spec hd hagrees key tag).1
  have hafter := (find_spec hd hagrees' key tag).1
  rw [hbefore, hafter, hs, hs']
  congr 2
  funext file
  split
  · simp only [within?]
    rw [sightingsOf, sightings, standing?_append_filterMap hd]
  · rfl

theorem fetch_after {seen : List Sighting} (h : History s d c seen) (q : Query) (other : String)
    (tag' : Option String) : ((fetch d key tag t).run (q.after d other tag' c)).1 =
      ((fetch d key tag t).run c).1 := by
  have hs := h.spec.2.1
  have hs' := (h.ask q other tag').spec.2.1
  rw [run_fetch, run_fetch, hs, hs']
  dsimp only
  rw [find_after h]
  cases firstOf t (s.argumentValues key ++ [s.setting? key]) <;> rfl

/-- Where all values of a key are found, its value is the first of them, and it has none if there
are none. It is set as a flag if an argument without a value comes before all that say whether it
is, and otherwise if its value is true. Other lookups make no difference to its value. -/
theorem lookups_agree (d : Disk) (c : Config) (key : String) (tag : Option String) (t : Element) :
    (∀ values, ((fetchAll d key tag t).run c).1 = .ok values →
      ((fetch d key tag t).run c).1 = values.head?) ∧
    (BareFirst (c.sources.argumentValues key) → ((isSet d key tag).run c).1 = true) ∧
    (¬ BareFirst (c.sources.argumentValues key) →
      ((isSet d key tag).run c).1 = (((fetch d key tag .bool).run c).1).getD false) ∧
    ∀ s seen, History s d c seen → ∀ (q : Query) other otherTag,
      ((fetch d key tag t).run (q.after d other otherTag c)).1 =
        ((fetch d key tag t).run c).1 := by
  refine ⟨fun values h => ?_, fun h => ?_, fun h => ?_, fun s seen h => fetch_after h⟩
  · rw [run_fetchAll] at h
    cases hbefore : texts c.sources key t with
    | error f =>
      rw [hbefore] at h
      cases h
    | ok before =>
      rw [hbefore] at h
      rw [run_fetch, firstOf_of_texts hbefore]
      cases hfound : ((find d key tag).run c).1 with
      | none =>
        simp only [hfound] at h
        cases h
        cases values <;> simp [hfound]
      | some found =>
        simp only [hfound] at h
        cases hvalues : valuesOf d key t found with
        | error f =>
          rw [hvalues] at h
          cases h
        | ok here =>
          rw [hvalues] at h
          cases h
          cases before <;> simp [hfound, first_of_valuesOf hvalues]
  · rw [run_isSet, flagOf_eq, said_of_bareFirst h]
    rfl
  · rw [run_isSet, run_fetch, flagOf_of_not_bareFirst h]
    cases firstOf .bool (c.sources.argumentValues key ++ [c.sources.setting? key]) <;> rfl

theorem lookups_agree_on_arguments :
    let d : Disk := ⟨[], []⟩
    let c := ofSources { Sources.ofApplication "app" with
      arguments := ["--port", "5", "--port=6", "--quiet", "--quiet=no"] }
    ((fetch d "port" none (.int .nat16)).run c).1 = some ⟨5, by decide⟩ ∧
    ((isSet d "quiet" none).run c).1 = true ∧
    ((isSet d "port" none).run c).1 = (((fetch d "port" none .bool).run c).1).getD false ∧
    ((fetch d "port" none .text).run (Query.find.after d "quiet" none c)).1 =
      ((fetch d "port" none .text).run c).1 := by
  intro d c
  have hports : c.sources.argumentValues "port" = [some "5", some "6"] := by decide +kernel
  have hquiet : c.sources.argumentValues "quiet" = [none, some "no"] := by decide +kernel
  have hfive : Element.read? (.int .nat16) "5" = some ⟨5, by decide⟩ := by decide +kernel
  have hsix : Element.read? (.int .nat16) "6" = some ⟨6, by decide⟩ := by decide +kernel
  have hall : ((fetchAll d "port" none (.int .nat16)).run c).1 =
      .ok [⟨5, by decide⟩, ⟨6, by decide⟩] := by
    have htexts : texts c.sources "port" (.int .nat16) =
        .ok [⟨5, by decide⟩, ⟨6, by decide⟩] := by
      unfold texts
      rw [hports]
      simp only [List.mapM_cons, convert, hfive, hsix]
      rfl
    have hfind : ((find d "port" none).run c).1 = none := rfl
    rw [run_fetchAll, htexts]
    simp only [hfind]
  have hstart : History c.sources d c [] := .start nofun
  refine ⟨?_, ?_, ?_, ?_⟩
  · exact (lookups_agree d c "port" none (.int .nat16)).1 _ hall
  · exact (lookups_agree d c "quiet" none .bool).2.1 ⟨[], [some "no"], hquiet, nofun⟩
  · refine (lookups_agree d c "port" none .bool).2.2.1 ?_
    rintro ⟨before, rest, h, -⟩
    have hmem : none ∈ before ++ none :: rest := by simp
    rw [← h, hports] at hmem
    simp at hmem
  · exact (lookups_agree d c "port" none .text).2.2.2 _ _ hstart .find "quiet" none

end AttributeTrees.Config
