import AttributeTrees.Proofs.Json.Reading
import AttributeTrees.Proofs.Json.Stream.Acceptance
/-!
# Documents from streams

A text whose number literals are whole can be read at once or assembled from a stream. Main
statement: a stream of a text that is read is accepted, and both documents come from the same tree.
They are the same, unless an object repeats a name with a single value behind a list or a structure
behind a structure.
-/
namespace AttributeTrees.Json

open Build (Placing)
open Build.Placing (visitor)
open Json.Stream (Begins Items Machine Members Phrase Spells Token)
open Reading (AllWhole ofText)
open Text.Utf8 (Bytes encodeString)
open Value (Apart lasting overlay)
open Visit (Event Tree Visitor essential)

theorem length_le_of_spells {bytes rest : Bytes} {ts : List Token} (h : Spells bytes ts rest) :
    ts.length ≤ bytes.length := by
  induction h with
  | nil => exact Nat.zero_le _
  | cons hs hl _ _ ih =>
    obtain ⟨b, word, rfl, -⟩ := Machine.head_of_lexeme hl
    simp only [List.length_cons, List.length_append]
    omega

theorem length_pos_of_phrase {ts : List Token} {t : Tree} (h : Phrase ts t) : 0 < ts.length := by
  cases h <;> exact Nat.succ_pos _

theorem length_le_of_items {ts : List Token} {items : List Tree} :
    Items ts items → items.length ≤ ts.length
  | .one h => length_pos_of_phrase h
  | .snoc his _ => by
    have := length_le_of_items his
    simp only [List.length_append, List.length_cons, List.length_nil]
    omega

mutual

theorem fits_of_phrase {ts : List Token} {t : Tree} : Phrase ts t →
    ts.length ≤ Numeral.maxIndex → Assembly.Fits t
  | .scalar _, _ => .leaf _
  | .emptyStruct, _ => .struct nofun
  | .struct hms _, hl => .struct (fits_of_members hms (by grind))
  | .emptyList, _ => .list (Nat.zero_le _) nofun
  | .list his _, hl =>
    .list (Nat.le_trans (length_le_of_items his) (by grind))
      (fits_of_items his (by grind))

theorem fits_of_members {ts : List Token} {members : List (String × Tree)} : Members ts members →
    ts.length ≤ Numeral.maxIndex → ∀ m ∈ members, Assembly.Fits m.2
  | .one h, hl => List.forall_mem_singleton.2 (fits_of_phrase h (by grind))
  | .snoc hms h, hl => List.forall_mem_append.2
    ⟨fits_of_members hms (by grind),
      List.forall_mem_singleton.2 (fits_of_phrase h (by grind))⟩

theorem fits_of_items {ts : List Token} {items : List Tree} : Items ts items →
    ts.length ≤ Numeral.maxIndex → ∀ t ∈ items, Assembly.Fits t
  | .one h, hl => List.forall_mem_singleton.2 (fits_of_phrase h hl)
  | .snoc his h, hl => List.forall_mem_append.2
    ⟨fits_of_items his (by grind),
      List.forall_mem_singleton.2 (fits_of_phrase h (by grind))⟩

end

theorem eq_of_begins {bytes : Bytes} {t u : Tree} (ht : Begins bytes t) (hu : Begins bytes u) :
    t = u := by
  have h := (Machine.outcome_finish_of_begins ht).symm.trans (Machine.outcome_finish_of_begins hu)
  obtain ⟨-, hev⟩ := List.cons.inj (Prod.mk.inj h).1
  exact (Tree.distinct t hev).1

theorem receive_aside (p : Placing (Assembly Value)) {e : Event} (he : e.isAside = true) :
    (visitor (Assembly.builder some)).receive p e = p := by
  cases e with
  | flush | unparsed _ => rfl
  | _ => cases he

theorem receiveAll_essential (p : Placing (Assembly Value)) (log : List Event) :
    (visitor (Assembly.builder some)).receiveAll p (essential log) =
      (visitor (Assembly.builder some)).receiveAll p log := by
  induction log generalizing p with
  | nil => rfl
  | cons e log ih =>
    cases he : e.isAside with
    | true =>
      have hdrop : essential (e :: log) = essential log := by simp [essential, he]
      rw [hdrop, Visitor.receiveAll_cons, receive_aside p he, ih]
    | false => rw [Visit.essential_cons he, Visitor.receiveAll_cons, Visitor.receiveAll_cons, ih]

def streamed (p : Placing (Assembly Value)) (chunks : List Bytes) :
    Machine (Placing (Assembly Value)) :=
  Machine.run (visitor (Assembly.builder some)) p chunks

theorem streamed_of_begins {chunks : List Bytes} {tree : Tree} (h : Begins chunks.flatten tree)
    (hl : chunks.flatten.length ≤ Numeral.maxIndex) (p : Placing (Assembly Value)) :
    (streamed p chunks).fault = none ∧ (streamed p chunks).visitor.builder =
      { document := overlay tree .null, result := some (overlay tree .null) } := by
  have hv : (visitor (Assembly.builder some)).NeverStops p := fun _ => rfl
  have ho := (Machine.outcome_run chunks).trans (Machine.outcome_finish_of_begins h)
  constructor
  · rw [streamed, Machine.fault_run hv]
    exact congrArg (·.2.2.2) ho
  · have hlog : essential (Machine.log (visitor (Assembly.builder some)) p chunks) =
        .start :: (tree.events ++ [.finish]) := by
      rw [Machine.essential_log hv]
      exact congrArg (·.1) ho
    obtain ⟨ts, rest, hs, hp⟩ := h
    have hfits := fits_of_phrase hp (Nat.le_trans (length_le_of_spells hs) hl)
    rw [streamed, Machine.run_eq_map_history]
    change ((visitor (Assembly.builder some)).receiveAll p (Machine.log _ p chunks)).builder = _
    rw [← receiveAll_essential, hlog]
    exact Assembly.builder_of_events hp.single hfits p

theorem string_letter (rest : Bytes) :
    Reading.string (0x61 :: 0x22 :: rest) = .ok ("a", rest) := by
  have hd : Text.Utf8.decode? [0x61] = some ['a'] := by decide +kernel
  exact Reading.string_of_literal rfl hd

theorem lexeme_letter : Stream.Lexeme (.string "a") [0x22, 0x61, 0x22] := by
  obtain ⟨body, hb, hl, -⟩ := Reading.string_ok (string_letter [])
  rw [List.append_nil] at hb
  rwa [hb]

theorem encodeString_repeated : encodeString "\x7b\"a\":[1],\"a\":2\x7d" =
    [0x7B, 0x22, 0x61, 0x22, 0x3A, 0x5B, 0x31, 0x5D, 0x2C, 0x22, 0x61, 0x22, 0x3A, 0x32, 0x7D] := by
  decide

theorem ofText_repeated : ofText "\x7b\"a\":[1],\"a\":2\x7d" =
    .ok (.object [("a", .whole ⟨2, by decide⟩)]) := by
  have hkey (rest : Bytes) : Reading.key (0x22 :: 0x61 :: 0x22 :: 0x3A :: rest) = .ok ("a", rest) :=
    Reading.key_of_string (string_letter _)
  have hone : Reading.value 30 126 [0x5B, 0x31, 0x5D, 0x2C, 0x22, 0x61, 0x22, 0x3A, 0x32, 0x7D] =
      .ok (.array [.whole ⟨1, by decide⟩], [0x2C, 0x22, 0x61, 0x22, 0x3A, 0x32, 0x7D]) := rfl
  have htwo : Reading.value 29 126 [0x32, 0x7D] = .ok (.whole ⟨2, by decide⟩, [0x7D]) := rfl
  refine Reading.ofText_of_members encodeString_repeated ?_
  change Reading.members 31 126 true [] _ = _
  rw [Reading.members_of_key rfl (hkey _) hone, Reading.members_of_key rfl (hkey _) htwo]
  rfl

theorem allWhole_repeated : AllWhole (encodeString "\x7b\"a\":[1],\"a\":2\x7d") := by
  rw [encodeString_repeated]
  decide

theorem spells_next {word bytes rest : Bytes} {t : Token} {ts : List Token}
    (hl : Stream.Lexeme t word) (he : t.EndsBefore bytes) (h : Spells bytes ts rest) :
    Spells (word ++ bytes) (t :: ts) rest :=
  @Spells.cons [] word bytes rest t ts (List.forall_mem_nil _) hl he h

theorem begins_repeated : Begins (encodeString "\x7b\"a\":[1],\"a\":2\x7d")
    (.struct [("a", .list [.leaf (.uint [⟨1, by decide⟩])]),
      ("a", .leaf (.uint [⟨2, by decide⟩]))]) := by
  have hone : Stream.Lexeme (.number (.uint ⟨1, by decide⟩)) [0x31] :=
    .number (.inr rfl) (List.forall_mem_nil _) (.uint rfl rfl)
  have htwo : Stream.Lexeme (.number (.uint ⟨2, by decide⟩)) [0x32] :=
    .number (.inr rfl) (List.forall_mem_nil _) (.uint rfl rfl)
  rw [encodeString_repeated]
  refine ⟨[.openObject, .string "a", .colon, .openArray, .number (.uint ⟨1, by decide⟩),
    .closeArray, .comma, .string "a", .colon, .number (.uint ⟨2, by decide⟩), .closeObject], [],
    ?_, ?_⟩
  · refine spells_next .openObject trivial (spells_next lexeme_letter trivial ?_)
    refine spells_next .colon trivial (spells_next .openArray trivial ?_)
    refine spells_next hone rfl (spells_next .closeArray trivial ?_)
    refine spells_next .comma trivial (spells_next lexeme_letter trivial ?_)
    refine spells_next .colon trivial (spells_next htwo rfl ?_)
    exact spells_next .closeObject trivial (.nil [])
  · have hlist : Phrase [.openArray, .number (.uint ⟨1, by decide⟩), .closeArray]
        (.list [.leaf (.uint [⟨1, by decide⟩])]) := (Items.one (.scalar (.uint _))).closed
    exact ((Members.one hlist).snoc (.scalar (.uint _))).closed

/-- A text that is read is accepted as a stream, however it is cut. There is one tree of which the
stream assembles what it makes of nothing, while of the value that is read every name has the last
member of the tree. These are the same if no member of the tree is merged into an earlier one. -/
theorem streamed_of_ofText {text : String} {v : Value} (h : ofText text = .ok v)
    (hw : AllWhole (encodeString text)) (hl : (encodeString text).length ≤ Numeral.maxIndex)
    {chunks : List Bytes} (hc : chunks.flatten = encodeString text)
    (p : Placing (Assembly Value)) :
    (streamed p chunks).fault = none ∧ ∃ tree : Tree,
      (∀ u, Begins (encodeString text) u ↔ u = tree) ∧ lasting tree = v ∧
      (streamed p chunks).visitor.builder =
        { document := overlay tree .null, result := some (overlay tree .null) } ∧
      (Apart tree → (streamed p chunks).visitor.builder.document = v) := by
  obtain ⟨tree, ht, rfl⟩ := Reading.begins_of_ofText h hw
  rw [← hc] at ht hl
  obtain ⟨hfault, hbuilder⟩ := streamed_of_begins ht hl p
  refine ⟨hfault, tree, fun u => ⟨fun hu => ?_, ?_⟩, rfl, hbuilder, fun ha => ?_⟩
  · rw [← hc] at hu
    exact eq_of_begins hu ht
  · rintro rfl
    rwa [← hc]
  · rw [hbuilder]
    obtain ⟨ts, rest, -, hp⟩ := ht
    exact Value.overlay_eq_lasting hp.single ha (Value.not_merges_null tree)

theorem streamed_of_ofText_repeated :
    let text := "\x7b\"a\":[1],\"a\":2\x7d"
    let v : Value := .object [("a", .whole ⟨2, by decide⟩)]
    let p := Placing.onto Assembly.empty
    ofText text = .ok v ∧ AllWhole (encodeString text) ∧
      (encodeString text).length ≤ Numeral.maxIndex ∧
      (streamed p [encodeString text]).fault = none ∧ ∃ tree : Tree,
        Begins (encodeString text) tree ∧ lasting tree = v ∧
        (streamed p [encodeString text]).visitor.builder.document = overlay tree .null := by
  intro text v p
  have hl : (encodeString text).length ≤ Numeral.maxIndex := by decide
  obtain ⟨hfault, tree, huniq, hlast, hbuilder, -⟩ :=
    streamed_of_ofText ofText_repeated allWhole_repeated hl List.flatten_singleton p
  exact ⟨ofText_repeated, allWhole_repeated, hl, hfault, tree, (huniq tree).2 rfl, hlast,
    by rw [hbuilder]⟩

/-- There the number joins the list, so the stream and the text come to different documents. -/
theorem streamed_ne_ofText : ¬ ∀ (text : String) (v : Value), ofText text = .ok v →
    AllWhole (encodeString text) →
    (streamed (Placing.onto Assembly.empty) [encodeString text]).visitor.builder.document = v := by
  intro h
  have hbegins := begins_repeated
  rw [← List.flatten_singleton (l := encodeString _)] at hbegins
  have hdocument := (streamed_of_begins hbegins (by decide) (Placing.onto Assembly.empty)).2
  have heq := h _ _ ofText_repeated allWhole_repeated
  rw [hdocument] at heq
  cases heq

end AttributeTrees.Json
