import AttributeTrees.Proofs.Disk
import AttributeTrees.Proofs.Disk.Reads
import AttributeTrees.Proofs.Store.Visit
/-!
# Attributes of files

An attribute of a file is asked for values as the file on the disk is. Main statements: a read of
characters shows the first of all characters that the file has from an offset on, and the text of an
attribute is all of them; a read of one other value shows what the first word of the file reads as,
unless the word is cut off, and then what its stump reads as.
-/
namespace AttributeTrees.Store

open Access (Answers Says)
open Disk.Node (CutOff Stump shown)
open Text (firstWord? trimLeft)
open Text.Utf8 (Bytes decodeLossy)

variable {s : Store} {h : Handle} {content : Bytes} {t : Element}

def OfFile (s : Store) (h : Handle) (content : Bytes) : Prop :=
  ∃ path n, s.body? h.tree = some (.own (.files path)) ∧ s.node? h = some (.file n) ∧
    s.disk.read? n.real = some content

theorem OfFile.answers (hf : OfFile s h content) :
    ∃ n, s.disk.read? n.real = some content ∧
      Answers Live.access h (Disk.access s.disk) n s := by
  obtain ⟨path, n, hc, hn, hread⟩ := hf
  have ha := answers_own hc hn
  exact ⟨n, hread, ha.kind, ha.isLink, ha.isList, ha.childCount, ha.valueCount, ha.fetch⟩

theorem fetch_file {d : Disk} {n : Disk.Node} (hread : d.read? n.real = some content)
    (offset : Nat) (t : Element) (slots : List t.Value) :
    n.fetch d offset t slots = Disk.Node.fetchFile content offset t slots := by
  cases slots with
  | cons slot slots => simp [Disk.Node.fetch, hread]
  | nil =>
    cases t with
    | int type =>
      cases type <;> simp [Disk.Node.fetch, Disk.Node.fetchFile, Span.copyBlock]
    | char => simp [Disk.Node.fetch, Disk.Node.fetchFile, Span.copyEach]
    | _ => rfl

theorem OfFile.says_fetch (hf : OfFile s h content) (offset : Nat) (t : Element)
    (slots : List t.Value) :
    Says (Live.access.fetch h offset t slots) s
      (Disk.Node.fetchFile content offset t slots) := by
  obtain ⟨n, hread, ha⟩ := hf.answers
  rw [← fetch_file hread]
  exact ha.fetch offset t slots

def oneFile (content : Bytes) : Store where
  trees := [⟨.own (.files "/f"), (NodeTable.empty.make (.file ⟨"/f", "/f"⟩)).2, 1⟩]
  disk := ⟨[("f", .file content)], []⟩

theorem ofFile_oneFile (content : Bytes) : OfFile (oneFile content) ⟨0, 0⟩ content :=
  have hpath : Disk.isNamePath "/f" ["f"] := by decide
  ⟨"/f", ⟨"/f", "/f"⟩, rfl, rfl, Disk.read?_of_get? hpath rfl⟩

theorem text_file {d : Disk} {n : Disk.Node} (hread : d.read? n.real = some content)
    (hne : content ≠ []) :
    (Disk.access d).text n = some (String.ofList (decodeLossy content)) := by
  have hcount : n.valueCount d = content.length := by simp [Disk.Node.valueCount, hread]
  have hpos : decide (0 < n.valueCount d) = true := by
    rw [hcount]
    exact decide_eq_true (List.length_pos_iff.2 hne)
  have hall : (Disk.access d).all n .char = decodeLossy content := by
    change (n.fetch d 0 .char (List.replicate (n.valueCount d) Element.char.default)).2.take
      (n.fetch d 0 .char (List.replicate (n.valueCount d) Element.char.default)).1 = _
    have hle := Text.Utf8.length_decodeLossy_le content
    rw [fetch_file hread, Disk.Node.fetchFile_char, List.drop_zero, Span.copyEach_eq, hcount,
      List.length_replicate, Nat.min_eq_right hle, List.take_of_length_le hle, List.take_left]
  change (if decide (0 < n.valueCount d) = true then
    some (String.ofList ((Disk.access d).all n .char)) else _) = _
  rw [if_pos hpos, hall]

/-- A read of characters from an offset on shows as many of those that the file has from there on as
there are slots for, and a file that is not empty has all of them as its text. -/
theorem characters_read (hf : OfFile s h content) :
    (∀ offset (slots : List Char),
      let text := decodeLossy (content.drop offset)
      Says (Live.access.fetch h offset .char slots) s
        (min slots.length text.length, text.take slots.length ++ slots.drop text.length)) ∧
    (content ≠ [] →
      Says (Live.access.text h) s (some (String.ofList (decodeLossy content)))) := by
  refine ⟨fun offset slots => ?_, fun hne => ?_⟩
  · have hfetch := hf.says_fetch offset .char slots
    rwa [Disk.Node.fetchFile_char, Span.copyEach_eq] at hfetch
  · obtain ⟨n, hread, ha⟩ := hf.answers
    rw [← text_file hread hne]
    exact ha.text

theorem characters_read_cut :
    let content : Bytes := [0xC3, 0xA9, 0xC3]
    OfFile (oneFile content) ⟨0, 0⟩ content ∧ content ≠ [] ∧
      Says (Live.access.fetch ⟨0, 0⟩ 1 .char ['x', 'y', 'z']) (oneFile content)
        (2, ['\uFFFD', '\uFFFD', 'z']) ∧
      Says (Live.access.text ⟨0, 0⟩) (oneFile content) (some "é\uFFFD") := by
  intro content
  have hf := ofFile_oneFile content
  have hread := characters_read hf
  have hbehind : decodeLossy (content.drop 1) = ['\uFFFD', '\uFFFD'] := by decide +kernel
  have hall : String.ofList (decodeLossy content) = "é\uFFFD" := by decide +kernel
  have hfetch := hread.1 1 ['x', 'y', 'z']
  have htext := hread.2 (by decide)
  rw [hbehind] at hfetch
  rw [hall] at htext
  exact ⟨hf, by decide, hfetch, htext⟩

def firstWordAs? (content : Bytes) (t : Element) : Option t.Value :=
  ((firstWord? (decodeLossy content)).map String.ofList).bind t.read?

theorem OfFile.says_word (hf : OfFile s h content) (hchar : t ≠ .char) (hbyte : t ≠ .int .byte)
    (slot : t.Value) :
    Says (Live.access.fetch h 0 t [slot]) s
      (Span.fill [(Disk.Node.word? content).bind t.read?] [slot]) := by
  rw [← Disk.Node.fetchFile_word hchar hbyte]
  exact hf.says_fetch 0 t [slot]

theorem fill_single_eq_one {α : Type} {item : Option α} {slot v : α}
    (h : Span.fill [item] [slot] = (1, [v])) : item = some v := by
  cases item with
  | none => cases h
  | some w =>
    rw [Span.fill_cons] at h
    cases h
    rfl

/-- A value that is read is what the first word of the file reads as, and none is missed but that of
a word that begins behind the bytes that are looked at. Of a word that begins among them and goes on
behind them, what they have of it is read in its place. -/
theorem first_word_read (hf : OfFile s h content) (hchar : t ≠ .char) (hbyte : t ≠ .int .byte)
    (slot : t.Value) :
    (¬ CutOff content →
      Says (Live.access.fetch h 0 t [slot]) s
        (Span.fill [if trimLeft (shown content) = [] then none else firstWordAs? content t]
          [slot]) ∧
      ∀ v, Says (Live.access.fetch h 0 t [slot]) s (1, [v]) → firstWordAs? content t = some v) ∧
    (CutOff content → ∃ word, Stump (decodeLossy content) word ∧
      Says (Live.access.fetch h 0 t [slot]) s
        (Span.fill [t.read? (String.ofList word)] [slot])) := by
  have hanswer := hf.says_word hchar hbyte slot
  refine ⟨fun hcut => ?_, fun hcut => ?_⟩
  · have hitem : (Disk.Node.word? content).bind t.read? =
        if trimLeft (shown content) = [] then none else firstWordAs? content t := by
      rw [Disk.Node.word?_of_not_cutOff hcut]
      split <;> rfl
    rw [hitem] at hanswer
    refine ⟨hanswer, fun v hv => ?_⟩
    have hvalue := fill_single_eq_one (congrArg Prod.fst (hanswer.symm.trans hv))
    split at hvalue
    · cases hvalue
    · exact hvalue
  · obtain ⟨word, hword, hstump⟩ := Disk.Node.word?_of_cutOff hcut
    rw [hword] at hanswer
    exact ⟨word, hstump, hanswer⟩

def spaced : Bytes := Text.Utf8.encode "  42 \n".toList

theorem not_cutOff_spaced : ¬ CutOff spaced := by
  rintro ⟨-, -, c, hc, -⟩
  have hdrop : spaced.drop Disk.Node.wordWindow = [] := rfl
  rw [Disk.Node.hidden, hdrop, Text.Utf8.decodeLossy_nil] at hc
  cases hc

def padded : Bytes := Text.Utf8.encode (List.replicate 60 ' ' ++ "12345678".toList)

theorem shown_padded : shown padded = List.replicate 60 ' ' ++ "1234".toList := by
  have htake : padded.take Disk.Node.wordWindow =
      Text.Utf8.encode (List.replicate 60 ' ' ++ "1234".toList) := rfl
  rw [shown, htake, Text.Utf8.decodeLossy_encode]

theorem hidden_padded : Disk.Node.hidden padded = "5678".toList := by
  have hdrop : padded.drop Disk.Node.wordWindow = Text.Utf8.encode "5678".toList := rfl
  rw [Disk.Node.hidden, hdrop, Text.Utf8.decodeLossy_encode]

theorem cutOff_padded : CutOff padded := by
  have hbegun : trimLeft (shown padded) = "1234".toList := by
    rw [shown_padded]
    rfl
  have hdigits : "1234".toList.all (!Text.isBlank ·) = true := rfl
  refine ⟨by rw [hbegun]; decide, ?_, '5', by rw [hidden_padded]; rfl, rfl⟩
  rw [hbegun]
  simpa only [List.all_eq_true, Bool.not_eq_true'] using hdigits

theorem says_word_padded : Says (Live.access.fetch ⟨0, 0⟩ 0 (.int .nat32) [IntType.nat32.zero])
    (oneFile padded) (1, [⟨1234, by decide⟩]) := by
  have hword : (Disk.Node.word? padded).bind (Element.read? (.int .nat32)) =
      some ⟨1234, by decide⟩ := by
    rw [Disk.Node.word?_eq, shown_padded]
    rfl
  have hanswer := (ofFile_oneFile padded).says_word (t := .int .nat32) (by decide) (by decide)
    IntType.nat32.zero
  rw [hword] at hanswer
  exact hanswer

theorem first_word_read_spaced :
    OfFile (oneFile spaced) ⟨0, 0⟩ spaced ∧ ¬ CutOff spaced ∧ CutOff padded ∧
      (∀ v, Says (Live.access.fetch ⟨0, 0⟩ 0 (.int .nat32) [IntType.nat32.zero]) (oneFile spaced)
        (1, [v]) → v = ⟨42, by decide⟩) ∧
      ∃ word, Stump (decodeLossy padded) word ∧
        Element.read? (.int .nat32) (String.ofList word) = some ⟨1234, by decide⟩ := by
  have hfirst : firstWordAs? spaced (.int .nat32) = some ⟨42, by decide⟩ := by
    rw [firstWordAs?, spaced, Text.Utf8.decodeLossy_encode]
    rfl
  have hread := first_word_read (t := .int .nat32) (ofFile_oneFile spaced) (by decide) (by decide)
    IntType.nat32.zero
  have hcut := first_word_read (t := .int .nat32) (ofFile_oneFile padded) (by decide) (by decide)
    IntType.nat32.zero
  obtain ⟨word, hstump, hanswer⟩ := hcut.2 cutOff_padded
  refine ⟨ofFile_oneFile spaced, not_cutOff_spaced, cutOff_padded, fun v hv => ?_, word, hstump, ?_⟩
  · exact (Option.some.inj (hfirst.symm.trans ((hread.1 not_cutOff_spaced).2 v hv))).symm
  · exact fill_single_eq_one (congrArg Prod.fst (hanswer.symm.trans says_word_padded))

theorem first_word_not_read : ¬ ∀ (s : Store) (h : Handle) (content : Bytes) (t : Element)
    (slot v : t.Value), OfFile s h content → t ≠ .char → t ≠ .int .byte →
      Says (Live.access.fetch h 0 t [slot]) s (1, [v]) → firstWordAs? content t = some v := by
  intro hall
  have hvalue := hall _ _ _ (.int .nat32) _ _ (ofFile_oneFile padded) (by decide) (by decide)
    says_word_padded
  have hfirst : firstWordAs? padded (.int .nat32) = some ⟨12345678, by decide⟩ := by
    rw [firstWordAs?, padded, Text.Utf8.decodeLossy_encode]
    rfl
  rw [hfirst] at hvalue
  exact absurd hvalue (by decide)

end AttributeTrees.Store
