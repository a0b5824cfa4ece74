import AttributeTrees.Json.Stream.Machine
import AttributeTrees.Proofs.Json.Stream.Numeric
import AttributeTrees.Proofs.Json.Stream.Scanning
import AttributeTrees.Proofs.Visit.Tree
/-!
# The grammar of a stream

A document is a phrase of tokens. White space may stand in front of each of them, a comma may stand
behind the last member or item, and anything may follow the last token, unless that is a number
which it would continue. Main statement: the scan finds the tokens of the grammar and no others.
-/
namespace AttributeTrees.Json.Stream

open Text.Utf8 (Bytes)
open Visit (Tree)

inductive Lexeme : Token → Bytes → Prop where
  | openObject : Lexeme .openObject [0x7B]
  | closeObject : Lexeme .closeObject [0x7D]
  | openArray : Lexeme .openArray [0x5B]
  | closeArray : Lexeme .closeArray [0x5D]
  | colon : Lexeme .colon [0x3A]
  | comma : Lexeme .comma [0x2C]
  | yes : Lexeme (.bool true) [0x74, 0x72, 0x75, 0x65]
  | no : Lexeme (.bool false) [0x66, 0x61, 0x6C, 0x73, 0x65]
  | null : Lexeme .null [0x6E, 0x75, 0x6C, 0x6C]
  | string {body : Bytes} {s : String} :
    scanString 0 true [] 1 body = .token (.string s) (body.length + 1) →
    Lexeme (.string s) (0x22 :: body)
  | number {b : UInt8} {word : Bytes} {n : Number} : b = 0x2D ∨ isDigit b = true →
    (∀ b ∈ word, isNumberByte b = true) →
    Numeric ((b :: word).map fun b => Char.ofNat b.toNat) n → Lexeme (.number n) (b :: word)

def Token.EndsBefore : Token → Bytes → Prop
  | .number _, b :: _ => isNumberByte b = false
  | _, _ => True

/-- `Spells bytes ts rest`: the bytes are the tokens `ts`, with white space in front of each, and
then `rest`. -/
inductive Spells : Bytes → List Token → Bytes → Prop where
  | nil (rest : Bytes) : Spells rest [] rest
  | cons {space word bytes rest : Bytes} {t : Token} {ts : List Token} :
    (∀ b ∈ space, isSpace b = true) → Lexeme t word → t.EndsBefore bytes → Spells bytes ts rest →
    Spells (space ++ word ++ bytes) (t :: ts) rest

theorem Spells.append {bytes mid rest : Bytes} {ts us : List Token} (h : Spells bytes ts mid)
    (k : Spells mid us rest) : Spells bytes (ts ++ us) rest := by
  induction h with
  | nil => exact k
  | cons hs hl he _ ih => exact .cons hs hl he (ih k)

inductive Scalar : Token → Run → Prop where
  | string (s : String) : Scalar (.string s) (.string [s])
  | uint (n : IntType.nat64.Value) : Scalar (.number (.uint n)) (.uint [n])
  | int (n : IntType.int64.Value) : Scalar (.number (.int n)) (.int [n])
  | float (x : Float) : Scalar (.number (.float x)) (.double [x])
  | bool (b : Bool) : Scalar (.bool b) (.bool [b])
  | null : Scalar .null (.nil 1)

inductive Trail : List Token → Prop where
  | none : Trail []
  | comma : Trail [.comma]

mutual

/-- `Phrase ts t`: the tokens `ts` are the value that the tree `t` shows. -/
inductive Phrase : List Token → Tree → Prop where
  | scalar {token : Token} {run : Run} : Scalar token run → Phrase [token] (.leaf run)
  | emptyStruct : Phrase [.openObject, .closeObject] (.struct [])
  | struct {ts trail : List Token} {members : List (String × Tree)} :
    Members ts members → Trail trail →
    Phrase (.openObject :: (ts ++ trail ++ [.closeObject])) (.struct members)
  | emptyList : Phrase [.openArray, .closeArray] (.list [])
  | list {ts trail : List Token} {items : List Tree} :
    Items ts items → Trail trail →
    Phrase (.openArray :: (ts ++ trail ++ [.closeArray])) (.list items)

inductive Members : List Token → List (String × Tree) → Prop where
  | one {name : String} {ts : List Token} {t : Tree} :
    Phrase ts t → Members (.string name :: .colon :: ts) [(name, t)]
  | snoc {name : String} {us ts : List Token} {members : List (String × Tree)} {t : Tree} :
    Members us members → Phrase ts t →
    Members (us ++ .comma :: .string name :: .colon :: ts) (members ++ [(name, t)])

inductive Items : List Token → List Tree → Prop where
  | one {ts : List Token} {t : Tree} : Phrase ts t → Items ts [t]
  | snoc {us ts : List Token} {items : List Tree} {t : Tree} :
    Items us items → Phrase ts t → Items (us ++ .comma :: ts) (items ++ [t])

end

/-- The bytes are a document that shows the tree `t`, and whatever follows it. -/
def Begins (bytes : Bytes) (t : Tree) : Prop :=
  ∃ ts rest, Spells bytes ts rest ∧ Phrase ts t

theorem scalar?_eq_some_iff {t : Token} {run : Run} :
    Machine.scalar? t = some run ↔ Scalar t run := by
  constructor
  · intro h
    unfold Machine.scalar? at h
    split at h <;> cases h <;> constructor
  · rintro (_ | _ | _ | _ | _ | _) <;> rfl

theorem string_of_scanString {bytes decoded : Bytes} {offset done n : Nat} {atEnd : Bool}
    {t : Token} (h : scanString offset atEnd decoded done bytes = .token t n) :
    ∃ s, t = .string s := by
  fun_induction scanString offset atEnd decoded done bytes with
  | case1 => exact absurd h incomplete_ne_token
  | case2 =>
    unfold closeString at h
    split at h <;> cases h
    exact ⟨_, rfl⟩
  | case3 => exact absurd h incomplete_ne_token
  | case4 _ _ _ _ _ _ _ _ _ _ _ ih => exact ih h
  | case5 => exact absurd h incomplete_ne_token
  | case6 => cases h
  | case7 _ _ _ _ _ _ _ _ _ _ ih => exact ih h
  | case8 => cases h
  | case9 => cases h
  | case10 _ _ _ _ _ _ _ ih => exact ih h

theorem isNumberByte_of_lead {b : UInt8} (h : b = 0x2D ∨ isDigit b = true) :
    isNumberByte b = true := by
  rcases h with rfl | h
  · decide
  · simp [isNumberByte, h]

theorem head_ne_plus {b : UInt8} (h : b = 0x2D ∨ isDigit b = true) (word : Bytes) :
    ((b :: word).map fun b => Char.ofNat b.toNat).head? ≠ some '+' := by
  have hv : b.toNat.isValidChar := .inl (Nat.lt_trans b.toNat_lt (by decide))
  have hc : (Char.ofNat b.toNat).toNat = b.toNat := congrArg Char.toNat (dif_pos hv)
  intro he
  have hn : b.toNat = 43 := hc.symm.trans (congrArg Char.toNat (Option.some.inj he))
  have hb : b = 0x2B := UInt8.toNat_inj.1 hn
  subst hb
  revert h
  decide

theorem takeWhile_of_endsBefore {word rest : Bytes} {n : Number}
    (hw : ∀ b ∈ word, isNumberByte b = true) (hr : (Token.number n).EndsBefore rest) :
    (word ++ rest).takeWhile isNumberByte = word := by
  rw [List.takeWhile_append_of_pos hw]
  cases rest with
  | nil => simp
  | cons b rest =>
    have hb : isNumberByte b = false := hr
    simp [hb]

theorem Lexeme.scan {t : Token} {word rest : Bytes} (h : Lexeme t word) (hr : t.EndsBefore rest)
    (offset : Nat) : scan (word ++ rest) offset true = .token t word.length := by
  cases h with
  | openObject | closeObject | openArray | closeArray | colon | comma => exact scan_punctuation rfl
  | yes => exact (scan_word rfl).trans (scanWord_self [0x72, 0x75, 0x65] rest 1)
  | no => exact (scan_word rfl).trans (scanWord_self [0x61, 0x6C, 0x73, 0x65] rest 1)
  | null => exact (scan_word rfl).trans (scanWord_self [0x75, 0x6C, 0x6C] rest 1)
  | @string body s hs =>
    obtain ⟨literal, more, rfl, hlen, hall⟩ := scanString_token hs
    have hm : more = [] := by
      rw [List.length_append] at hlen
      exact List.eq_nil_of_length_eq_zero (by omega)
    subst hm
    rw [List.append_nil] at hall ⊢
    exact scan_quote.trans (hall offset true rest)
  | @number b word n hb hw hn =>
    have hp := head_ne_plus hb word
    have ht : ((b :: word) ++ rest).takeWhile isNumberByte = b :: word := by
      refine takeWhile_of_endsBefore (List.forall_mem_cons.2 ⟨isNumberByte_of_lead hb, hw⟩) hr
    rw [List.cons_append, scan_number hb, ← List.cons_append, scanNumber_eq_close (.inr rfl), ht,
      closeNumber, (readNumber?_eq_some_iff hp).2 hn]

theorem lexeme_of_punctuation {b : UInt8} {t : Token} (h : punctuation? b = some t) :
    Lexeme t [b] ∧ ∀ rest, t.EndsBefore rest := by
  unfold punctuation? at h
  repeat' split at h
  all_goals cases h
  all_goals
    rename_i hb
    rw [eq_of_beq hb]
    exact ⟨by constructor, fun _ => trivial⟩

theorem lexeme_of_word {b : UInt8} {t : Token} {word : Bytes} (h : word? b = some (t, word)) :
    Lexeme t (b :: word) ∧ ∀ rest, t.EndsBefore rest := by
  unfold word? at h
  repeat' split at h
  all_goals cases h
  all_goals
    rename_i hb
    rw [eq_of_beq hb]
    exact ⟨by constructor, fun _ => trivial⟩

theorem endsBefore_dropWhile (n : Number) (bytes : Bytes) :
    (Token.number n).EndsBefore (bytes.dropWhile isNumberByte) := by
  have h := List.head?_dropWhile_not isNumberByte bytes
  cases hd : bytes.dropWhile isNumberByte with
  | nil => trivial
  | cons b rest =>
    simp only [hd, List.head?_cons] at h
    exact h

theorem lexeme_of_scan {bytes : Bytes} {offset k : Nat} {t : Token}
    (h : scan bytes offset true = .token t k) :
    ∃ word rest, bytes = word ++ rest ∧ k = word.length ∧ Lexeme t word ∧ t.EndsBefore rest := by
  cases bytes with
  | nil => cases h
  | cons b bytes =>
    cases lead b with
    | punctuation u hp =>
      rw [scan_punctuation hp] at h
      cases h
      obtain ⟨hl, he⟩ := lexeme_of_punctuation hp
      exact ⟨[b], bytes, rfl, rfl, hl, he bytes⟩
    | quote hq =>
      subst hq
      rw [scan_quote] at h
      obtain ⟨s, rfl⟩ := string_of_scanString h
      obtain ⟨body, rest, rfl, rfl, hall⟩ := scanString_token h
      have hs := hall 0 true []
      rw [List.append_nil, Nat.add_comm] at hs
      exact ⟨0x22 :: body, rest, rfl, Nat.add_comm _ _, .string hs, trivial⟩
    | number hb =>
      rw [scan_number hb] at h
      obtain ⟨rfl, n, rfl, hn⟩ := scanNumber_token h
      have ht : (b :: bytes).takeWhile isNumberByte = b :: bytes.takeWhile isNumberByte :=
        List.takeWhile_cons_of_pos (isNumberByte_of_lead hb)
      rw [ht] at hn ⊢
      refine ⟨b :: bytes.takeWhile isNumberByte, bytes.dropWhile isNumberByte, ?_, rfl, ?_,
        endsBefore_dropWhile n bytes⟩
      · rw [List.cons_append, List.takeWhile_append_dropWhile]
      · refine .number hb (fun c hc => ?_) ((readNumber?_eq_some_iff (head_ne_plus hb _)).1 hn)
        exact List.all_eq_true.1 (List.all_takeWhile (p := isNumberByte)) c hc
    | word u word hw =>
      rw [scan_word hw] at h
      obtain ⟨rfl, rfl, rest, rfl⟩ := scanWord_token h
      obtain ⟨hl, he⟩ := lexeme_of_word hw
      exact ⟨b :: word, rest, rfl, Nat.add_comm _ _, hl, he rest⟩
    | never hf =>
      rw [hf] at h
      cases h

theorem lexeme_of_scan_append {bytes : Bytes} {offset k : Nat} {atEnd : Bool} {t : Token}
    (h : scan bytes offset atEnd = .token t k) :
    ∃ word rest, bytes = word ++ rest ∧ k = word.length ∧ Lexeme t word ∧
      ∀ more, (atEnd = true → more = []) → t.EndsBefore (rest ++ more) := by
  have later (more : Bytes) (hm : atEnd = true → more = []) :
      scan (bytes ++ more) offset true = .token t k := by
    cases atEnd with
    | true => rwa [hm rfl, List.append_nil]
    | false => rw [scan_append (by simp [h]), h]
  have hnow := later [] fun _ => rfl
  rw [List.append_nil] at hnow
  obtain ⟨word, rest, rfl, rfl, hl, -⟩ := lexeme_of_scan hnow
  refine ⟨word, rest, rfl, rfl, hl, fun more hm => ?_⟩
  obtain ⟨word', rest', hb, hlen, -, he⟩ := lexeme_of_scan (later more hm)
  rw [List.append_assoc] at hb
  rwa [(List.append_inj hb hlen).2]

end AttributeTrees.Json.Stream
