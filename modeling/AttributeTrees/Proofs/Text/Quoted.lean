import AttributeTrees.Text.Quoted
/-!
# Quoted text is unambiguous

A character is written between quotation marks in one of three ways, and none of them is the
beginning of another character's. So where a quoted text ends can be told whatever is behind it, and
the text can be told from it. A quoted text stands on one line.
-/
namespace AttributeTrees.Text

/-- A text that ends where the mark stands or where nothing is left is told apart from what is
behind it, if the mark does not stand in it. -/
theorem append_inj_of_not_mem {α : Type} {mark : α} {a b us vs : List α} (ha : mark ∉ a)
    (hb : mark ∉ b) (hu : us = [] ∨ us.head? = some mark) (hv : vs = [] ∨ vs.head? = some mark)
    (h : a ++ us = b ++ vs) : a = b ∧ us = vs := by
  have hne {c : α} {cs ws : List α} (hc : mark ∉ c :: cs) (hw : ws = [] ∨ ws.head? = some mark) :
      ws ≠ c :: (cs ++ us) ∧ ws ≠ c :: (cs ++ vs) := by
    constructor <;> rintro rfl <;> simp_all
  induction a generalizing b with
  | nil =>
    cases b with
    | nil => exact ⟨rfl, h⟩
    | cons c b => exact absurd h (hne hb hu).2
  | cons c a ih =>
    cases b with
    | nil => exact absurd h.symm (hne ha hv).1
    | cons d b =>
      obtain ⟨rfl, hrest⟩ := List.cons.inj h
      obtain ⟨rfl, hs⟩ := ih (fun hm => ha (List.mem_cons_of_mem c hm))
        (fun hm => hb (List.mem_cons_of_mem c hm)) hrest
      exact ⟨rfl, hs⟩

namespace Quoted

theorem hexDigit_inj : ∀ m < 16, ∀ n < 16, hexDigit m = hexDigit n → m = n := by decide

theorem hexDigit_ne : ∀ n < 16, hexDigit n ≠ '\x7d' ∧ hexDigit n ≠ '\n' := by decide

theorem hexDigits_ne_nil (n : Nat) : hexDigits n ≠ [] := by
  rw [hexDigits]
  split <;> simp

theorem mem_hexDigits {n : Nat} {c : Char} (h : c ∈ hexDigits n) : ∃ d < 16, c = hexDigit d := by
  induction n using Nat.strongRecOn with
  | ind n ih =>
    rw [hexDigits] at h
    split at h
    · next hn => exact ⟨n, hn, List.mem_singleton.1 h⟩
    · rcases List.mem_append.1 h with h | h
      · exact ih (n / 16) (by omega) h
      · exact ⟨n % 16, Nat.mod_lt _ (by decide), List.mem_singleton.1 h⟩

theorem hexDigits_injective {m n : Nat} (h : hexDigits m = hexDigits n) : m = n := by
  have hlong (k : Nat) (d : Char) : ∀ e, hexDigits k ++ [d] ≠ [e] := by
    intro e he
    exact hexDigits_ne_nil k (List.append_eq_singleton_iff.1 he |>.elim (·.1) fun h => nomatch h.2)
  induction m using Nat.strongRecOn generalizing n with
  | ind m ih =>
    rw [hexDigits.eq_def m, hexDigits.eq_def n] at h
    split at h <;> split at h
    · next hm hn => exact hexDigit_inj m hm n hn (List.cons.inj h).1
    · exact absurd h.symm (hlong _ _ _)
    · exact absurd h (hlong _ _ _)
    · obtain ⟨hhigh, hlow⟩ := List.append_inj' h rfl
      have hdiv : m / 16 = n / 16 := ih (m / 16) (by omega) hhigh
      have hmod : m % 16 = n % 16 :=
        hexDigit_inj _ (Nat.mod_lt _ (by decide)) _ (Nat.mod_lt _ (by decide)) (List.cons.inj hlow).1
      omega

def short? : Char → Option Char
  | '0' => some (Char.ofNat 0)
  | 't' => some '\t'
  | 'n' => some '\n'
  | 'r' => some '\r'
  | '\\' => some '\\'
  | '"' => some '"'
  | _ => none

inductive Written (c : Char) : List Char → Prop where
  | plain : c ≠ '\\' → c ≠ '"' → c ≠ '\n' → Written c [c]
  | short {letter : Char} : short? letter = some c → Written c ['\\', letter]
  | code : Written c ('\\' :: 'u' :: '\x7b' :: (hexDigits c.toNat ++ ['\x7d']))

theorem written_character (c : Char) : Written c (character '"' c) := by
  unfold character
  split
  · next h => exact .short (h ▸ rfl)
  split
  · next h => exact .short (h ▸ rfl)
  split
  · next h => exact .short (h ▸ rfl)
  split
  · next h => exact .short (h ▸ rfl)
  split
  · next h =>
    have h : c = '\\' ∨ c = '"' := by simpa using h
    rcases h with rfl | rfl <;> exact .short rfl
  · next hnl _ hmark =>
    have hmark : c ≠ '\\' ∧ c ≠ '"' := by simpa using hmark
    split
    · exact .code
    · exact .plain hmark.1 hmark.2 hnl

namespace Written

variable {c d : Char} {a b : List Char}

theorem append_inj (ha : Written c a) (hb : Written d b) {us vs : List Char}
    (h : a ++ us = b ++ vs) : c = d ∧ us = vs := by
  cases ha with
  | plain hc _ _ =>
    cases hb with
    | plain => exact List.cons.inj h
    | short _ => exact absurd (List.cons.inj h).1 hc
    | code => exact absurd (List.cons.inj h).1 hc
  | short hs =>
    cases hb with
    | plain hd _ _ => exact absurd (List.cons.inj h).1.symm hd
    | short ht =>
      obtain ⟨rfl, hrest⟩ := List.cons.inj (List.cons.inj h).2
      exact ⟨Option.some.inj (hs.symm.trans ht), hrest⟩
    | code =>
      obtain ⟨rfl, -⟩ := List.cons.inj (List.cons.inj h).2
      cases hs
  | code =>
    cases hb with
    | plain hd _ _ => exact absurd (List.cons.inj h).1.symm hd
    | short ht =>
      obtain ⟨rfl, -⟩ := List.cons.inj (List.cons.inj h).2
      cases ht
    | code =>
      have hclose (e : Char) : '\x7d' ∉ hexDigits e.toNat := by
        intro hm
        obtain ⟨n, hn, he⟩ := mem_hexDigits hm
        exact (hexDigit_ne n hn).1 he.symm
      simp only [List.cons_append, List.append_assoc, List.cons.injEq, true_and] at h
      obtain ⟨hdigits, hrest⟩ :=
        append_inj_of_not_mem (hclose c) (hclose d) (.inr rfl) (.inr rfl) h
      exact ⟨Char.toNat_inj.1 (hexDigits_injective hdigits), (List.cons.inj hrest).2⟩

theorem head_ne (ha : Written c a) (us : List Char) : (a ++ us).head? ≠ some '"' := by
  cases ha with
  | plain _ hq _ => simpa using hq
  | short _ => simp
  | code => simp

theorem not_mem_newline (ha : Written c a) : '\n' ∉ a := by
  cases ha with
  | plain _ _ hn => simpa using hn.symm
  | @short letter hs =>
    have hl : letter ≠ '\n' := by rintro rfl; cases hs
    simpa using hl.symm
  | code =>
    intro hm
    have hm : '\n' ∈ hexDigits c.toNat := by simpa using hm
    obtain ⟨n, hn, he⟩ := mem_hexDigits hm
    exact (hexDigit_ne n hn).2 he.symm

end Written

theorem encode_append_inj {s t us vs : List Char}
    (h : encode '"' s ++ us = encode '"' t ++ vs) : s = t ∧ us = vs := by
  have h : s.flatMap (character '"') ++ '"' :: us = t.flatMap (character '"') ++ '"' :: vs := by
    simpa [encode] using h
  induction s generalizing t with
  | nil =>
    cases t with
    | nil => exact ⟨rfl, (List.cons.inj h).2⟩
    | cons d t =>
      rw [List.flatMap_cons, List.append_assoc] at h
      exact absurd (congrArg List.head? h).symm ((written_character d).head_ne _)
  | cons c s ih =>
    cases t with
    | nil =>
      rw [List.flatMap_cons, List.append_assoc] at h
      exact absurd (congrArg List.head? h) ((written_character c).head_ne _)
    | cons d t =>
      rw [List.flatMap_cons, List.flatMap_cons, List.append_assoc, List.append_assoc] at h
      obtain ⟨rfl, hrest⟩ := (written_character c).append_inj (written_character d) h
      obtain ⟨rfl, hs⟩ := ih (by simpa [encode] using hrest) hrest
      exact ⟨rfl, hs⟩

theorem newline_not_mem_encode (s : List Char) : '\n' ∉ encode '"' s := by
  intro h
  have h : ∃ c ∈ s, '\n' ∈ character '"' c := by simpa [encode] using h
  obtain ⟨c, -, hc⟩ := h
  exact (written_character c).not_mem_newline hc

end Quoted

end AttributeTrees.Text
