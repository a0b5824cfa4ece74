import AttributeTrees.Proofs.Run
import AttributeTrees.Proofs.Visit.Printing
/-!
# The printed log is unambiguous

The line of an event tells the event, for no text, name or word can be taken for another or goes on
in the next line. Only the end of an attribute has no line; it shows in the next line, which stands
less deep than anything in the attribute would.
Main statement: two complete sequences of events that are printed alike are the same.
-/
namespace AttributeTrees.Visit

open Text (append_inj_of_not_mem)
open Text.Quoted (encode)

namespace Event

def word? : Event → Option String
  | start => some "begin"
  | enterStruct => some "\x7b"
  | leaveStruct => some "\x7d"
  | enterList => some "["
  | leaveList => some "]"
  | finish => some "finish"
  | fail => some "failed"
  | _ => none

def ofWord? : String → Option Event
  | "begin" => some start
  | "\x7b" => some enterStruct
  | "\x7d" => some leaveStruct
  | "[" => some enterList
  | "]" => some leaveList
  | "finish" => some finish
  | "failed" => some fail
  | _ => none

theorem ofWord?_of_word? {e : Event} {word : String} (h : e.word? = some word) :
    ofWord? word = some e := by
  cases e <;> cases h <;> rfl

theorem of_word? {e : Event} {word : String} (h : e.word? = some word) :
    ':' ∉ word.toList ∧ '\n' ∉ word.toList ∧ word.toList.head? ≠ some '"' ∧
      word.toList.head? ≠ some ' ' := by
  cases e <;> cases h <;> decide

inductive Reads : Event → List Char → Prop where
  | word {e : Event} {word : String} : e.word? = some word → Reads e word.toList
  | values {run : Run} : run.IsPlain → Reads (.values run) run.line
  | name (name : String) : Reads (.enterAttribute name) (encode '"' name.toList ++ [':'])

namespace Reads

variable {e f : Event} {text : List Char}

theorem injective (he : Reads e text) (hf : Reads f text) : e = f := by
  generalize ht : text = other at hf
  cases he with
  | word he =>
    obtain ⟨hcolon, -, hquote, -⟩ := of_word? he
    cases hf with
    | word hf =>
      rw [String.toList_inj.1 ht] at he
      exact Option.some.inj ((ofWord?_of_word? he).symm.trans (ofWord?_of_word? hf))
    | values _ => exact absurd (ht ▸ Run.colon_mem_line _) hcolon
    | name _ => exact absurd (congrArg List.head? ht) hquote
  | values hr =>
    cases hf with
    | word hf => exact absurd (ht ▸ Run.colon_mem_line _) (of_word? hf).1
    | values _ => rw [Run.line_injective hr ht]
    | name _ => exact absurd (congrArg List.head? ht) (Run.head?_line _).1
  | name n =>
    cases hf with
    | word hf => exact absurd (congrArg List.head? ht).symm (of_word? hf).2.2.1
    | values _ => exact absurd (congrArg List.head? ht).symm (Run.head?_line _).1
    | name m => rw [String.toList_inj.1 (Text.Quoted.encode_append_inj ht).1]

theorem newline_not_mem (h : Reads e text) : '\n' ∉ text := by
  cases h with
  | word h => exact (of_word? h).2.1
  | values hr => exact Run.newline_not_mem_line hr
  | name n => simpa using Text.Quoted.newline_not_mem_encode n.toList

theorem head?_ne (h : Reads e text) : text.head? ≠ some ' ' := by
  cases h with
  | word h => exact (of_word? h).2.2.2
  | values _ => exact (Run.head?_line _).2
  | name n => simp [encode]

end Reads

def IsPlain : Event → Prop
  | values run => run.IsPlain
  | leaveAttribute _ | flush | unparsed _ => False
  | _ => True

def IsLast (e : Event) : Prop := e = finish ∨ e = fail

theorem isPlain_start : start.IsPlain := trivial

theorem IsLast.isPlain {e : Event} (h : e.IsLast) : e.IsPlain := by
  rcases h with rfl | rfl <;> exact trivial

theorem IsPlain.exists_reads {e : Event} (he : e.IsPlain) :
    ∃ text, e.text? = some text ∧ Reads e text.toList := by
  cases e with
  | values run =>
    refine ⟨_, rfl, ?_⟩
    have hline : (run.sortName ++ ": " ++ run.display).toList = run.line := by
      simp [Run.line]
    rw [hline]
    exact .values he
  | enterAttribute n =>
    refine ⟨_, rfl, ?_⟩
    have hname : (Text.Quoted.string n ++ ":").toList = encode '"' n.toList ++ [':'] := by
      simp [Text.Quoted.string]
    rw [hname]
    exact .name n
  | leaveAttribute _ | flush | unparsed _ => exact he.elim
  | _ => exact ⟨_, rfl, .word rfl⟩

end Event

theorem replicate_append_inj {c : Char} {m n : Nat} {xs ys : List Char} (hx : xs.head? ≠ some c)
    (hy : ys.head? ≠ some c) (h : List.replicate m c ++ xs = List.replicate n c ++ ys) :
    m = n ∧ xs = ys := by
  induction m generalizing n with
  | zero =>
    cases n with
    | zero => exact ⟨rfl, h⟩
    | succ n => exact absurd (congrArg List.head? h) hx
  | succ m ih =>
    cases n with
    | zero => exact absurd (congrArg List.head? h).symm hy
    | succ n =>
      obtain ⟨hmn, hrest⟩ := ih (List.cons.inj h).2
      exact ⟨congrArg (· + 1) hmn, hrest⟩

theorem lineAt_append_inj {e f : Event} {s t us vs : List Char} {d d' : Nat}
    (he : e.Reads s) (hf : f.Reads t) (h : lineAt d s ++ us = lineAt d' t ++ vs) :
    d = d' ∧ e = f ∧ us = vs := by
  have hhead {g : Event} {text rest : List Char} (hg : g.Reads text) :
      (text ++ '\n' :: rest).head? ≠ some ' ' := by
    cases text with
    | nil => simp
    | cons c text => exact hg.head?_ne
  simp only [lineAt, List.append_assoc, List.singleton_append] at h
  obtain ⟨hdepth, hrest⟩ := replicate_append_inj (hhead he) (hhead hf) h
  obtain ⟨rfl, hmore⟩ := append_inj_of_not_mem he.newline_not_mem hf.newline_not_mem
    (.inr rfl) (.inr rfl) hrest
  exact ⟨by omega, he.injective hf, (List.cons.inj hmore).2⟩

inductive Open where
  | struct
  | list
  | attribute (name : String)

/-- `Moves s e t`: with `s` open, innermost first, the event `e` may come, and then `t` is open.
Values stand anywhere but directly in a structure, attributes only there. -/
inductive Moves : List Open → Event → List Open → Prop where
  | values {s : List Open} {run : Run} : s.head? ≠ some .struct → run.IsPlain →
    Moves s (.values run) s
  | enterStruct {s : List Open} : s.head? ≠ some .struct → Moves s .enterStruct (.struct :: s)
  | leaveStruct {s : List Open} : Moves (.struct :: s) .leaveStruct s
  | enterList {s : List Open} : s.head? ≠ some .struct → Moves s .enterList (.list :: s)
  | leaveList {s : List Open} : Moves (.list :: s) .leaveList s
  | enterAttribute {s : List Open} (name : String) :
    Moves (.struct :: s) (.enterAttribute name) (.attribute name :: .struct :: s)
  | leaveAttribute {s : List Open} (name : String) :
    Moves (.attribute name :: .struct :: s) (.leaveAttribute name) (.struct :: s)

inductive Ends : List Open → List Event → Prop where
  | close {e : Event} : e.IsLast → Ends [] [e]
  | move {s t : List Open} {e : Event} {es : List Event} : Moves s e t → Ends t es →
    Ends s (e :: es)

section
variable {s t u : List Open} {e f : Event} {es fs : List Event}

theorem Moves.depthAfter (h : Moves s e t) : e.depthAfter s.length = t.length := by
  cases h <;> rfl

theorem Moves.unique (h : Moves s e t) (h' : Moves s e u) : t = u := by
  cases h <;> cases h' <;> rfl

theorem Moves.isPlain_or (h : Moves s e t) : e.IsPlain ∨
    ∃ name r, s = .attribute name :: .struct :: r ∧ e = .leaveAttribute name ∧ t = .struct :: r := by
  cases h with
  | values _ hr => exact .inl hr
  | leaveAttribute name => exact .inr ⟨name, _, rfl, rfl, rfl⟩
  | _ => exact .inl trivial

theorem Moves.not_isLast (h : Moves s e t) : ¬ e.IsLast := by
  rintro (rfl | rfl) <;> cases h

theorem Moves.standing_of_attribute {name : String} {d : Nat} (h : Moves (.attribute name :: s) e t)
    (he : e.IsPlain) : e.standing d = d := by
  cases h with
  | leaveAttribute _ => exact he.elim
  | _ => rfl

theorem transcript_cons {d : Nat} (he : e.IsPlain) (es : List Event) :
    ∃ text, e.Reads text ∧
      transcript d (e :: es) = lineAt (e.standing d) text ++ transcript (e.depthAfter d) es := by
  obtain ⟨text, ht, hr⟩ := he.exists_reads
  exact ⟨text.toList, hr, by rw [transcript, ht]; rfl⟩

theorem transcript_cons_inj {d : Nat} (he : e.IsPlain) (hf : f.IsPlain)
    (h : transcript d (e :: es) = transcript d (f :: fs)) :
    e = f ∧ transcript (e.depthAfter d) es = transcript (e.depthAfter d) fs := by
  obtain ⟨x, hx, hes⟩ := transcript_cons (d := d) he es
  obtain ⟨y, hy, hfs⟩ := transcript_cons (d := d) hf fs
  rw [hes, hfs] at h
  obtain ⟨-, rfl, hrest⟩ := lineAt_append_inj hx hy h
  exact ⟨rfl, hrest⟩

theorem Ends.shallow (h : Ends (.struct :: s) es) :
    ∃ f fs, es = f :: fs ∧ f.IsPlain ∧ f.standing (s.length + 1) ≤ s.length + 1 := by
  cases h with
  | move hm _ =>
    cases hm with
    | leaveStruct => exact ⟨_, _, rfl, trivial, Nat.sub_le _ _⟩
    | enterAttribute name => exact ⟨_, _, rfl, trivial, Nat.le_refl _⟩
    | values hs _ | enterStruct hs | enterList hs => exact absurd rfl hs

theorem Ends.not_alike {name : String} (h : Ends (.struct :: s) es)
    (hm : Moves (.attribute name :: .struct :: s) f t) (hf : f.IsPlain) :
    transcript (s.length + 2) (.leaveAttribute name :: es) ≠ transcript (s.length + 2) (f :: fs) := by
  intro halike
  obtain ⟨g, gs, rfl, hg, hdepth⟩ := h.shallow
  obtain ⟨x, hx, hgs⟩ := transcript_cons (d := s.length + 1) hg gs
  obtain ⟨y, hy, hfs⟩ := transcript_cons (d := s.length + 2) hf fs
  have hnext : transcript (s.length + 2) (.leaveAttribute name :: g :: gs) =
      transcript (s.length + 1) (g :: gs) := rfl
  rw [hnext, hgs, hfs, hm.standing_of_attribute hf] at halike
  obtain ⟨hsame, -⟩ := lineAt_append_inj hx hy halike
  omega

theorem Moves.isPlain_of_nil (h : Moves [] e t) : e.IsPlain := by
  rcases h.isPlain_or with hp | ⟨_, _, hs, -⟩
  · exact hp
  · cases hs

/-- With the same open, two ways to close it and end that are printed alike are the same. -/
theorem Ends.transcript_inj (he : Ends s es) (hf : Ends s fs)
    (h : transcript s.length es = transcript s.length fs) : es = fs := by
  induction he generalizing fs with
  | close he =>
    cases hf with
    | close hf => rw [(transcript_cons_inj he.isPlain hf.isPlain h).1]
    | move hm _ =>
      rw [(transcript_cons_inj he.isPlain hm.isPlain_of_nil h).1] at he
      exact absurd he hm.not_isLast
  | @move s t e es hm hes ih =>
    cases hf with
    | close hf =>
      rw [← (transcript_cons_inj hm.isPlain_of_nil hf.isPlain h).1] at hf
      exact absurd hf hm.not_isLast
    | @move _ t' f fs hm' hfs =>
      rcases hm.isPlain_or with hp | ⟨name, r, rfl, rfl, rfl⟩
      · rcases hm'.isPlain_or with hp' | ⟨name, r, rfl, rfl, rfl⟩
        · obtain ⟨rfl, hrest⟩ := transcript_cons_inj hp hp' h
          cases hm.unique hm'
          rw [hm.depthAfter] at hrest
          rw [ih hfs hrest]
        · exact absurd h.symm (hfs.not_alike hm hp)
      · rcases hm'.isPlain_or with hp' | ⟨name', r', hs, rfl, rfl⟩
        · exact absurd h (hes.not_alike hm' hp')
        · cases hs
          rw [ih hfs h]

end

mutual

inductive Parts : List Event → Prop where
  | nil : Parts []
  | values {run : Run} {rest : List Event} : run.IsPlain → Parts rest →
    Parts (.values run :: rest)
  | struct {members rest : List Event} : Attributes members → Parts rest →
    Parts (.enterStruct :: (members ++ .leaveStruct :: rest))
  | list {items rest : List Event} : Parts items → Parts rest →
    Parts (.enterList :: (items ++ .leaveList :: rest))

inductive Attributes : List Event → Prop where
  | nil : Attributes []
  | cons {name : String} {parts rest : List Event} : Parts parts → Attributes rest →
    Attributes (.enterAttribute name :: (parts ++ .leaveAttribute name :: rest))

end

inductive Complete : List Event → Prop where
  | of_parts {parts : List Event} {last : Event} : Parts parts → last.IsLast →
    Complete (.start :: (parts ++ [last]))

mutual

theorem Parts.ends {parts rest : List Event} {s : List Open} (h : Parts parts)
    (hs : s.head? ≠ some .struct) (hr : Ends s rest) : Ends s (parts ++ rest) :=
  match h with
  | .nil => hr
  | .values hrun hmore => .move (.values hs hrun) (hmore.ends hs hr)
  | @Parts.struct members more hmembers hmore => by
    have hclose : Ends (.struct :: s) (.leaveStruct :: (more ++ rest)) :=
      .move .leaveStruct (hmore.ends hs hr)
    simpa using Ends.move (.enterStruct hs) (hmembers.ends hclose)
  | @Parts.list items more hitems hmore => by
    have hclose : Ends (.list :: s) (.leaveList :: (more ++ rest)) :=
      .move .leaveList (hmore.ends hs hr)
    simpa using Ends.move (.enterList hs) (hitems.ends nofun hclose)

theorem Attributes.ends {members rest : List Event} {s : List Open} (h : Attributes members)
    (hr : Ends (.struct :: s) rest) : Ends (.struct :: s) (members ++ rest) :=
  match h with
  | .nil => hr
  | @Attributes.cons name parts more hparts hmore => by
    have hclose : Ends (.attribute name :: .struct :: s) (.leaveAttribute name :: (more ++ rest)) :=
      .move (.leaveAttribute name) (hmore.ends hr)
    simpa using Ends.move (.enterAttribute name) (hparts.ends nofun hclose)

end

theorem Parts.ends_last {parts : List Event} {last : Event} (h : Parts parts) (hl : last.IsLast) :
    Ends [] (parts ++ [last]) := h.ends nofun (.close hl)

/-- Two complete sequences of events of which a printer writes the same bytes are the same, whatever
the texts and names in them are. -/
theorem eq_of_log_eq {es fs : List Event} (he : Complete es) (hf : Complete fs)
    (h : Printer.log es = Printer.log fs) : es = fs := by
  obtain ⟨hps, hlast⟩ := he
  obtain ⟨hqs, hlast'⟩ := hf
  rw [Printer.log_eq_encode, Printer.log_eq_encode] at h
  obtain ⟨-, hrest⟩ := transcript_cons_inj Event.isPlain_start Event.isPlain_start
    (Text.Utf8.encode_injective h)
  rw [(hps.ends_last hlast).transcript_inj (hqs.ends_last hlast') hrest]

theorem eq_of_log_eq_runs :
    let members : List Event :=
      [.enterAttribute "a\":\n", .values (.string ["\n\x7d", ""]), .values (.nil 0),
        .leaveAttribute "a\":\n", .enterAttribute "b", .leaveAttribute "b"]
    let es := Event.start :: .enterStruct :: (members ++ [.leaveStruct, .finish])
    let fs := Event.start :: ((.enterStruct :: (members ++ [.leaveStruct])) ++ [.finish])
    Complete es ∧ Complete fs ∧ Printer.log es = Printer.log fs ∧ es = fs := by
  intro members es fs
  have htexts : (Run.string ["\n\x7d", ""]).IsPlain := trivial
  have hnone : (Run.nil 0).IsPlain := trivial
  have hmembers : Attributes members :=
    .cons (.values htexts (.values hnone .nil)) (.cons .nil .nil)
  have hes : Complete es := .of_parts (.struct hmembers .nil) (.inl rfl)
  have hlog : Printer.log es = Printer.log fs := rfl
  exact ⟨hes, hes, hlog, eq_of_log_eq hes hes hlog⟩

end AttributeTrees.Visit
