import AttributeTrees.Proofs.Json.Stream.Place
/-!
# Accepting documents

A phrase is accepted wherever a value is awaited, and accepting it tells the events of its tree.
Main statement: a stream ends in a finish if and only if it begins with a document, and then the
events of the document's tree are what is told of it.
-/
namespace AttributeTrees.Json.Stream.Machine

open Text.Utf8 (Bytes)
open Visit (Event Tree Visitor essential)
open Visit.Tree (memberEvents itemEvents)
open Visit.Visitor (NeverStops essentials)

variable {σ : Type} {v : Visitor σ} {m n : Machine σ} {ts us : List Token} {t : Token}

def acceptAll (v : Visitor σ) : Machine σ → List Token → Option (Machine σ)
  | m, [] => some m
  | m, t :: ts => (accept? v m t).bind fun n => acceptAll v n ts

def tellAll (v : Visitor σ) (m : Machine σ) (es : List Event) : Machine σ :=
  { m with visitor := v.receiveAll m.visitor es }

theorem tellAll_cons (m : Machine σ) (e : Event) (es : List Event) :
    tellAll v m (e :: es) = tellAll v (tell v m e) es := rfl

theorem tellAll_append (m : Machine σ) (es fs : List Event) :
    tellAll v m (es ++ fs) = tellAll v (tellAll v m es) fs := by
  simp [tellAll, Visitor.receiveAll_append]

theorem acceptAll_append (m : Machine σ) (ts us : List Token) :
    acceptAll v m (ts ++ us) = (acceptAll v m ts).bind fun n => acceptAll v n us := by
  induction ts generalizing m with
  | nil => rfl
  | cons t ts ih => simp only [List.cons_append, acceptAll, ih, Option.bind_assoc]

theorem acceptAll_carry (m x : Machine σ) (ts : List Token) :
    acceptAll v (m.carry id x) ts = (acceptAll v m ts).map (·.carry id x) := by
  induction ts generalizing m with
  | nil => rfl
  | cons t ts ih =>
    simp only [acceptAll, accept?_carry (respects_id v)]
    cases accept? v m t with
    | none => rfl
    | some n => exact ih n

def Awaits (m : Machine σ) : Prop := m.expect = .value ∨ m.expect = .item

theorem Awaits.accept?_scalar {run : Run} (hm : m.Awaits) (ht : Scalar t run) :
    accept? v m t = some (valueDone v (tell v m (.values run))) := by
  obtain ⟨s, pending, offset, frames, expect, fault, stopped⟩ := m
  rcases hm with rfl | rfl <;> cases ht <;> rfl

theorem Awaits.accept?_openObject (hm : m.Awaits) :
    accept? v m .openObject =
      some { tell v m .enterStruct with frames := .object none :: m.frames, expect := .key } := by
  obtain ⟨s, pending, offset, frames, expect, fault, stopped⟩ := m
  rcases hm with rfl | rfl <;> rfl

theorem Awaits.accept?_openArray (hm : m.Awaits) :
    accept? v m .openArray =
      some { tell v m .enterList with frames := .array :: m.frames, expect := .item } := by
  obtain ⟨s, pending, offset, frames, expect, fault, stopped⟩ := m
  rcases hm with rfl | rfl <;> rfl

theorem valueDone_expect (m : Machine σ) (e : Expect) :
    valueDone v { m with expect := e } = valueDone v m := by
  obtain ⟨s, pending, offset, frames, expect, fault, stopped⟩ := m
  rcases frames with _ | ⟨(_ | name) | _, fs⟩ <;> rfl

theorem acceptAll_closeObject (m : Machine σ) (members : List (String × Tree)) {e : Expect}
    (he : e = .next ∨ e = .key) :
    acceptAll v { tellAll v m (.enterStruct :: memberEvents members) with
      frames := .object none :: m.frames, expect := e } [.closeObject] =
      some (valueDone v (tellAll v m (Tree.struct members).events)) := by
  have hev : (Tree.struct members).events =
      (.enterStruct :: memberEvents members) ++ [.leaveStruct] := rfl
  rw [hev, tellAll_append]
  have hd := valueDone_expect (v := v)
    (tellAll v (tellAll v m (.enterStruct :: memberEvents members)) [.leaveStruct])
  rcases he with rfl | rfl
  · exact congrArg some (hd .next)
  · exact congrArg some (hd .key)

theorem acceptAll_closeArray (m : Machine σ) (items : List Tree) {e : Expect}
    (he : e = .next ∨ e = .item) :
    acceptAll v { tellAll v m (.enterList :: itemEvents items) with
      frames := .array :: m.frames, expect := e } [.closeArray] =
      some (valueDone v (tellAll v m (Tree.list items).events)) := by
  have hev : (Tree.list items).events = (.enterList :: itemEvents items) ++ [.leaveList] := rfl
  rw [hev, tellAll_append]
  have hd := valueDone_expect (v := v)
    (tellAll v (tellAll v m (.enterList :: itemEvents items)) [.leaveList])
  rcases he with rfl | rfl
  · exact congrArg some (hd .next)
  · exact congrArg some (hd .item)

/-- The tokens are accepted where a value is awaited, as the events of the tree. -/
def AcceptsValue (v : Visitor σ) (ts : List Token) (tree : Tree) : Prop :=
  ∀ m : Machine σ, m.Awaits → acceptAll v m ts = some (valueDone v (tellAll v m tree.events))

def AcceptsMembers (v : Visitor σ) (ts : List Token) (members : List (String × Tree)) : Prop :=
  ∀ (m : Machine σ) (fs : List Frame), m.frames = .object none :: fs → m.expect = .key →
    acceptAll v m ts = some { tellAll v m (memberEvents members) with expect := .next }

def AcceptsItems (v : Visitor σ) (ts : List Token) (items : List Tree) : Prop :=
  ∀ (m : Machine σ) (fs : List Frame), m.frames = .array :: fs → m.expect = .item →
    acceptAll v m ts = some { tellAll v m (itemEvents items) with expect := .next }

theorem acceptsValue_scalar {run : Run} (h : Scalar t run) : AcceptsValue v [t] (.leaf run) := by
  intro m hm
  rw [acceptAll, hm.accept?_scalar h]
  rfl

theorem acceptsValue_emptyStruct : AcceptsValue v [.openObject, .closeObject] (.struct []) := by
  intro m hm
  rw [acceptAll, hm.accept?_openObject]
  exact acceptAll_closeObject m [] (.inr rfl)

theorem acceptsValue_struct {members : List (String × Tree)} (h : AcceptsMembers v ts members)
    (htr : Trail us) :
    AcceptsValue v (.openObject :: (ts ++ us ++ [.closeObject])) (.struct members) := by
  intro m hm
  rw [acceptAll, hm.accept?_openObject, Option.bind_some, acceptAll_append, acceptAll_append,
    h _ m.frames rfl rfl, Option.bind_some]
  cases htr with
  | none => exact acceptAll_closeObject m members (.inl rfl)
  | comma => exact acceptAll_closeObject m members (.inr rfl)

theorem acceptsValue_emptyList : AcceptsValue v [.openArray, .closeArray] (.list []) := by
  intro m hm
  rw [acceptAll, hm.accept?_openArray]
  exact acceptAll_closeArray m [] (.inr rfl)

theorem acceptsValue_list {items : List Tree} (h : AcceptsItems v ts items) (htr : Trail us) :
    AcceptsValue v (.openArray :: (ts ++ us ++ [.closeArray])) (.list items) := by
  intro m hm
  rw [acceptAll, hm.accept?_openArray, Option.bind_some, acceptAll_append, acceptAll_append,
    h _ m.frames rfl rfl, Option.bind_some]
  cases htr with
  | none => exact acceptAll_closeArray m items (.inl rfl)
  | comma => exact acceptAll_closeArray m items (.inr rfl)

theorem acceptsMembers_one {name : String} {tree : Tree} (h : AcceptsValue v ts tree) :
    AcceptsMembers v (.string name :: .colon :: ts) [(name, tree)] := by
  intro m fs hf hx
  obtain ⟨s, pending, offset, frames, expect, fault, stopped⟩ := m
  cases hf
  cases hx
  have hev : memberEvents [(name, tree)] =
      .enterAttribute name :: (tree.events ++ [.leaveAttribute name]) := rfl
  rw [hev, tellAll_cons, tellAll_append]
  exact h { tell v _ (.enterAttribute name) with
    frames := .object (some name) :: fs, expect := .value } (.inl rfl)

theorem acceptsMembers_snoc {name : String} {members : List (String × Tree)} {tree : Tree}
    (hms : AcceptsMembers v us members) (h : AcceptsValue v ts tree) :
    AcceptsMembers v (us ++ .comma :: .string name :: .colon :: ts)
      (members ++ [(name, tree)]) := by
  intro m fs hf hx
  obtain ⟨s, pending, offset, frames, expect, fault, stopped⟩ := m
  cases hf
  cases hx
  rw [acceptAll_append, hms _ fs rfl rfl, Tree.memberEvents_append, tellAll_append]
  exact acceptsMembers_one h { tellAll v _ (memberEvents members) with expect := .key } fs rfl rfl

theorem acceptsItems_one {tree : Tree} (h : AcceptsValue v ts tree) :
    AcceptsItems v ts [tree] := by
  intro m fs hf hx
  obtain ⟨s, pending, offset, frames, expect, fault, stopped⟩ := m
  cases hf
  cases hx
  have hev : itemEvents [tree] = tree.events := List.append_nil _
  rw [h _ (.inr rfl), hev]
  rfl

theorem acceptsItems_snoc {items : List Tree} {tree : Tree} (his : AcceptsItems v us items)
    (h : AcceptsValue v ts tree) : AcceptsItems v (us ++ .comma :: ts) (items ++ [tree]) := by
  intro m fs hf hx
  obtain ⟨s, pending, offset, frames, expect, fault, stopped⟩ := m
  cases hf
  cases hx
  rw [acceptAll_append, his _ fs rfl rfl, Tree.itemEvents_append, tellAll_append]
  exact acceptsItems_one h _ fs rfl rfl

theorem acceptsValue {tree : Tree} (h : Phrase ts tree) : AcceptsValue v ts tree :=
  Phrase.rec (motive_1 := fun ts tree _ => AcceptsValue v ts tree)
    (motive_2 := fun ts members _ => AcceptsMembers v ts members)
    (motive_3 := fun ts items _ => AcceptsItems v ts items)
    acceptsValue_scalar acceptsValue_emptyStruct (fun _ htr h => acceptsValue_struct h htr)
    acceptsValue_emptyList (fun _ htr h => acceptsValue_list h htr)
    (fun _ h => acceptsMembers_one h) (fun _ _ hms h => acceptsMembers_snoc hms h)
    (fun _ h => acceptsItems_one h) (fun _ _ his h => acceptsItems_snoc his h) h

theorem expect_of_accept? (h : accept? v m t = some n) : m.expect ≠ .nothing := by
  obtain ⟨s, pending, offset, frames, expect, fault, stopped⟩ := m
  rintro rfl
  cases t <;> cases h

theorem head_of_lexeme {word : Bytes} (h : Lexeme t word) :
    ∃ b rest, word = b :: rest ∧ isSpace b = false := by
  cases h with
  | @number b word n hb hw hn =>
    refine ⟨b, word, rfl, ?_⟩
    have hne (c : UInt8) (hc : isNumberByte c = false) : b ≠ c := by
      rintro rfl
      rw [isNumberByte_of_lead hb] at hc
      cases hc
    simp [isSpace, hne 0x20 (by decide), hne 0x09 (by decide), hne 0x0A (by decide),
      hne 0x0D (by decide)]
  | _ => exact ⟨_, _, rfl, by decide⟩

theorem skipSpace_of_lexeme {space word rest : Bytes} (hm : m.pending = space ++ word ++ rest)
    (hs : ∀ b ∈ space, isSpace b = true) (hw : Lexeme t word) :
    m.skipSpace.pending = word ++ rest := by
  obtain ⟨b, more, rfl, hb⟩ := head_of_lexeme hw
  have ht : m.pending.takeWhile isSpace = space := by
    rw [hm, List.append_assoc, List.takeWhile_append_of_pos hs]
    simp [hb]
  change m.pending.drop (m.pending.takeWhile isSpace).length = b :: more ++ rest
  rw [ht, hm, List.append_assoc, List.drop_left]

theorem read_of_spells {bytes rest : Bytes} (h : Spells bytes ts rest) (hp : m.pending = bytes)
    (hf : m.fault = none) (ha : acceptAll v m ts = some n) :
    ∃ x : Machine σ, x.pending = rest ∧ x.fault = none ∧ x.stopped = m.stopped ∧
      read v true m = read v true (n.carry id x) := by
  -- On the tokens in order: each is found at the start of what is pending, and passed.
  induction h generalizing m n with
  | nil rest =>
    cases ha
    exact ⟨m, hp, hf, rfl, rfl⟩
  | @cons space word bytes rest t ts hs hw he _ ih =>
    obtain ⟨m₁, ht, hts⟩ := Option.bind_eq_some_iff.1 ha
    have hsp : m.skipSpace.pending = word ++ bytes := skipSpace_of_lexeme hp hs hw
    have hm : m.Seeks := by
      refine ⟨hf, expect_of_accept? ht, ?_⟩
      obtain ⟨b, more, rfl, -⟩ := head_of_lexeme hw
      rw [hsp]
      nofun
    have hl : m.look true = .token t word.length := by
      rw [look, hsp]
      exact hw.scan he _
    have hpass : m.pass v t word.length = m₁.carry id (m.skipSpace.advance word.length) := by
      have hc := accept?_carry (respects_id v) m.skipSpace m t
      rw [show m.carry id m.skipSpace = m.skipSpace from rfl, ht] at hc
      rw [pass, accept, hc]
      rfl
    have hrest : (m₁.carry id (m.skipSpace.advance word.length)).pending = bytes := by
      simp [carry, advance, hsp]
    obtain ⟨x, hx, hxf, hxs, hr⟩ := ih hrest hf (n := n.carry id (m.skipSpace.advance word.length))
      (by rw [acceptAll_carry, hts]; rfl)
    exact ⟨x, hx, hxf, hxs, by rw [read_of_token hm hl, hpass, hr]; rfl⟩

def opened (bytes : Bytes) : Machine (List Event) := (begin essentials (onto [])).append bytes

variable {bytes : Bytes}

theorem readEnd_opened : readEnd essentials (opened bytes) =
    (read essentials true (opened bytes)).conclude :=
  readEnd_of_open rfl

theorem outcome_finish_of_begins {tree : Tree} (h : Begins bytes tree) :
    (finish essentials (opened bytes)).2.outcome =
      (.start :: (tree.events ++ [.finish]), [], .nothing, none) := by
  obtain ⟨ts, rest, hs, hp⟩ := h
  have ha := acceptsValue (v := essentials) hp (opened bytes) (.inl rfl)
  obtain ⟨x, -, hxf, -, hr⟩ := read_of_spells hs rfl rfl ha
  generalize hq : (valueDone essentials (tellAll essentials (opened bytes) tree.events)).carry id x
    = q at hr
  have hqo : q.outcome = (.start :: tree.events, [], .nothing, none) := by
    subst hq
    change (essentials.receiveAll [.start] tree.events, ([] : List Frame), Expect.nothing,
      x.fault) = _
    rw [Visitor.receiveAll_essentials, Visit.essential_events, hxf]
    rfl
  have hqs : q.Settled := by
    subst hq
    exact .inr rfl
  have hro : (readEnd essentials (opened bytes)).outcome =
      (.start :: tree.events, [], .nothing, none) := by
    rw [readEnd_opened, hr, outcome_conclude (hqs.outcome_read true), hqs.conclude, hqo]
  exact outcome_finish_eq hro

theorem begins_of_finish (h : (finish essentials (opened bytes)).2.fault = none) :
    ∃ tree, Begins bytes tree := by
  have hst : (opened bytes).Stands [] := ⟨[], rfl, .value .root⟩
  obtain ⟨ts, rest, hs, hr⟩ := hst.read true
  rw [finish_snd, readEnd_opened] at h
  obtain ⟨tree, hp, -⟩ := hr.complete (fault_conclude_eq_none.1 h).2
  exact ⟨tree, ts, rest, hs, hp⟩

/-- A stream ends in a finish if and only if it begins with a document. Then the events of the
document's tree are what a visitor is told of it. -/
theorem finish_iff_begins {s : σ} (hv : NeverStops v s) (chunks : List Bytes) :
    ((log v s chunks).getLast? = some .finish ↔ ∃ tree, Begins chunks.flatten tree) ∧
      ∀ tree, Begins chunks.flatten tree →
        essential (log v s chunks) = .start :: (tree.events ++ [.finish]) := by
  have hb (tree : Tree) (h : Begins chunks.flatten tree) :
      (run essentials [] chunks).outcome =
        (.start :: (tree.events ++ [.finish]), [], .nothing, none) :=
    (outcome_run chunks).trans (outcome_finish_of_begins h)
  have hf : (run essentials [] chunks).fault =
      (finish essentials (opened chunks.flatten)).2.fault :=
    congrArg (·.2.2.2) (outcome_run chunks)
  refine ⟨⟨fun hl => ?_, fun ⟨tree, ht⟩ => ?_⟩, fun tree ht => ?_⟩
  · refine begins_of_finish ?_
    rw [log_getLast?, fault_run hv, hf] at hl
    cases hn : (finish essentials (opened chunks.flatten)).2.fault with
    | none => rfl
    | some f =>
      rw [hn] at hl
      cases hl
  · have hn : (run essentials [] chunks).fault = none := congrArg (·.2.2.2) (hb tree ht)
    rw [log_getLast?, fault_run hv, hn]
    rfl
  · rw [essential_log hv]
    exact congrArg (·.1) (hb tree ht)

theorem finish_trailing_comma :
    let v := Visit.Recorder.visitor
    let s := Visit.Recorder.fresh none true
    let chunks := [[0x7B, 0x22, 0x61], [0x22, 0x3A, 0x20, 0x5B, 0x31], [0x2C, 0x5D, 0x7D, 0x32]]
    let tree := Tree.struct [("a", .list [.leaf (.uint [⟨1, by decide⟩])])]
    NeverStops v s ∧ Begins chunks.flatten tree ∧ (log v s chunks).getLast? = some .finish ∧
      essential (log v s chunks) = .start :: (tree.events ++ [.finish]) := by
  intro v s chunks tree
  have hv : NeverStops v s := Visit.Recorder.neverStops true
  have hn : Lexeme (.number (.uint ⟨1, by decide⟩)) [0x31] :=
    .number (.inr rfl) nofun (.uint rfl rfl)
  have hs : Lexeme (.string "a") [0x22, 0x61, 0x22] := by
    refine .string ?_
    rw [scanString_byte (by decide) (by decide), if_neg (by decide), scanString_quote]
    simp [closeString, Text.Utf8.decode?, Text.Utf8.units_cons, Text.Utf8.unit_of_lt]
  have hb : Begins chunks.flatten tree := by
    change Begins
      [0x7B, 0x22, 0x61, 0x22, 0x3A, 0x20, 0x5B, 0x31, 0x2C, 0x5D, 0x7D, 0x32] tree
    refine ⟨[.openObject, .string "a", .colon, .openArray, .number (.uint ⟨1, by decide⟩), .comma,
      .closeArray, .closeObject], [0x32], ?_, ?_⟩
    · refine @Spells.cons [] _ _ _ _ _ nofun .openObject trivial ?_
      refine @Spells.cons [] _ _ _ _ _ nofun hs trivial ?_
      refine @Spells.cons [] _ _ _ _ _ nofun .colon trivial ?_
      refine @Spells.cons [0x20] _ _ _ _ _ (List.forall_mem_singleton.2 rfl) .openArray trivial ?_
      refine @Spells.cons [] _ _ _ _ _ nofun hn rfl ?_
      refine @Spells.cons [] _ _ _ _ _ nofun .comma trivial ?_
      refine @Spells.cons [] _ _ _ _ _ nofun .closeArray trivial ?_
      exact @Spells.cons [] _ _ _ _ _ nofun .closeObject trivial (.nil _)
    · exact .struct (.one (.list (.one (.scalar (.uint _))) .comma)) .none
  obtain ⟨hl, he⟩ := finish_iff_begins hv chunks
  exact ⟨hv, hb, hl.2 ⟨tree, hb⟩, he tree hb⟩

end AttributeTrees.Json.Stream.Machine
