import AttributeTrees.Proofs.Store.Trades
import AttributeTrees.Traversal
/-!
# Fair access

Access to nodes is fair if a question trades no handles but those of the nodes it hands out, and
giving a node back takes just them. Whatever is made of fair questions is fair too: a search along
a path hands out the node at its end, and reads, reports and visits hand out nothing.
-/
namespace AttributeTrees.Access

open Store (Loan Trades Keeps)
open Visit (Visitor)

variable {ν μ σ : Type}

/-- The handles `cost n` go with a node `n` that is handed out. -/
structure Fair (a : Access Live ν) (cost : ν → List Handle) : Prop where
  name : ∀ n, Keeps [] (a.name n)
  preview : ∀ n, Keeps [] (a.preview n)
  kind : ∀ n, Keeps [] (a.kind n)
  isImmutable : ∀ n, Keeps [] (a.isImmutable n)
  isLink : ∀ n, Keeps [] (a.isLink n)
  isList : ∀ n, Keeps [] (a.isList n)
  childCount : ∀ n, Keeps [] (a.childCount n)
  childAt : ∀ n i, Trades [] [] (a.childAt n i) fun c => c.elim [] cost
  childNamed : ∀ n s, Trades [] [] (a.childNamed n s) fun c => c.elim [] cost
  valueCount : ∀ n, Keeps [] (a.valueCount n)
  fetch : ∀ n offset t slots, Keeps [] (a.fetch n offset t slots)
  release : ∀ n, Trades [] (cost n) (a.release n) fun _ => []
  size : ∀ u, Keeps [] (a.size u)

variable {a : Access Live ν} {cost : ν → List Handle}

theorem keeps_option {x : Live (Option ν)} :
    Trades [] [] x (fun c => c.elim [] fun _ => []) ↔ Keeps [] x := by
  have he : (fun c : Option ν => c.elim [] fun _ => ([] : List Handle)) = fun _ => [] := by
    funext c
    cases c <;> rfl
  rw [he]

theorem fair_lift (a : Access Id ν) : (lift a : Access Live ν).Fair fun _ => [] where
  name n := .pure (a.name n)
  preview n := .pure (a.preview n)
  kind n := .pure (a.kind n)
  isImmutable n := .pure (a.isImmutable n)
  isLink n := .pure (a.isLink n)
  isList n := .pure (a.isList n)
  childCount n := .pure (a.childCount n)
  childAt n i := keeps_option.2 (.pure (a.childAt n i))
  childNamed n s := keeps_option.2 (.pure (a.childNamed n s))
  valueCount n := .pure (a.valueCount n)
  fetch n offset t slots := .pure (a.fetch n offset t slots)
  release n := Keeps.pure (a.release n)
  size u := .pure (a.size u)

theorem fair_nothing : (nothing : Access Live ν).Fair fun _ => [] :=
  fair_lift nothing

theorem keeps_match {β : Type} {f : ν → Live β} (hf : ∀ n, Keeps [] (f n)) (n? : Option ν) (b : β) :
    Keeps [] (match n? with | some n => f n | none => pure b) := by
  cases n? with
  | some n => exact hf n
  | none => exact .pure b

theorem Fair.disguise (ha : a.Fair fun _ => []) (put : ν → μ) (take? : μ → Option ν) :
    (a.disguise put take?).Fair fun _ => [] where
  name x := keeps_match ha.name (take? x) none
  preview x := keeps_match ha.preview (take? x) none
  kind x := keeps_match ha.kind (take? x) .unknown
  isImmutable x := keeps_match ha.isImmutable (take? x) false
  isLink x := keeps_match ha.isLink (take? x) false
  isList x := keeps_match ha.isList (take? x) false
  childCount x := keeps_match ha.childCount (take? x) 0
  childAt x i := keeps_option.2 <|
    keeps_match (fun n => .map (Option.map put) (keeps_option.1 (ha.childAt n i))) (take? x) none
  childNamed x s := keeps_option.2 <|
    keeps_match (fun n => .map (Option.map put) (keeps_option.1 (ha.childNamed n s))) (take? x) none
  valueCount x := keeps_match ha.valueCount (take? x) 0
  fetch x offset t slots := keeps_match (fun n => ha.fetch n offset t slots) (take? x) (0, slots)
  release x := keeps_match ha.release (take? x) ()
  size u := ha.size u

theorem fair_choose {pick : Live (Access Live ν)}
    (hp : ∀ s, (pick.run s).2 = s ∧ (pick.run s).1.Fair cost) : (choose pick).Fair cost := by
  have hb {β : Type} {taken : List Handle} {given : β → List Handle} {f : Access Live ν → Live β}
      (hf : ∀ a : Access Live ν, a.Fair cost → Trades [] taken (f a) given) :
      Trades [] taken (pick >>= f) given := by
    intro held s hs ha hl
    obtain ⟨hp, hc⟩ := hp s
    have h := hf _ hc held s hs ha hl
    change Store.Outcome held s given ((f (pick.run s).1).run (pick.run s).2)
    rwa [hp]
  exact {
    name := fun n => hb fun a ha => ha.name n
    preview := fun n => hb fun a ha => ha.preview n
    kind := fun n => hb fun a ha => ha.kind n
    isImmutable := fun n => hb fun a ha => ha.isImmutable n
    isLink := fun n => hb fun a ha => ha.isLink n
    isList := fun n => hb fun a ha => ha.isList n
    childCount := fun n => hb fun a ha => ha.childCount n
    childAt := fun n i => hb fun a ha => ha.childAt n i
    childNamed := fun n s => hb fun a ha => ha.childNamed n s
    valueCount := fun n => hb fun a ha => ha.valueCount n
    fetch := fun n offset t slots => hb fun a ha => ha.fetch n offset t slots
    release := fun n => hb fun a ha => ha.release n
    size := fun u => hb fun a ha => ha.size u }

namespace Fair

theorem firstNamed (ha : a.Fair cost) (n : ν) (names : List String) :
    Trades [] [] (a.firstNamed n names) fun c => c.elim [] cost := by
  induction names with
  | nil => exact .pure (fun c : Option ν => c.elim [] cost) none
  | cons name rest ih =>
    refine Trades.bind (ha.childNamed n name) fun c => ?_
    cases c with
    | some c => exact .pure (fun c : Option ν => c.elim [] cost) (some c)
    | none => exact ih

theorem step (ha : a.Fair cost) (n : ν) (segment : String) (tags : List String) :
    Trades [] [] (a.step n segment tags) fun c => c.elim [] cost := by
  refine Store.Keeps.bind (ha.isList n) fun list => ?_
  cases list with
  | true =>
    rw [if_pos rfl]
    cases Numeral.index? segment with
    | some i => exact ha.childAt n i
    | none => exact .pure (fun c : Option ν => c.elim [] cost) none
  | false => exact ha.firstNamed n _

theorem follow (ha : a.Fair cost) (tags : List String) (n : ν) (segments : List String) :
    Trades [] (cost n) (a.follow tags n segments) fun c => c.elim [] cost := by
  induction segments generalizing n with
  | nil => exact .pure (fun c : Option ν => c.elim [] cost) (some n)
  | cons segment rest ih =>
    refine (ha.step n segment tags).gain fun next => ?_
    refine Trades.perm ((ha.release n).spend fun _ => ?_) List.perm_append_comm
    cases next with
    | some child => exact ih child
    | none => exact .pure (fun c : Option ν => c.elim [] cost) none

theorem resolve (ha : a.Fair cost) (n : ν) (p : Path) (tags : List String) :
    Trades [] (cost n) (a.resolve n p tags) fun c => c.elim [] cost :=
  ha.follow tags n p.segments

theorem value (ha : a.Fair cost) (n : ν) (offset : Nat) (t : Element) :
    Keeps [] (a.value n offset t) :=
  Keeps.bind (ha.fetch n offset t _) fun _ => Keeps.pure _

theorem first (ha : a.Fair cost) (n : ν) (t : Element) : Keeps [] (a.first n t) := ha.value n 0 t

theorem all (ha : a.Fair cost) (n : ν) (t : Element) : Keeps [] (a.all n t) :=
  Keeps.bind (ha.valueCount n) fun _ => Keeps.bind (ha.fetch n 0 t _) fun _ => Keeps.pure _

theorem bytesFrom (ha : a.Fair cost) (n : ν) (fuel offset : Nat) :
    Keeps [] (a.bytesFrom n fuel offset) := by
  induction fuel generalizing offset with
  | zero => exact Keeps.pure _
  | succ fuel ih =>
    refine Keeps.bind (ha.fetch n offset (.int .byte) _) fun r => ?_
    dsimp only
    split
    · exact Keeps.pure _
    · exact Keeps.bind (ih _) fun _ => Keeps.pure _

theorem bytes (ha : a.Fair cost) (n : ν) : Keeps [] (a.bytes n) :=
  Keeps.bind (ha.size ()) fun _ => Keeps.bind (ha.bytesFrom n _ _) fun _ => Keeps.pure _

theorem text (ha : a.Fair cost) (n : ν) : Keeps [] (a.text n) := by
  have hrest (bytesHere : Bool) : Keeps [] (if bytesHere then
      (do return some (String.ofList (← a.all n .char))) else a.first n .text) := by
    cases bytesHere with
    | true => exact Keeps.bind (ha.all n .char) fun _ => Keeps.pure _
    | false => exact ha.first n .text
  refine Keeps.bind (ha.kind n) fun kind => ?_
  split
  · exact Keeps.bind (ha.valueCount n) fun _ => hrest _
  · exact hrest false

theorem segment (ha : a.Fair cost) (child : ν) (index : Nat) :
    Keeps [] (a.segment child index) := by
  refine Keeps.bind (ha.name child) fun name => ?_
  cases name <;> exact Keeps.pure _

theorem run (ha : a.Fair cost) (n : ν) : Keeps [] (a.run n) := by
  refine Keeps.bind (ha.valueCount n) fun count => ?_
  split
  · exact Keeps.pure _
  · refine Keeps.bind (ha.kind n) fun kind => ?_
    have hall (t : Element) (r : List t.Value → Run) : Keeps [] (do return r (← a.all n t)) :=
      Keeps.bind (ha.all n t) fun _ => Keeps.pure _
    have hints : Keeps [] (do
        let values ← a.all n (.int .int64)
        if values.length == (← a.valueCount n) then return Run.int values
        else return Run.uint (← a.all n (.int .nat64))) := by
      refine Keeps.bind (ha.all n _) fun values => Keeps.bind (ha.valueCount n) fun count => ?_
      split
      · exact Keeps.pure _
      · exact hall (.int .nat64) .uint
    cases kind with
    | bool => exact hall .bool .bool
    | int16 | int32 | int64 => exact hints
    | float => exact hall .float .float
    | duration => exact hall .duration fun values => .double (values.map Duration.seconds)
    | byte =>
      refine Keeps.bind (ha.text n) fun text => ?_
      cases text <;> exact Keeps.pure _
    | string | unknown | composite => exact hall .text .string

variable {lent : List Loan}

theorem foldChildrenFrom (ha : a.Fair cost) (n : ν) {f : Nat → ν → σ → Live σ}
    (hf : ∀ i child s, Keeps ((cost child).map .node ++ lent) (f i child s)) (left i : Nat)
    (s : σ) : Keeps lent (a.foldChildrenFrom n f left i s) := by
  induction left generalizing i s with
  | zero => exact Keeps.pure _
  | succ left ih =>
    refine Trades.ask (ha.childAt n i) fun child => ?_
    cases child with
    | some child =>
      refine Trades.bind_frame (hf i child s) fun s => ?_
      exact (ha.release child).give fun _ => ih (i + 1) s
    | none => exact ih (i + 1) s

theorem foldChildren (ha : a.Fair cost) (n : ν) {f : Nat → ν → σ → Live σ}
    (hf : ∀ i child s, Keeps ((cost child).map .node ++ lent) (f i child s)) (s : σ) :
    Keeps lent (a.foldChildren n f s) :=
  Keeps.bind (ha.childCount n) fun _ => ha.foldChildrenFrom n hf _ 0 s

theorem reportNode (ha : a.Fair cost) {f : ν → Path → σ → Live (Bool × σ)}
    (hf : ∀ n p s, Keeps ((cost n).map .node ++ lent) (f n p s)) (depth : Nat) (n : ν) (p : Path)
    (s : σ) : Keeps ((cost n).map .node ++ lent) (a.reportNode f depth n p s) := by
  induction depth generalizing n p s with
  | zero => exact Keeps.pure _
  | succ depth ih =>
    refine Trades.bind (hf n p s) fun r => ?_
    dsimp only
    split
    · exact Keeps.pure _
    · refine Keeps.bind (ha.isLink n) fun link => ?_
      split
      · exact Keeps.pure _
      · refine Keeps.bind (ha.isList n) fun indexed => ha.foldChildren n (fun i child s => ?_) _
        have hchild (p : Path) := (ih child p s).lend <| List.append_subset.2
          ⟨List.subset_append_left _ ((cost n).map .node ++ lent),
            List.subset_append_of_subset_right _ (List.subset_append_right _ lent)⟩
        split
        · exact hchild _
        · exact Keeps.bind (ha.segment child i) fun _ => hchild _

theorem report (ha : a.Fair cost) {f : ν → Path → σ → Live (Bool × σ)}
    (hf : ∀ n p s, Keeps ((cost n).map .node ++ lent) (f n p s)) (root : ν) (s : σ) :
    Keeps ((cost root).map .node ++ lent) (a.report f root s) :=
  Keeps.bind (ha.size ()) fun _ => ha.reportNode hf _ root Path.here s

theorem visitChildren (ha : a.Fair cost) (v : Visitor σ) (n : ν) {f : Nat → ν → σ → Live σ}
    (hf : ∀ i child s, Keeps [] (f i child s)) (left i : Nat) (s : σ) :
    Keeps [] (a.visitChildren v n f left i s) := by
  induction left generalizing i s with
  | zero => exact Keeps.pure _
  | succ left ih =>
    refine Trades.bind (ha.childAt n i) fun child => ?_
    cases child with
    | some child =>
      dsimp only
      split
      · refine Trades.gain (hf i child s) fun s => ?_
        exact Trades.bind (ha.release child) fun _ => ih (i + 1) s
      · exact Trades.bind (ha.release child) fun _ => Keeps.pure s
    | none => exact ih (i + 1) s

theorem isStruct (ha : a.Fair cost) (n : ν) : Keeps [] (a.isStruct n) := by
  refine Keeps.bind (ha.childCount n) fun count => ?_
  split
  · exact Keeps.pure _
  · exact Keeps.bind (ha.kind n) fun _ => Keeps.pure _

theorem visitNode (ha : a.Fair cost) (v : Visitor σ) (depth : Nat) (n : ν) (s : σ) :
    Keeps [] (a.visitNode v depth n s) := by
  induction depth generalizing n s with
  | zero => exact Keeps.pure _
  | succ depth ih =>
    have hvalues : Keeps [] (do return v.receive s (.values (← a.run n))) :=
      Keeps.bind (ha.run n) fun _ => Keeps.pure _
    refine Keeps.bind (ha.isLink n) fun link => ?_
    cases link with
    | true => exact hvalues
    | false =>
      refine Keeps.bind (ha.isList n) fun list => ?_
      cases list with
      | true =>
        refine Keeps.bind (ha.childCount n) fun count => Keeps.bind ?_ fun s => Keeps.pure _
        exact ha.visitChildren v n (fun _ child s => ih child s) count 0 _
      | false =>
        refine Keeps.bind (ha.isStruct n) fun struct => ?_
        cases struct with
        | true =>
          refine Keeps.bind (ha.childCount n) fun count => Keeps.bind ?_ fun s => Keeps.pure _
          refine ha.visitChildren v n (fun i child s => ?_) count 0 _
          exact Keeps.bind (ha.segment child i) fun _ =>
            Keeps.bind (ih child _) fun _ => Keeps.pure _
        | false => exact hvalues

theorem visit (ha : a.Fair cost) (v : Visitor σ) (root : ν) (s : σ) : Keeps [] (a.visit v root s) :=
  Keeps.bind (ha.size ()) fun _ => Keeps.bind (ha.visitNode v _ root _) fun _ => Keeps.pure _

end Fair

end AttributeTrees.Access
