import Concatenative.Proofs.Rewriting

/-! Invariants of runs: what holds of every value on the stack, whatever code runs. Built-in words
keep up an invariant, and so does a machine whose words do. -/

namespace Concatenative

/-- Which values may occur in a run, which blocks it may come to, which words it may find to be
unknown, and whether it may compose quotations. -/
structure Invariant where
  value : Value → Prop
  block : Block → Prop
  unknown : String → Prop
  composing : Prop
  literal (l : Literal) : value (.literal l)
  list_iff {items : List Value} : value (.list items) ↔ ∀ v ∈ items, value v
  quotation {b : Block} : value (.quotation b) → block b
  capture {items : List Value} {b : Block} :
    value (.list items) → value (.quotation b) → value (.quotation (b.capture (.list items)))
  andThen {a b : Block} : composing → value (.quotation a) → value (.quotation b) →
    value (.quotation (a.andThen b))

/-- A run left values that may occur, and failed for no other unknown word than it may. -/
structure Outcome.Keeps {α : Type} (I : Invariant) (A : α → Prop) (o : Outcome α) : Prop where
  result : ∀ a, o.result = .ok a → A a
  unknown : ∀ name, o.result = .error (.unknownWord name) → I.unknown name
  stack : ∀ v ∈ o.stack, I.value v

/-- On stacks of values that may occur, the computation keeps up an invariant, and its result meets
a condition. -/
def Run.Keeps {α : Type} (I : Invariant) (A : α → Prop) (r : Run α) : Prop :=
  ∀ s, (∀ v ∈ s, I.value v) → (r s).Keeps I A

variable {I : Invariant}

namespace Outcome

variable {α : Type} {A : α → Prop} {s : Stack} {lines : List String} {calls : List Call}

theorem keeps_ok {a : α} (h : A a) (hs : ∀ v ∈ s, I.value v) :
    Keeps I A ⟨.ok a, s, lines, calls⟩ := by
  refine ⟨?_, ?_, hs⟩
  · rintro _ ⟨⟩
    exact h
  · rintro _ ⟨⟩

theorem keeps_error {e : RunError} (h : ∀ name, e = .unknownWord name → I.unknown name)
    (hs : ∀ v ∈ s, I.value v) : Keeps I A ⟨.error e, s, lines, calls⟩ := by
  refine ⟨?_, ?_, hs⟩
  · rintro _ ⟨⟩
  · rintro name ⟨⟩
    exact h name rfl

end Outcome

namespace Run

open Outcome

variable {α β : Type} {A : α → Prop} {B : β → Prop}

theorem keeps_pure {a : α} (h : A a) : (Pure.pure a : Run α).Keeps I A :=
  fun _ hs => keeps_ok h hs

theorem keeps_fail {e : RunError} (h : ∀ name, e = .unknownWord name → I.unknown name) :
    (fail e : Run α).Keeps I A :=
  fun _ hs => keeps_error h hs

theorem Keeps.bind {r : Run α} {next : α → Run β} (h : r.Keeps I A)
    (hnext : ∀ a, A a → (next a).Keeps I B) : (r >>= next).Keeps I B := by
  intro s hs
  have hr := h s hs
  cases hresult : (r s).result with
  | error e =>
    rw [bind_of_error hresult]
    refine keeps_error (fun name he => hr.unknown name ?_) hr.stack
    rw [hresult, he]
  | ok a =>
    have hn := hnext a (hr.result a hresult) (r s).stack hr.stack
    rw [bind_of_ok hresult]
    exact ⟨hn.result, hn.unknown, hn.stack⟩

theorem keeps_push {v : Value} (h : I.value v) : (push v).Keeps I fun _ => True :=
  fun _ hs => keeps_ok trivial (List.forall_mem_cons.mpr ⟨h, hs⟩)

theorem keeps_note (word : String) : (note word).Keeps I fun _ => True :=
  fun _ hs => keeps_ok trivial hs

theorem keeps_emit (mode : Mode) (op line : String) :
    (emit mode op line).Keeps I fun _ => True := by
  intro s hs
  cases mode with
  | effectful => exact keeps_ok trivial hs
  | pure => exact keeps_error (by rintro _ ⟨⟩) hs

theorem keeps_pop (op : String) : (Run.pop op).Keeps I I.value := by
  intro s hs
  cases s with
  | nil => exact keeps_error (by rintro _ ⟨⟩) hs
  | cons v s =>
    obtain ⟨hv, hs⟩ := List.forall_mem_cons.mp hs
    exact keeps_ok hv hs

theorem keeps_need (op : String) (n : Nat) : (need op n).Keeps I fun _ => True := by
  intro s hs
  unfold need
  split
  · exact keeps_error (by rintro _ ⟨⟩) hs
  · exact keeps_ok trivial hs

theorem keeps_popTwo (op : String) :
    (popTwo op).Keeps I fun x => I.value x.1 ∧ I.value x.2 := by
  refine (keeps_need op 2).bind fun _ _ => ?_
  refine (keeps_pop op).bind fun b hb => ?_
  refine (keeps_pop op).bind fun a ha => ?_
  exact keeps_pure ⟨ha, hb⟩

theorem keeps_popAs (op : String) (expected : Expectation) {read : Value → Option α}
    (h : ∀ v a, I.value v → read v = some a → A a) : (popAs op expected read).Keeps I A := by
  refine (keeps_pop op).bind fun v hv => ?_
  cases hread : read v with
  | some a => exact keeps_pure (h v a hv hread)
  | none => exact keeps_fail (by rintro _ ⟨⟩)

theorem keeps_popPlain (op : String) : (popPlain op).Keeps I fun _ => True :=
  keeps_popAs op _ fun _ _ _ _ => trivial

theorem keeps_popInt (op : String) : (popInt op).Keeps I fun _ => True :=
  keeps_popAs op _ fun _ _ _ _ => trivial

theorem keeps_popBool (op : String) : (popBool op).Keeps I fun _ => True :=
  keeps_popAs op _ fun _ _ _ _ => trivial

theorem keeps_popString (op : String) : (popString op).Keeps I fun _ => True :=
  keeps_popAs op _ fun _ _ _ _ => trivial

theorem keeps_popList (op : String) : (popList op).Keeps I fun items => I.value (.list items) := by
  refine keeps_popAs op _ fun v items hv hread => ?_
  cases v with
  | list items =>
    cases hread
    exact hv
  | literal | quotation => cases hread

theorem keeps_popQuotation (op : String) :
    (popQuotation op).Keeps I fun b => I.value (.quotation b) := by
  refine keeps_popAs op _ fun v b hv hread => ?_
  cases v with
  | quotation b =>
    cases hread
    exact hv
  | literal | list => cases hread

end Run

namespace Primitive

open Run

theorem onInts_keeps (op : String) {f : Int64 → Int64 → Run Literal}
    (h : ∀ a b, (f a b).Keeps I fun _ => True) : (onInts op f).Keeps I fun _ => True := by
  refine (keeps_popInt op).bind fun b _ => ?_
  refine (keeps_popInt op).bind fun a _ => ?_
  exact (h a b).bind fun l _ => keeps_push (I.literal l)

theorem onBools_keeps (op : String) (f : Bool → Bool → Bool) :
    (onBools op f).Keeps I fun _ => True := by
  refine (keeps_popBool op).bind fun b _ => ?_
  refine (keeps_popBool op).bind fun a _ => ?_
  exact keeps_push (I.literal _)

theorem guarded_keeps (op : String) (b : Int64) (l : Literal) :
    Run.Keeps I (fun _ => True) (if b = 0 then fail (.divisionByZero op) else return l) := by
  split
  · exact keeps_fail (by rintro _ ⟨⟩)
  · exact keeps_pure trivial

theorem arg_keeps (op : String) (i : Nat) {items : List Value} (h : I.value (.list items)) :
    Run.Keeps I (fun _ => True)
      (match items[i]? with
        | some v => do
          push v
          push (.list items)
        | none => fail (.indexOutOfRange op i items.length)) := by
  cases hitem : items[i]? with
  | some v =>
    have hv := I.list_iff.mp h v (List.mem_of_getElem? hitem)
    exact (keeps_push hv).bind fun _ _ => keeps_push h
  | none => exact keeps_fail (by rintro _ ⟨⟩)

/-- Built-in words keep up an invariant when running quotations does. -/
theorem exec_keeps (p : Primitive) (mode : Mode) {invoke : Block → Run Unit}
    (hcompose : p = .compose → I.composing)
    (h : ∀ b, I.block b → (invoke b).Keeps I fun _ => True) :
    (p.exec mode invoke).Keeps I fun _ => True := by
  have hrun : ∀ b, I.value (.quotation b) → (invoke b).Keeps I fun _ => True :=
    fun b hb => h b (I.quotation hb)
  cases p with
  | add | sub | mul | lt | gt => exact onInts_keeps _ fun _ _ => keeps_pure trivial
  | div | mod => exact onInts_keeps _ fun _ _ => guarded_keeps _ _ _
  | eq =>
    refine (keeps_need _ 2).bind fun _ _ => ?_
    refine (keeps_popPlain _).bind fun b _ => ?_
    refine (keeps_popPlain _).bind fun a _ => ?_
    exact keeps_push (I.literal _)
  | and | or => exact onBools_keeps _ _
  | not => exact (keeps_popBool _).bind fun a _ => keeps_push (I.literal _)
  | concat =>
    refine (keeps_popString _).bind fun b _ => ?_
    exact (keeps_popString _).bind fun a _ => keeps_push (I.literal _)
  | dup =>
    refine (keeps_pop _).bind fun v hv => ?_
    exact (keeps_push hv).bind fun _ _ => keeps_push hv
  | pop => exact (keeps_pop _).bind fun _ _ => keeps_pure trivial
  | swap =>
    refine (keeps_popTwo _).bind fun x hx => ?_
    exact (keeps_push hx.2).bind fun _ _ => keeps_push hx.1
  | print => exact (keeps_popPlain _).bind fun v _ => keeps_emit mode _ _
  | writeln => exact (keeps_popString _).bind fun line _ => keeps_emit mode _ _
  | apply => exact (keeps_popQuotation _).bind hrun
  | dip =>
    refine (keeps_popQuotation _).bind fun b hb => ?_
    refine (keeps_pop _).bind fun v hv => ?_
    exact (hrun b hb).bind fun _ _ => keeps_push hv
  | choose =>
    refine (keeps_popQuotation _).bind fun b hb => ?_
    refine (keeps_popQuotation _).bind fun a ha => ?_
    refine (keeps_popBool _).bind fun c _ => ?_
    cases c with
    | true => exact hrun a ha
    | false => exact hrun b hb
  | compose =>
    refine (keeps_popQuotation _).bind fun b hb => ?_
    refine (keeps_popQuotation _).bind fun a ha => ?_
    exact keeps_push (I.andThen (hcompose rfl) ha hb)
  | argList => exact keeps_push (I.list_iff.mpr fun _ h => absurd h List.not_mem_nil)
  | swons =>
    refine (keeps_popList _).bind fun items hitems => ?_
    refine (keeps_pop _).bind fun v hv => ?_
    exact keeps_push (I.list_iff.mpr (List.forall_mem_cons.mpr ⟨hv, I.list_iff.mp hitems⟩))
  | embedArgs =>
    refine (keeps_popQuotation _).bind fun b hb => ?_
    refine (keeps_popList _).bind fun items hitems => ?_
    exact (keeps_push (I.capture hitems hb)).bind fun _ _ => keeps_push hitems
  | arg i => exact (keeps_popList _).bind fun items hitems => arg_keeps _ _ hitems

end Primitive

/-- What the instructions of a block do keeps up an invariant on a machine. -/
structure Invariant.Upheld (I : Invariant) (m : Machine) : Prop where
  pushed {b : Block} {i : Instruction} {v : Value} :
    I.block b → i ∈ b → i.pushed? = some v → I.value v
  defined {b : Block} {name : String} {body : Code} :
    I.block b → .run (.word name) ∈ b → m.body? name = some body → I.block (Block.ofCode body)
  unknown {b : Block} {name : String} :
    I.block b → .run (.word name) ∈ b → m.body? name = none → Primitive.ofName? name = none →
      I.unknown name
  composing {b : Block} :
    I.block b → .run Primitive.compose.term ∈ b → m.body? Primitive.compose.name = none →
      I.composing

theorem Machine.runBlock_keeps {m : Machine} (hm : I.Upheld m) (mode : Mode) (calls : Nat)
    {b : Block} (hb : I.block b) : (m.runBlock mode calls b).Keeps I fun _ => True := by
  induction calls using Nat.strongRecOn generalizing b with
  | ind calls ih =>
  have hinvoke : ∀ b, I.block b → (m.invoke mode calls b).Keeps I fun _ => True := by
    intro b hb
    cases calls with
    | zero => exact Run.keeps_fail (by rintro _ ⟨⟩)
    | succ calls => exact ih calls calls.lt_succ_self hb
  suffices hrest : ∀ rest : Block, rest ⊆ b → (m.runBlock mode calls rest).Keeps I fun _ => True by
    exact hrest b fun _ h => h
  intro rest hsubset
  induction rest with
  | nil => exact Run.keeps_pure trivial
  | cons i rest ihrest =>
    obtain ⟨hi, hrest⟩ := List.cons_subset.mp hsubset
    refine Run.Keeps.bind (A := fun _ => True) ?_ fun _ _ => ihrest hrest
    match i with
    | .push v | .run (.literal l) | .run (.quotation body) =>
      exact Run.keeps_push (hm.pushed hb hi rfl)
    | .run (.word name) =>
      cases hbody : m.body? name with
      | some body =>
        simp only [perform, step, hbody]
        exact hinvoke _ (hm.defined hb hi hbody)
      | none =>
        cases hname : Primitive.ofName? name with
        | some p =>
          simp only [perform, step, hbody, hname]
          refine (Run.keeps_note name).bind fun _ _ => p.exec_keeps mode ?_ hinvoke
          rintro rfl
          obtain rfl := Primitive.name_of_ofName? hname
          exact hm.composing hb hi hbody
        | none =>
          simp only [perform, step, hbody, hname]
          refine Run.keeps_fail ?_
          rintro _ ⟨⟩
          exact hm.unknown hb hi hbody hname

end Concatenative
