import Concatenative.Machine.Basic
import Mathlib.Data.List.Forall2

/-! Two runs side by side: when the second of them follows the first. The values of the two runs
correspond, the second stack may go on below the first one, and some failures of the first run
excuse the second from following it. Built-in words keep up every such comparison. -/

namespace Concatenative

/-- Which values and blocks of two runs correspond. A quotation corresponds to quotations only, and
otherwise a value is determined by what it corresponds to. -/
structure Correspondence where
  value : Value → Value → Prop
  block : Block → Block → Prop
  literal_iff {l : Literal} {v : Value} : value (.literal l) v ↔ v = .literal l
  list_iff {items : List Value} {v : Value} :
    value (.list items) v ↔ ∃ items', v = .list items' ∧ List.Forall₂ value items items'
  quotation_iff {b : Block} {v : Value} :
    value (.quotation b) v ↔ ∃ b', v = .quotation b' ∧ block b b'
  capture {v v' : Value} {b b' : Block} :
    value v v' → block b b' → block (b.capture v) (b'.capture v')
  andThen {a a' b b' : Block} : block a a' → block b b' → block (a.andThen b) (a'.andThen b')

/-- How two runs are compared: the modes that they are run in, what the second has below the stack
of the first, and the failures of the first that excuse the second. -/
structure Comparison where
  mode : Mode
  mode' : Mode
  base : Stack := []
  excused : RunError → Prop
  underflow : base = [] ∨ ∀ op, excused (.stackUnderflow op)
  effects : mode = mode' ∨ mode = .pure ∧ ∀ op, excused (.sideEffect op)

/-- The values of the second stack correspond to those of the first, down to the base. -/
inductive Correspondence.Stacks (K : Correspondence) (base : Stack) : Stack → Stack → Prop
  | base : K.Stacks base [] base
  | cons {v v' : Value} {s s' : Stack} : K.value v v' → K.Stacks base s s' →
    K.Stacks base (v :: s) (v' :: s')

/-- Two results that are the same failure, or values that are related. -/
inductive SameResult {ε α β : Type} (A : α → β → Prop) : Except ε α → Except ε β → Prop
  | error (e : ε) : SameResult A (.error e) (.error e)
  | ok {a : α} {a' : β} : A a a' → SameResult A (.ok a) (.ok a')

namespace SameResult

theorem eq {ε α : Type} {x x' : Except ε α} (h : SameResult Eq x x') : x' = x := by
  cases h with
  | error e => rfl
  | ok h => rw [h]

variable {ε α β : Type} {A : α → β → Prop} {x : Except ε β}

theorem of_ok {a : α} (h : SameResult A (.ok a) x) : ∃ a', x = .ok a' ∧ A a a' := by
  cases h with
  | ok ha => exact ⟨_, rfl, ha⟩

theorem of_error {e : ε} (h : SameResult A (.error e) x) : x = .error e := by
  cases h with
  | error => rfl

end SameResult

namespace Outcome

variable {α β : Type}

/-- Two runs ended in the same way. -/
structure Matches (K : Correspondence) (C : Comparison) (A : α → β → Prop) (o : Outcome α)
    (o' : Outcome β) : Prop where
  result : SameResult A o.result o'.result
  stack : K.Stacks C.base o.stack o'.stack
  lines : o'.lines = o.lines
  quiet : C.mode = .pure → o.lines = []

/-- The second run ended as the first did, or is excused. -/
def Follows (K : Correspondence) (C : Comparison) (A : α → β → Prop) (o : Outcome α)
    (o' : Outcome β) : Prop :=
  (∃ e, o.result = .error e ∧ C.excused e) ∨ Matches K C A o o'

theorem Follows.matches_of_ok {K : Correspondence} {C : Comparison} {A : α → β → Prop}
    {o : Outcome α} {o' : Outcome β} {a : α} (h : o.Follows K C A o') (hok : o.result = .ok a) :
    o.Matches K C A o' := by
  rcases h with ⟨e, he, _⟩ | h
  · rw [he] at hok
    cases hok
  · exact h

/-- An outcome without the record of the built-in words that were called. -/
def untraced (o : Outcome α) : Outcome α := { o with calls := [] }

/-- Whether a run is followed does not depend on the record of its calls. -/
theorem follows_of_untraced {K : Correspondence} {C : Comparison} {A : α → β → Prop}
    {o₁ o₂ : Outcome α} {o' : Outcome β} (h : o₁.untraced = o₂.untraced)
    (hfollows : o₂.Follows K C A o') : o₁.Follows K C A o' := by
  have hresult : o₁.result = o₂.result :=
    show o₁.untraced.result = o₂.untraced.result by rw [h]
  have hstack : o₁.stack = o₂.stack :=
    show o₁.untraced.stack = o₂.untraced.stack by rw [h]
  have hlines : o₁.lines = o₂.lines :=
    show o₁.untraced.lines = o₂.untraced.lines by rw [h]
  rcases hfollows with ⟨e, he, hexcused⟩ | hm
  · exact .inl ⟨e, hresult.trans he, hexcused⟩
  · refine .inr ⟨?_, ?_, ?_, ?_⟩
    · rw [hresult]
      exact hm.result
    · rw [hstack]
      exact hm.stack
    · rw [hlines]
      exact hm.lines
    · rw [hlines]
      exact hm.quiet

end Outcome

/-- On corresponding stacks the second computation follows the first. -/
def Run.Follows {α β : Type} (K : Correspondence) (C : Comparison) (A : α → β → Prop) (r : Run α)
    (r' : Run β) : Prop :=
  ∀ s s', K.Stacks C.base s s' → (r s).Follows K C A (r' s')

namespace Correspondence

variable {K : Correspondence}

theorem Stacks.length {base s s' : Stack} (h : K.Stacks base s s') :
    s'.length = s.length + base.length := by
  induction h with
  | base => simp
  | cons _ _ ih =>
    simp only [List.length_cons, ih]
    omega

theorem Stacks.append_left {base s s' : Stack} (hrefl : ∀ v, K.value v v)
    (h : K.Stacks base s s') (t : Stack) : K.Stacks base (t ++ s) (t ++ s') := by
  induction t with
  | nil => exact h
  | cons v t ih => exact .cons (hrefl v) ih

theorem tag_eq {v v' : Value} (h : K.value v v') : v'.tag = v.tag := by
  cases v with
  | literal l => rw [K.literal_iff.mp h]
  | list items =>
    obtain ⟨items', rfl, _⟩ := K.list_iff.mp h
    rfl
  | quotation b =>
    obtain ⟨b', rfl, _⟩ := K.quotation_iff.mp h
    rfl

mutual

theorem hasQuotation_eq : ∀ {v v' : Value}, K.value v v' → v'.hasQuotation = v.hasQuotation
  | .literal _, _, h => by rw [K.literal_iff.mp h]
  | .list items, _, h => by
    obtain ⟨items', rfl, hitems⟩ := K.list_iff.mp h
    simp only [Value.hasQuotation]
    exact anyQuotation_eq hitems
  | .quotation _, _, h => by
    obtain ⟨b', rfl, _⟩ := K.quotation_iff.mp h
    rfl

theorem anyQuotation_eq : ∀ {vs vs' : List Value}, List.Forall₂ K.value vs vs' →
    Value.anyQuotation vs' = Value.anyQuotation vs
  | [], _, .nil => rfl
  | v :: vs, _, .cons h hs => by
    simp only [Value.anyQuotation]
    rw [hasQuotation_eq h, anyQuotation_eq hs]

end

mutual

/-- Values without quotations correspond to nothing but themselves. -/
theorem eq_of_plain : ∀ {v v' : Value}, K.value v v' → v.hasQuotation = false → v' = v
  | .literal _, _, h, _ => K.literal_iff.mp h
  | .list items, _, h, hplain => by
    obtain ⟨items', rfl, hitems⟩ := K.list_iff.mp h
    simp only [Value.hasQuotation] at hplain
    rw [eq_of_all_plain hitems hplain]
  | .quotation _, _, _, hplain => by simp [Value.hasQuotation] at hplain

theorem eq_of_all_plain : ∀ {vs vs' : List Value}, List.Forall₂ K.value vs vs' →
    Value.anyQuotation vs = false → vs' = vs
  | [], _, .nil, _ => rfl
  | v :: vs, _, .cons h hs, hplain => by
    simp only [Value.anyQuotation, Bool.or_eq_false_iff] at hplain
    rw [eq_of_plain h hplain.1, eq_of_all_plain hs hplain.2]

end

def same : Correspondence where
  value v v' := v = v'
  block b b' := b = b'
  literal_iff := eq_comm
  list_iff := by
    intro items v
    rw [List.forall₂_eq_eq_eq]
    exact ⟨fun h => ⟨items, h.symm, rfl⟩, fun ⟨items', h, e⟩ => by rw [h, e]⟩
  quotation_iff := by
    intro b v
    exact ⟨fun h => ⟨b, h.symm, rfl⟩, fun ⟨b', h, e⟩ => by rw [h, e]⟩
  capture := by
    rintro v _ b _ rfl rfl
    rfl
  andThen := by
    rintro a _ b _ rfl rfl
    rfl

theorem same_stacks {base s s' : Stack} (h : same.Stacks base s s') : s' = s ++ base := by
  induction h with
  | base => rfl
  | cons hv _ ih =>
    cases hv
    rw [ih]
    rfl

theorem same_stacks_nil {s s' : Stack} (h : same.Stacks [] s s') : s' = s := by
  rw [same_stacks h, List.append_nil]

theorem same_stacks_self (s : Stack) : same.Stacks [] s s := by
  induction s with
  | nil => exact .base
  | cons v s ih => exact .cons rfl ih

end Correspondence

namespace Run

variable {K : Correspondence} {C : Comparison} {α β γ δ : Type} {A : α → β → Prop}
  {B : γ → δ → Prop}

theorem follows_pure {a : α} {a' : β} (h : A a a') :
    Run.Follows K C A (Pure.pure a : Run α) (Pure.pure a' : Run β) :=
  fun _ _ hs => .inr ⟨.ok h, hs, rfl, fun _ => rfl⟩

theorem Follows.bind {r : Run α} {r' : Run β} {next : α → Run γ} {next' : β → Run δ}
    (h : r.Follows K C A r') (hnext : ∀ a a', A a a' → (next a).Follows K C B (next' a')) :
    (r >>= next).Follows K C B (r' >>= next') := by
  intro s s' hs
  rcases h s s' hs with ⟨e, he, hexcused⟩ | ⟨hresult, hstack, hlines, hquiet⟩
  · left
    exact ⟨e, by rw [bind_of_error he], hexcused⟩
  generalize hr : (r s).result = x, hr' : (r' s').result = x' at hresult
  cases hresult with
  | error e =>
    right
    rw [bind_of_error hr, bind_of_error hr']
    exact ⟨.error e, hstack, hlines, hquiet⟩
  | ok ha =>
    rw [bind_of_ok hr, bind_of_ok hr']
    rcases hnext _ _ ha _ _ hstack with ⟨e, he, hexcused⟩ | ⟨hresult2, hstack2, hlines2, hquiet2⟩
    · exact .inl ⟨e, he, hexcused⟩
    · exact .inr ⟨hresult2, hstack2, by simp only [hlines, hlines2],
        fun hmode => by simp only [hquiet hmode, hquiet2 hmode, List.append_nil]⟩

theorem follows_fail (e : RunError) : Run.Follows K C A (fail e : Run α) (fail e : Run β) :=
  fun _ _ hs => .inr ⟨.error e, hs, rfl, fun _ => rfl⟩

theorem follows_push {v v' : Value} (h : K.value v v') : (push v).Follows K C Eq (push v') :=
  fun _ _ hs => .inr ⟨.ok rfl, .cons h hs, rfl, fun _ => rfl⟩

theorem follows_push_literal (l : Literal) :
    (push (.literal l)).Follows K C Eq (push (.literal l)) :=
  follows_push (K.literal_iff.mpr rfl)

theorem follows_note (word : String) : (note word).Follows K C Eq (note word) :=
  fun _ _ hs => .inr ⟨.ok rfl, hs, rfl, fun _ => rfl⟩

/-- Where the modes differ, the first run must not write, and its failure is excused. -/
theorem follows_emit (op line : String) :
    (emit C.mode op line).Follows K C Eq (emit C.mode' op line) := by
  intro s s' hs
  rcases C.effects with hmode | ⟨hmode, hexcused⟩
  · rw [← hmode]
    cases hm : C.mode with
    | effectful => exact .inr ⟨.ok rfl, hs, rfl, fun h => by rw [hm] at h; cases h⟩
    | pure => exact .inr ⟨.error _, hs, rfl, fun _ => rfl⟩
  · rw [hmode]
    exact .inl ⟨_, rfl, hexcused op⟩

theorem follows_pop (op : String) : (Run.pop op).Follows K C K.value (Run.pop op) := by
  intro s s' hs
  cases hs with
  | base =>
    rcases C.underflow with hbase | hexcused
    · rw [hbase]
      exact .inr ⟨.error _, by rw [hbase]; exact .base, rfl, fun _ => rfl⟩
    · exact .inl ⟨_, rfl, hexcused op⟩
  | cons hv hs => exact .inr ⟨.ok hv, hs, rfl, fun _ => rfl⟩

theorem follows_need (op : String) (n : Nat) : (need op n).Follows K C Eq (need op n) := by
  intro s s' hs
  have hlength := hs.length
  unfold need
  by_cases hshort : s.length < n
  · rcases C.underflow with hbase | hexcused
    · rw [hbase, List.length_nil, Nat.add_zero] at hlength
      rw [if_pos hshort, if_pos (by omega)]
      exact .inr ⟨.error _, hs, rfl, fun _ => rfl⟩
    · rw [if_pos hshort]
      exact .inl ⟨_, rfl, hexcused op⟩
  · rw [if_neg hshort, if_neg (by omega)]
    exact .inr ⟨.ok rfl, hs, rfl, fun _ => rfl⟩

theorem follows_popTwo (op : String) :
    (popTwo op).Follows K C (fun x x' => K.value x.1 x'.1 ∧ K.value x.2 x'.2) (popTwo op) := by
  refine (follows_need op 2).bind fun _ _ _ => ?_
  refine (follows_pop op).bind fun _ _ hb => ?_
  refine (follows_pop op).bind fun _ _ ha => ?_
  exact follows_pure ⟨ha, hb⟩

/-- Corresponding values are read alike. -/
def ReadsAlike (K : Correspondence) (A : α → β → Prop) (read : Value → Option α)
    (read' : Value → Option β) : Prop :=
  ∀ v v', K.value v v' → Option.Rel A (read v) (read' v')

theorem follows_popAs (op : String) (expected : Expectation) {read : Value → Option α}
    {read' : Value → Option β} (h : ReadsAlike K A read read') :
    (popAs op expected read).Follows K C A (popAs op expected read') := by
  refine (follows_pop op).bind fun v v' hv => ?_
  rw [K.tag_eq hv]
  have hread := h v v' hv
  generalize read v = x, read' v' = x' at hread
  cases hread with
  | some ha => exact follows_pure ha
  | none => exact follows_fail _

theorem follows_popPlain (op : String) : (popPlain op).Follows K C Eq (popPlain op) := by
  refine follows_popAs op .plain fun v v' hv => ?_
  rw [K.hasQuotation_eq hv]
  by_cases hplain : v.hasQuotation = true
  · rw [if_pos hplain, if_pos hplain]
    exact .none
  · rw [if_neg hplain, if_neg hplain]
    exact .some (K.eq_of_plain hv (by simpa using hplain)).symm

theorem readsAlike_literal {read : Value → Option α} (hlist : ∀ items, read (.list items) = none)
    (hquotation : ∀ b, read (.quotation b) = none) : ReadsAlike K Eq read read := by
  intro v v' hv
  cases v with
  | literal l =>
    rw [K.literal_iff.mp hv]
    cases read (.literal l) with
    | some a => exact .some rfl
    | none => exact .none
  | list items =>
    obtain ⟨items', rfl, _⟩ := K.list_iff.mp hv
    rw [hlist, hlist]
    exact .none
  | quotation b =>
    obtain ⟨b', rfl, _⟩ := K.quotation_iff.mp hv
    rw [hquotation, hquotation]
    exact .none

theorem follows_popInt (op : String) : (popInt op).Follows K C Eq (popInt op) :=
  follows_popAs op _ (readsAlike_literal (fun _ => rfl) fun _ => rfl)

theorem follows_popBool (op : String) : (popBool op).Follows K C Eq (popBool op) :=
  follows_popAs op _ (readsAlike_literal (fun _ => rfl) fun _ => rfl)

theorem follows_popString (op : String) : (popString op).Follows K C Eq (popString op) :=
  follows_popAs op _ (readsAlike_literal (fun _ => rfl) fun _ => rfl)

theorem follows_popList (op : String) :
    (popList op).Follows K C (List.Forall₂ K.value) (popList op) := by
  refine follows_popAs op _ fun v v' hv => ?_
  cases v with
  | literal l =>
    rw [K.literal_iff.mp hv]
    exact .none
  | list items =>
    obtain ⟨items', rfl, hitems⟩ := K.list_iff.mp hv
    exact .some hitems
  | quotation b =>
    obtain ⟨b', rfl, _⟩ := K.quotation_iff.mp hv
    exact .none

theorem follows_popQuotation (op : String) :
    (popQuotation op).Follows K C K.block (popQuotation op) := by
  refine follows_popAs op _ fun v v' hv => ?_
  cases v with
  | literal l =>
    rw [K.literal_iff.mp hv]
    exact .none
  | list items =>
    obtain ⟨items', rfl, _⟩ := K.list_iff.mp hv
    exact .none
  | quotation b =>
    obtain ⟨b', rfl, hb⟩ := K.quotation_iff.mp hv
    exact .some hb

end Run

end Concatenative
