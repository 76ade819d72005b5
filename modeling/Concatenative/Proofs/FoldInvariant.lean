import Concatenative.Proofs.Folding
import Concatenative.Proofs.Invariant

/-! Invariants of folding. Folding writes terms of the code that it is given and terms of values
that it has computed, so what holds of both, and of a quotation around terms that it holds of, holds
of all terms of the folded code. -/

namespace Concatenative

/-- An invariant of runs carries over to folding: from terms that meet one condition, folding makes
terms that meet another. -/
structure Invariant.CarriesOver (I : Invariant) (m : Machine) (source target : Term → Prop) :
    Prop where
  upheld : I.Upheld m
  block {t : Term} : target t → I.block [.run t]
  written {v : Value} {t : Term} : I.value v → v.toTerm? = some t → target t
  word {name : String} : source (.word name) → target (.word name)
  literal (l : Literal) : target (.literal l)
  body {body : Code} : source (.quotation body) → ∀ t ∈ body, source t
  folded {body : Code} :
    (∀ t ∈ (m.fold body).value, target t) → target (.quotation (m.fold body).value)

/-- The values and the code of a segment are as they should be. -/
structure Segment.Kept (I : Invariant) (target : Term → Prop) (s : Segment) : Prop where
  stack : ∀ v ∈ s.stack, I.value v
  code : ∀ t ∈ s.code, target t

variable {I : Invariant} {m : Machine} {source target : Term → Prop}

theorem Segment.kept_start : Segment.Kept I target {} :=
  ⟨fun _ h => absurd h List.not_mem_nil, fun _ h => absurd h List.not_mem_nil⟩

theorem Stack.exists_of_mem_toCode? {s : Stack} {c : Code} (h : s.toCode? = some c) :
    ∀ t ∈ c, ∃ v ∈ s, v.toTerm? = some t := by
  induction s generalizing c with
  | nil =>
    cases h
    simp
  | cons v s ih =>
    obtain ⟨c', t', hc', ht', rfl⟩ := Stack.toCode?_cons_eq_some.mp h
    intro t ht
    rcases List.mem_append.mp ht with ht | ht
    · obtain ⟨v', hv', hterm⟩ := ih hc' t ht
      exact ⟨v', List.mem_cons_of_mem v hv', hterm⟩
    · obtain rfl := List.mem_singleton.mp ht
      exact ⟨v, List.mem_cons_self, ht'⟩

namespace Invariant.CarriesOver

theorem attempt (h : I.CarriesOver m source target) {t : Term} {s stack : Stack} (ht : target t)
    (hs : ∀ v ∈ s, I.value v) (hattempt : (m.attempt t s).value = .ok stack) :
    ∀ v ∈ stack, I.value v := by
  obtain ⟨-, hstack⟩ := Machine.runBlock_of_attempt hattempt
  rw [← hstack]
  exact (Machine.runBlock_keeps h.upheld .pure m.limit (h.block ht) s hs).stack

theorem extend (h : I.CarriesOver m source target) {s : Segment} (hs : s.Kept I target) {t : Term}
    {stack : Stack} (ht : target t) (hattempt : (m.attempt t s.stack).value = .ok stack) :
    (s.extend t stack).Kept I target := by
  have hstack := h.attempt ht hs.stack hattempt
  refine ⟨by rwa [Segment.extend_stack], ?_⟩
  unfold Segment.extend
  cases hcode : stack.toCode? with
  | some c =>
    intro t ht
    rw [Segment.code, List.append_nil] at ht
    obtain ⟨v, hv, hterm⟩ := Stack.exists_of_mem_toCode? hcode t ht
    exact h.written (hstack v hv) hterm
  | none =>
    show ∀ t' ∈ s.folded ++ (s.pending ++ [t]), target t'
    rw [← List.append_assoc]
    exact List.forall_mem_append.mpr ⟨hs.code, List.forall_mem_singleton.mpr ht⟩

mutual

theorem foldTerm (h : I.CarriesOver m source target) : ∀ t : Term, source t →
    target (m.foldTerm t).value
  | .word _, ht => h.word ht
  | .literal l, _ => h.literal l
  | .quotation body, ht => by
    rw [Machine.foldTerm_quotation]
    exact h.folded (foldFrom h body Segment.kept_start (h.body ht))

theorem foldFrom (h : I.CarriesOver m source target) : ∀ (ts : Code) {s : Segment},
    s.Kept I target → (∀ t ∈ ts, source t) → ∀ t ∈ (m.foldFrom s ts).value, target t
  | [], s, hs, _ => by
    rw [Machine.foldFrom_nil]
    exact hs.code
  | t :: ts, s, hs, hts => by
    obtain ⟨ht, hts⟩ := List.forall_mem_cons.mp hts
    have hterm := foldTerm h t ht
    cases hattempt : (m.attempt (m.foldTerm t).value s.stack).value with
    | ok stack =>
      rw [Machine.foldFrom_cons_ok ts hattempt]
      exact foldFrom h ts (h.extend hs hterm hattempt) hts
    | error fault =>
      have hrest := foldFrom h ts Segment.kept_start hts
      rw [Machine.foldFrom_cons_error ts hattempt]
      exact List.forall_mem_append.mpr ⟨hs.code, List.forall_mem_cons.mpr ⟨hterm, hrest⟩⟩

end

end Invariant.CarriesOver

end Concatenative
