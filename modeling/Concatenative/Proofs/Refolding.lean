import Concatenative.Proofs.Folding

/-! Folding folded code. A second pass runs the same terms on stacks that differ only in how blocks
push their values, so it stops where the first one stopped and writes the same code, except that it
also folds the quotations that the first pass built. -/

namespace Concatenative

namespace Machine

variable {m : Machine}

theorem attempt_sameResult (t : Term) {s s' : Stack} (hs : s.Similar s') :
    SameResult Stack.Similar (m.attempt t s).value (m.attempt t s').value := by
  have hm := runBlock_matches m .pure m.limit [.run t] hs
  rw [attempt_eq, attempt_eq]
  cases m.refusal? t with
  | some fault => exact .error fault
  | none =>
    have hresult := hm.result.eq
    dsimp only
    rw [hresult]
    split
    · exact .ok hm.stack
    · exact .error _

theorem attempt_pushed {t : Term} {v : Value} (h : (Instruction.run t).pushed? = some v)
    (s : Stack) : (m.attempt t s).value = .ok (v :: s) := by
  match t with
  | .literal _ | .quotation _ =>
    cases h
    rfl
  | .word _ => cases h

end Machine

namespace Segment

variable {m : Machine} {c : Code} {s : Segment}

/-- The code of a stack is run ahead of time as a whole, and leaves a similar stack. -/
theorem reached_of_toCode? {stack : Stack} (h : stack.toCode? = some c) :
    ∃ stack', Reached m c ⟨stack', c, []⟩ ∧ stack.Similar stack' := by
  induction stack generalizing c with
  | nil =>
    cases h
    exact ⟨[], .start, .base⟩
  | cons v stack ih =>
    have hcode := h
    obtain ⟨c', t, hc', ht, rfl⟩ := Stack.toCode?_cons_eq_some.mp h
    obtain ⟨stack', hreached, hstack⟩ := ih hc'
    obtain ⟨v', hv', hrewritten⟩ := Value.rewritten_of_toTerm? ht
    have hstack' : Stack.Similar (v :: stack) (v' :: stack') := .cons hrewritten hstack
    refine ⟨v' :: stack', ?_, hstack'⟩
    have hstep := hreached.step (Machine.attempt_pushed hv' stack')
    rw [extend, Stack.toCode?_eq_of_similar hstack', hcode] at hstep
    exact hstep

/-- The code of a segment, run ahead of time, leads to the segment again, with a similar stack. -/
theorem Reached.retrace (h : Reached m c s) :
    ∃ stack, Reached m s.code { s with stack := stack } ∧ s.stack.Similar stack := by
  induction h with
  | start => exact ⟨[], .start, .base⟩
  | @step c s t stack _ hattempt ih =>
    obtain ⟨before, hreached, hbefore⟩ := ih
    cases hcode : stack.toCode? with
    | some code =>
      obtain ⟨stack', hreached', hstack'⟩ := reached_of_toCode? (m := m) hcode
      refine ⟨stack', ?_, by simpa using hstack'⟩
      simpa [extend, hcode, Segment.code] using hreached'
    | none =>
      have hsame := m.attempt_sameResult t hbefore
      rw [hattempt] at hsame
      obtain ⟨stack', hattempt', hstack'⟩ := hsame.of_ok
      have hcode' : stack'.toCode? = none := (Stack.toCode?_eq_of_similar hstack').trans hcode
      refine ⟨stack', ?_, by simpa using hstack'⟩
      simpa [extend, hcode, hcode', Segment.code] using hreached.step hattempt'

/-- A second pass over the terms of a segment leads to that segment. -/
theorem Reached.foldFrom_append (h : Reached m c s)
    (hfixed : ∀ t ∈ c, (m.foldTerm t).value = t) (rest : Code) :
    (m.foldFrom {} (c ++ rest)).value = (m.foldFrom s rest).value := by
  induction h generalizing rest with
  | start => rfl
  | @step c s t stack _ hattempt ih =>
    have ht : (m.foldTerm t).value = t := hfixed t (by simp)
    rw [List.append_assoc, ih (fun t ht => hfixed t (by simp [ht]))]
    rw [List.singleton_append, Machine.foldFrom_cons_ok rest (by rw [ht, hattempt]), ht]

end Segment

namespace Machine

/-- A second pass changes nothing if it changes no term for itself. -/
theorem foldFrom_foldFrom (m : Machine) : ∀ (ts : Code) {c : Code} {s : Segment},
    Segment.Reached m c s → (∀ t ∈ (m.foldFrom s ts).value, (m.foldTerm t).value = t) →
    (m.foldFrom {} (m.foldFrom s ts).value).value = (m.foldFrom s ts).value
  | [], c, s, hs, hfixed => by
    obtain ⟨stack, hagain, _⟩ := hs.retrace
    have hpass := hagain.foldFrom_append hfixed []
    rw [List.append_nil] at hpass
    exact hpass
  | t :: ts, c, s, hs, hfixed => by
    cases hattempt : (m.attempt (m.foldTerm t).value s.stack).value with
    | ok stack =>
      rw [foldFrom_cons_ok ts hattempt] at hfixed ⊢
      exact foldFrom_foldFrom m ts (hs.step hattempt) hfixed
    | error fault =>
      rw [foldFrom_cons_error ts hattempt] at hfixed ⊢
      obtain ⟨stack, hagain, hstack⟩ := hs.retrace
      have hterm : (m.foldTerm (m.foldTerm t).value).value = (m.foldTerm t).value :=
        hfixed _ (by simp)
      have hrest := foldFrom_foldFrom m ts .start fun t ht => hfixed t (by simp [ht])
      have hsame := m.attempt_sameResult (m.foldTerm t).value hstack
      rw [hattempt] at hsame
      rw [hagain.foldFrom_append (fun t ht => hfixed t (by simp [ht])),
        foldFrom_cons_error _ (by rw [hterm, hsame.of_error]), hterm, hrest]
      rfl

end Machine

def Term.isWord : Term → Bool
  | .word _ => true
  | _ => false

/-- How many words code calls, those in its quotations apart. -/
def Code.wordCount (c : Code) : Nat := c.countP Term.isWord

theorem Code.wordCount_append (c c' : Code) :
    Code.wordCount (c ++ c') = Code.wordCount c + Code.wordCount c' :=
  List.countP_append

theorem Code.wordCount_cons (t : Term) (c : Code) :
    Code.wordCount (t :: c) = Code.wordCount [t] + Code.wordCount c :=
  Code.wordCount_append [t] c

theorem Stack.wordCount_of_toCode? {s : Stack} {c : Code} (h : s.toCode? = some c) :
    c.wordCount = 0 := by
  induction s generalizing c with
  | nil =>
    cases h
    rfl
  | cons v s ih =>
    obtain ⟨c', t, hc', ht, rfl⟩ := Stack.toCode?_cons_eq_some.mp h
    obtain ⟨v', hv', _⟩ : ∃ v', (Instruction.run t).pushed? = some v' ∧
        Value.Rewritten .none v v' := Value.rewritten_of_toTerm? ht
    rw [Code.wordCount_append, ih hc']
    cases t with
    | word name => cases hv'
    | literal l => rfl
    | quotation body => rfl

namespace Segment

variable {m : Machine} {s : Segment}

/-- If the stack of the segment has code, then that is the code of the segment. -/
def UpToDate (s : Segment) : Prop := ∀ c, s.stack.toCode? = some c → s.code = c

theorem upToDate_start : ({} : Segment).UpToDate := by
  intro c h
  cases h
  rfl

theorem upToDate_extend (s : Segment) (t : Term) (stack : Stack) :
    (s.extend t stack).UpToDate := by
  intro c h
  rw [extend_stack] at h
  simp [extend, h, Segment.code]

/-- A further term is added to the code, or the code that is written instead has fewer words. -/
theorem extend_code (hs : s.UpToDate) {t : Term} {stack : Stack}
    (h : (m.attempt t s.stack).value = .ok stack) :
    (s.extend t stack).code = s.code ++ [t] ∨
      (s.extend t stack).code.wordCount < s.code.wordCount + Code.wordCount [t] := by
  cases hcode : stack.toCode? with
  | none =>
    left
    simp [extend, hcode, Segment.code]
  | some c =>
    have hc : (s.extend t stack).code = c := by simp [extend, hcode, Segment.code]
    rw [hc]
    cases hpushed : (Instruction.run t).pushed? with
    | none =>
      right
      have ht : Code.wordCount [t] = 1 := by
        cases t with
        | word name => rfl
        | literal l => cases hpushed
        | quotation body => cases hpushed
      rw [Stack.wordCount_of_toCode? hcode, ht]
      omega
    | some v =>
      left
      rw [Machine.attempt_pushed hpushed] at h
      cases h
      obtain ⟨c', t', hc', ht', rfl⟩ := Stack.toCode?_cons_eq_some.mp hcode
      rw [← Instruction.toTerm?_of_pushed hpushed] at ht'
      cases ht'
      rw [hs c' hc']

end Segment

namespace Machine

variable {m : Machine}

theorem wordCount_foldTerm (t : Term) :
    Code.wordCount [(m.foldTerm t).value] = Code.wordCount [t] := by
  cases t with
  | word name => rfl
  | literal l => rfl
  | quotation body =>
    rw [foldTerm_quotation]
    rfl

theorem wordCount_map_foldTerm (c : Code) :
    Code.wordCount (c.map fun t => (m.foldTerm t).value) = c.wordCount := by
  induction c with
  | nil => rfl
  | cons t c ih =>
    rw [List.map_cons, Code.wordCount_cons, wordCount_foldTerm, ih, ← Code.wordCount_cons]

/-- Folding leaves every term in its place, or it removes words. -/
theorem foldFrom_map_or_wordCount_lt (ts : Code) {s : Segment} (hs : s.UpToDate) :
    (m.foldFrom s ts).value = s.code ++ ts.map (fun t => (m.foldTerm t).value) ∨
      Code.wordCount (m.foldFrom s ts).value < s.code.wordCount + ts.wordCount := by
  induction ts generalizing s with
  | nil =>
    left
    rw [foldFrom_nil, List.map_nil, List.append_nil]
  | cons t ts ih =>
    rw [List.map_cons, Code.wordCount_cons t ts]
    have hterm := wordCount_foldTerm (m := m) t
    cases hattempt : (m.attempt (m.foldTerm t).value s.stack).value with
    | ok stack =>
      rw [foldFrom_cons_ok ts hattempt]
      have hrest := ih (s.upToDate_extend (m.foldTerm t).value stack)
      have hmap := wordCount_map_foldTerm (m := m) ts
      rcases Segment.extend_code hs hattempt with hcode | hcode
      · rw [hcode, Code.wordCount_append, hterm] at hrest
        rcases hrest with hrest | hrest
        · left
          rw [hrest, List.append_assoc, List.singleton_append]
        · right
          omega
      · right
        rcases hrest with hrest | hrest
        · rw [hrest, Code.wordCount_append, hmap]
          omega
        · omega
    | error fault =>
      rw [foldFrom_cons_error ts hattempt]
      rcases ih Segment.upToDate_start with hrest | hrest
      · left
        rw [hrest]
        rfl
      · right
        have hstart : Code.wordCount ({} : Segment).code = 0 := rfl
        rw [Code.wordCount_append, Code.wordCount_cons]
        omega

/-- Code that folding does not change has terms that it does not change. -/
theorem foldTerm_eq_of_fold_eq {c : Code} (h : (m.fold c).value = c) :
    ∀ t ∈ c, (m.foldTerm t).value = t := by
  have hstart : Code.wordCount ({} : Segment).code = 0 := rfl
  have hmap : c.map (fun t => (m.foldTerm t).value) = c.map id := by
    rcases foldFrom_map_or_wordCount_lt (m := m) c Segment.upToDate_start with hc | hc
    · exact hc.symm.trans (h.trans c.map_id.symm)
    · rw [← fold, h] at hc
      omega
  exact List.map_inj_left.mp hmap

/-- A second pass changes nothing exactly if every quotation in the folded code is folded. -/
theorem fold_fold_eq_iff (m : Machine) (c : Code) :
    (m.fold (m.fold c).value).value = (m.fold c).value ↔
      ∀ body, .quotation body ∈ (m.fold c).value → (m.fold body).value = body := by
  constructor
  · intro h body hbody
    have hterm := foldTerm_eq_of_fold_eq h _ hbody
    rw [foldTerm_quotation] at hterm
    exact Term.quotation.inj hterm
  · intro h
    refine foldFrom_foldFrom m c .start fun t ht => ?_
    cases t with
    | word name => rfl
    | literal l => rfl
    | quotation body => rw [foldTerm_quotation, h body ht]

/-- Not every code is left alone by a second pass: only that one folds a quotation that was composed
from two. -/
theorem exists_fold_fold_ne : ¬∀ (m : Machine) (c : Code),
    (m.fold (m.fold c).value).value = (m.fold c).value := by
  intro h
  have hcomposed := h {} [.quotation [.literal (.int 1)],
    .quotation [.literal (.int 2), Primitive.add.term], Primitive.compose.term]
  revert hcomposed
  decide

end Machine

end Concatenative
