import Concatenative.Fold
import Concatenative.Proofs.Laws
import Concatenative.Proofs.Reification

/-! Folded code does what the code did. The terms of a segment were run on the empty stack, so the
first law of the machine lets the code of the segment stand in for them, and folding is one more way
to rewrite a block. -/

namespace Concatenative

namespace Machine

variable {m : Machine}

theorem attempt_eq (t : Term) (s : Stack) :
    (m.attempt t s).value =
      match m.refusal? t with
      | some fault => .error fault
      | none =>
        match (m.runBlock .pure m.limit [.run t] s).result with
        | .ok () => .ok (m.runBlock .pure m.limit [.run t] s).stack
        | .error e => .error e.fault := by
  have hrun : m.runBlock .pure m.limit [.run t] = m.evalTerm .pure m.limit t := bind_pure_unit
  rw [hrun]
  unfold attempt execute
  cases m.refusal? t with
  | some fault => rfl
  | none =>
    dsimp only
    split <;> simp_all

theorem runBlock_of_attempt {t : Term} {s stack : Stack}
    (h : (m.attempt t s).value = .ok stack) :
    (m.runBlock .pure m.limit [.run t] s).result = .ok () ∧
      (m.runBlock .pure m.limit [.run t] s).stack = stack := by
  rw [attempt_eq] at h
  split at h
  · cases h
  · split at h
    · next hok =>
      cases h
      exact ⟨hok, rfl⟩
    · cases h

theorem foldFrom_nil (s : Segment) : (m.foldFrom s []).value = s.code := rfl

theorem foldFrom_cons_ok {s : Segment} {t : Term} {stack : Stack} (ts : Code)
    (h : (m.attempt (m.foldTerm t).value s.stack).value = .ok stack) :
    (m.foldFrom s (t :: ts)).value =
      (m.foldFrom (s.extend (m.foldTerm t).value stack) ts).value := by
  simp only [foldFrom, bind, Logged.bind]
  rw [h]

theorem foldFrom_cons_error {s : Segment} {t : Term} {fault : Fault} (ts : Code)
    (h : (m.attempt (m.foldTerm t).value s.stack).value = .error fault) :
    (m.foldFrom s (t :: ts)).value =
      s.code ++ (m.foldTerm t).value :: (m.foldFrom {} ts).value := by
  simp only [foldFrom, bind, Logged.bind]
  rw [h]
  rfl

theorem foldTerm_quotation (body : Code) :
    (m.foldTerm (.quotation body)).value = .quotation (m.fold body).value := by
  simp only [foldTerm, fold, bind, Logged.bind]
  rfl

end Machine

/-- The segments that folding passes through, each with the terms that have been run since folding
last started. -/
inductive Segment.Reached (m : Machine) : Code → Segment → Prop
  | start : Segment.Reached m [] {}
  | step {c : Code} {s : Segment} {t : Term} {stack : Stack} : Segment.Reached m c s →
    (m.attempt t s.stack).value = .ok stack → Segment.Reached m (c ++ [t]) (s.extend t stack)

namespace Segment

variable {m : Machine} {c : Code} {s : Segment}

@[simp] theorem extend_stack (s : Segment) (t : Term) (stack : Stack) :
    (s.extend t stack).stack = stack := by
  unfold extend
  split <;> rfl

/-- The stack of a segment is the one that its terms leave. -/
theorem Reached.runs (h : Reached m c s) :
    (m.runBlock .pure m.limit (Block.ofCode c) []).result = .ok () ∧
      (m.runBlock .pure m.limit (Block.ofCode c) []).stack = s.stack := by
  induction h with
  | start => exact ⟨rfl, rfl⟩
  | step _ hattempt ih =>
    obtain ⟨hresult, hstack⟩ := ih
    obtain ⟨hresult', hstack'⟩ := Machine.runBlock_of_attempt hattempt
    rw [Block.ofCode_append, Machine.runBlock_append, Run.bind_of_ok hresult, hstack, extend_stack]
    exact ⟨hresult', hstack'⟩

/-- The terms that are pending came after a segment whose stack has the folded code. -/
theorem Reached.folded (h : Reached m c s) :
    ∃ before s', c = before ++ s.pending ∧ Reached m before s' ∧
      s'.stack.toCode? = some s.folded := by
  induction h with
  | start => exact ⟨[], {}, rfl, .start, rfl⟩
  | @step c s t stack hs hattempt ih =>
    cases hcode : stack.toCode? with
    | some code =>
      refine ⟨c ++ [t], s.extend t stack, ?_, .step hs hattempt, ?_⟩
      · simp [extend, hcode]
      · simp [extend, hcode]
    | none =>
      obtain ⟨before, s', rfl, hs', hfolded⟩ := ih
      refine ⟨before, s', ?_, hs', ?_⟩
      · simp [extend, hcode]
      · simp [extend, hcode, hfolded]

/-- The code of a segment stands in for its terms. -/
theorem Reached.rewritten (h : Reached m c s) :
    Block.Rewritten m.Law (Block.ofCode c) (Block.ofCode s.code) := by
  obtain ⟨before, s', rfl, hs', hfolded⟩ := h.folded
  obtain ⟨hresult, hstack⟩ := hs'.runs
  have hpushes := Block.Rewritten.of_rule (Machine.Law.evaluate hresult)
  rw [hstack] at hpushes
  rw [Segment.code, Block.ofCode_append, Block.ofCode_append]
  exact (hpushes.trans (Stack.rewritten_of_toCode? hfolded)).append (Block.rewritten_refl _)

end Segment

namespace Machine

mutual

theorem foldTerm_rewritten (m : Machine) : ∀ t : Term,
    Block.Rewritten m.Law [.run t] [.run (m.foldTerm t).value]
  | .word name => Block.rewritten_refl [.run (.word name)]
  | .literal l => Block.rewritten_refl [.run (.literal l)]
  | .quotation body => by
    rw [foldTerm_quotation]
    exact .pushed rfl rfl (.quotation (foldFrom_rewritten m body .start)) .nil

/-- What a segment and the code behind it fold to stands in for the terms of the segment and that
code. -/
theorem foldFrom_rewritten (m : Machine) : ∀ (ts : Code) {before : Code} {s : Segment},
    Segment.Reached m before s →
    Block.Rewritten m.Law (Block.ofCode (before ++ ts)) (Block.ofCode (m.foldFrom s ts).value)
  | [], before, s, hs => by
    rw [List.append_nil, foldFrom_nil]
    exact hs.rewritten
  | t :: ts, before, s, hs => by
    have hterm := foldTerm_rewritten m t
    have hrest : Block.Rewritten m.Law (Block.ofCode ts) (Block.ofCode ts) := Block.rewritten_refl _
    cases hattempt : (m.attempt (m.foldTerm t).value s.stack).value with
    | ok stack =>
      rw [foldFrom_cons_ok ts hattempt]
      refine Block.Rewritten.trans ?_ (foldFrom_rewritten m ts (.step hs hattempt))
      rw [Block.ofCode_append, Block.ofCode_append, Block.ofCode_append, List.append_assoc]
      exact (Block.rewritten_refl _).append (hterm.append hrest)
    | error fault =>
      rw [foldFrom_cons_error ts hattempt, Block.ofCode_append, Block.ofCode_append]
      exact hs.rewritten.append (hterm.append (foldFrom_rewritten m ts .start))

end

theorem fold_rewritten (m : Machine) (c : Code) :
    Block.Rewritten m.Law (Block.ofCode c) (Block.ofCode (m.fold c).value) :=
  foldFrom_rewritten m c .start

/-- Folded code can replace the original in front of any code and on any stack. A run that is not
cut off ends in the same way, with the same output and with the same stack up to the bodies of
quotations. -/
theorem run_fold_append (m : Machine) (c rest : Code) (s : Stack)
    (h : ¬ (m.run .effectful (c ++ rest) s).Exceeded) :
    (m.run .effectful (c ++ rest) s).Alike
      (m.run .effectful ((m.fold c).value ++ rest) s) := by
  rw [run_eq_runBlock] at h ⊢
  rw [run_eq_runBlock]
  have hcode : Block.Rewritten m.Law (Block.ofCode (c ++ rest))
      (Block.ofCode ((m.fold c).value ++ rest)) := by
    rw [Block.ofCode_append, Block.ofCode_append]
    exact (fold_rewritten m c).append (Block.rewritten_refl _)
  exact alike_of_rewritten rfl (wordsCorrespond_refl m) hcode .effectful m.limit s h

/-- A machine that knows one word, which doubles a number. -/
def doubling : Machine where
  words := [("double", [Primitive.dup.term, Primitive.add.term])]

/-- Leaves a quotation that prints twice what it computes, and prints a number. -/
def printing : Code :=
  [.literal (.int 3), .word "double",
    .quotation [.literal (.int 1), .word "double", Primitive.print.term],
    Primitive.dup.term, Primitive.compose.term, Primitive.swap.term, Primitive.print.term]

theorem run_fold_append_printing :
    ¬ (doubling.run .effectful (printing ++ [Primitive.apply.term]) [.list []]).Exceeded ∧
      (doubling.run .effectful (printing ++ [Primitive.apply.term]) [.list []]).lines =
        ["6", "2", "2"] ∧
      (doubling.run .effectful (printing ++ [Primitive.apply.term]) [.list []]).Alike
        (doubling.run .effectful ((doubling.fold printing).value ++ [Primitive.apply.term])
          [.list []]) := by
  have h : ¬ (doubling.run .effectful (printing ++ [Primitive.apply.term]) [.list []]).Exceeded :=
    Outcome.not_exceeded_of_ok rfl
  exact ⟨h, rfl, run_fold_append doubling printing _ _ h⟩

end Machine

end Concatenative
