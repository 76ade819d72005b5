import Concatenative.Proofs.Following

/-! Code does the same with more room than it needs. It sees nothing of the stack below the values
that it takes, and the limit on nested calls can only cut it off. -/

namespace Concatenative

/-- The run ended because the stack held too few values. -/
def Outcome.Underflowed {α : Type} (o : Outcome α) : Prop :=
  ∃ op, o.result = .error (.stackUnderflow op)

/-- Compares runs in one mode, of which the second has a further stack below. -/
def Comparison.onTopOf (mode : Mode) (base : Stack) : Comparison where
  mode := mode
  mode' := mode
  base := base
  excused e := ∃ op, e = .stackUnderflow op
  underflow := .inr fun op => ⟨op, rfl⟩
  effects := .inl rfl

theorem Correspondence.same_stacks_append (base s : Stack) : same.Stacks base s (s ++ base) := by
  induction s with
  | nil => exact .base
  | cons v s ih => exact .cons rfl ih

namespace Machine

variable {m : Machine} {mode : Mode} {calls : Nat} {b : Block} {s : Stack}

theorem runBlock_append_stack (base : Stack) (h : ¬ (m.runBlock mode calls b s).Underflowed) :
    (m.runBlock mode calls b (s ++ base)).result = (m.runBlock mode calls b s).result ∧
      (m.runBlock mode calls b (s ++ base)).stack = (m.runBlock mode calls b s).stack ++ base ∧
      (m.runBlock mode calls b (s ++ base)).lines = (m.runBlock mode calls b s).lines := by
  have hdepth : DepthsAllow (.onTopOf mode base) m m calls calls := .inl ⟨rfl, rfl⟩
  have hs := Correspondence.same_stacks_append base s
  rcases runBlock_follows_same rfl hdepth b s (s ++ base) hs with ⟨_, he, op, rfl⟩ | hm
  · exact absurd ⟨op, he⟩ h
  · exact ⟨hm.result.eq, Correspondence.same_stacks hm.stack, hm.lines⟩

/-- Code that finds enough values on the stack does not depend on what lies below them and leaves it
alone, in either mode and however many nested calls are still allowed. This is so of runs that fail,
too, unless they fail because the stack is too short. -/
theorem evalCode_append_stack (m : Machine) (mode : Mode) (calls : Nat) (c : Code)
    (s base : Stack) (h : ¬ (m.evalCode mode calls c s).Underflowed) :
    (m.evalCode mode calls c (s ++ base)).result = (m.evalCode mode calls c s).result ∧
      (m.evalCode mode calls c (s ++ base)).stack = (m.evalCode mode calls c s).stack ++ base ∧
      (m.evalCode mode calls c (s ++ base)).lines = (m.evalCode mode calls c s).lines := by
  rw [evalCode_eq_runBlock] at h ⊢
  exact runBlock_append_stack base h

/-- Shows a number and the numbers below it, down to zero, and adds them up. -/
def summing (limit : Nat) : Machine where
  words := [("sum", [Primitive.dup.term, Primitive.print.term, Primitive.dup.term,
    .literal (.int 0), Primitive.eq.term, .quotation [],
    .quotation [Primitive.dup.term, .literal (.int 1), Primitive.sub.term, .word "sum",
      Primitive.add.term],
    Primitive.choose.term])]
  limit := limit

theorem evalCode_append_stack_summing :
    ¬ ((summing 8).evalCode .effectful 8 [.word "sum"] [.literal (.int 3)]).Underflowed ∧
      ((summing 8).evalCode .effectful 8 [.word "sum"] [.literal (.int 3), .list []]).result =
        .ok () ∧
      ((summing 8).evalCode .effectful 8 [.word "sum"] [.literal (.int 3), .list []]).stack =
        [.literal (.int 6), .list []] ∧
      ¬ ((summing 8).evalCode .effectful 8 [.word "sum"] [.literal (.bool true)]).Underflowed ∧
      ((summing 8).evalCode .effectful 8 [.word "sum"] [.literal (.bool true), .list []]).result =
        .error (.typeMismatch "sub" (.tag .int) .bool) ∧
      ((summing 8).evalCode .effectful 8 [.word "sum"] [.literal (.bool true), .list []]).stack =
        [.literal (.bool true), .list []] ∧
      ((summing 8).evalCode .effectful 8 [.word "sum"] [.literal (.bool true), .list []]).lines =
        ["true"] := by
  have hresult : ((summing 8).evalCode .effectful 8 [.word "sum"] [.literal (.int 3)]).result =
      .ok () := rfl
  have hfailure : ((summing 8).evalCode .effectful 8 [.word "sum"] [.literal (.bool true)]).result =
      .error (.typeMismatch "sub" (.tag .int) .bool) := rfl
  have h : ¬ ((summing 8).evalCode .effectful 8 [.word "sum"] [.literal (.int 3)]).Underflowed := by
    rintro ⟨op, hop⟩
    rw [hresult] at hop
    cases hop
  have h' : ¬ ((summing 8).evalCode .effectful 8 [.word "sum"]
      [.literal (.bool true)]).Underflowed := by
    rintro ⟨op, hop⟩
    rw [hfailure] at hop
    cases hop
  obtain ⟨hr, hs, _⟩ := evalCode_append_stack _ _ _ _ _ [.list []] h
  obtain ⟨hr', hs', hl'⟩ := evalCode_append_stack _ _ _ _ _ [.list []] h'
  exact ⟨h, hr, hs, h', hr', hs', hl'⟩

/-- A run that is not cut off under one limit ends in the same way under every higher limit, from
whatever depth of nesting it starts. -/
theorem evalCode_of_limit_le (m : Machine) (mode : Mode) {limit limit' : Nat}
    (hle : limit ≤ limit') (depth : Nat) (c : Code) (s : Stack)
    (h : ¬ ({ m with limit := limit }.evalCode mode (limit - depth) c s).Exceeded) :
    ({ m with limit := limit' }.evalCode mode (limit' - depth) c s).result =
        ({ m with limit := limit }.evalCode mode (limit - depth) c s).result ∧
      ({ m with limit := limit' }.evalCode mode (limit' - depth) c s).stack =
        ({ m with limit := limit }.evalCode mode (limit - depth) c s).stack ∧
      ({ m with limit := limit' }.evalCode mode (limit' - depth) c s).lines =
        ({ m with limit := limit }.evalCode mode (limit - depth) c s).lines := by
  rw [evalCode_eq_runBlock] at h ⊢
  rw [evalCode_eq_runBlock]
  have hcalls : limit - depth ≤ limit' - depth := by omega
  exact runBlock_of_calls_le rfl hcalls h

theorem evalCode_of_limit_le_summing :
    ¬ ((summing 9).evalCode .effectful 8 [.word "sum"] [.literal (.int 3)]).Exceeded ∧
      ((summing 7).evalCode .effectful 6 [.word "sum"] [.literal (.int 3)]).Exceeded ∧
      ((summing 256).evalCode .effectful 255 [.word "sum"] [.literal (.int 3)]).lines =
        ["3", "2", "1", "0"] ∧
      ((summing 256).evalCode .effectful 255 [.word "sum"] [.literal (.int 3)]).stack =
        [.literal (.int 6)] := by
  have h : ¬ ((summing 9).evalCode .effectful 8 [.word "sum"] [.literal (.int 3)]).Exceeded :=
    Outcome.not_exceeded_of_ok rfl
  have hle : 9 ≤ 256 := by decide
  obtain ⟨_, hs, hl⟩ := evalCode_of_limit_le (summing 9) .effectful hle 1 _ _ h
  exact ⟨h, ⟨7, rfl⟩, hl, hs⟩

end Machine

end Concatenative
