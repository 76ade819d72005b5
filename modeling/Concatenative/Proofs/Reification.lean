import Concatenative.Proofs.Laws

/-! Values written back as code. The code of a value pushes what the value rewrites to without any
rule, and such rewriting leaves the code of values as it is. No run can tell the two values apart.
-/

namespace Concatenative

variable {rules : Rules}

theorem Block.toCode?_ofCode (c : Code) : Block.toCode? (Block.ofCode c) = some c := by
  induction c with
  | nil => rfl
  | cons t c ih =>
    rw [show Block.ofCode (t :: c) = .run t :: Block.ofCode c from rfl]
    simp only [Block.toCode?, Instruction.toTerm?, ih]

theorem Block.toCode?_cons_eq_some {i : Instruction} {b : Block} {c : Code} :
    Block.toCode? (i :: b) = some c ↔
      ∃ t c', i.toTerm? = some t ∧ b.toCode? = some c' ∧ c = t :: c' := by
  simp only [Block.toCode?]
  cases i.toTerm? with
  | none => simp
  | some t =>
    cases b.toCode? with
    | none => simp
    | some c' => simp [eq_comm]

theorem Instruction.toTerm?_of_pushed {i : Instruction} {v : Value} (h : i.pushed? = some v) :
    i.toTerm? = v.toTerm? := by
  match i with
  | .push _ | .run (.literal _) =>
    cases h
    rfl
  | .run (.quotation body) =>
    cases h
    simp only [Instruction.toTerm?, Value.toTerm?, Block.toCode?_ofCode, Option.map_some]
  | .run (.word _) => cases h

mutual

/-- The term of a value pushes what the value rewrites to. -/
theorem Value.rewritten_of_toTerm? : ∀ {v : Value} {t : Term}, v.toTerm? = some t →
    ∃ v', (Instruction.run t).pushed? = some v' ∧ Value.Rewritten rules v v'
  | .literal l, _, h => by
    cases h
    exact ⟨_, rfl, .literal l⟩
  | .list _, _, h => by cases h
  | .quotation b, _, h => by
    simp only [Value.toTerm?, Option.map_eq_some_iff] at h
    obtain ⟨c, hc, rfl⟩ := h
    exact ⟨_, rfl, .quotation (Block.rewritten_of_toCode? hc)⟩

theorem Block.rewritten_of_toCode? : ∀ {b : Block} {c : Code}, b.toCode? = some c →
    Block.Rewritten rules b (Block.ofCode c)
  | [], _, h => by
    cases h
    exact .nil
  | .push v :: b, _, h => by
    obtain ⟨t, c, ht, hc, rfl⟩ := Block.toCode?_cons_eq_some.mp h
    obtain ⟨v', hv', hrewritten⟩ := Value.rewritten_of_toTerm? ht
    exact .pushed rfl hv' hrewritten (Block.rewritten_of_toCode? hc)
  | .run t :: b, _, h => by
    obtain ⟨t', c, ht, hc, rfl⟩ := Block.toCode?_cons_eq_some.mp h
    cases ht
    exact (Block.rewritten_refl [.run t]).append (Block.rewritten_of_toCode? hc)

end

mutual

theorem Value.Rewritten.toTerm?_eq : ∀ {v v' : Value}, Value.Rewritten .none v v' →
    v'.toTerm? = v.toTerm?
  | _, _, .literal _ => rfl
  | _, _, .list _ => rfl
  | _, _, .quotation h => by simp only [Value.toTerm?, Block.Rewritten.toCode?_eq h]

/-- Rewriting without rules leaves the code of a block as it is. -/
theorem Block.Rewritten.toCode?_eq : ∀ {b b' : Block}, Block.Rewritten .none b b' →
    b'.toCode? = b.toCode?
  | _, _, .nil => rfl
  | _, _, .word _ h => by simp only [Block.toCode?, Instruction.toTerm?, h.toCode?_eq]
  | _, _, .pushed hi hi' hv h => by
    simp only [Block.toCode?, Instruction.toTerm?_of_pushed hi, Instruction.toTerm?_of_pushed hi',
      hv.toTerm?_eq, h.toCode?_eq]
  | _, _, .rule hrule _ => hrule.elim
  | _, _, .trans h h' => h'.toCode?_eq.trans h.toCode?_eq

end

namespace Stack

theorem toCode?_cons (v : Value) (s : Stack) :
    Stack.toCode? (v :: s) = s.toCode?.bind fun c => v.toTerm?.map fun t => c ++ [t] := by
  simp only [Stack.toCode?, List.reverse_cons, List.mapM_append, List.mapM_cons, List.mapM_nil]
  cases List.mapM Value.toTerm? s.reverse with
  | none => rfl
  | some c =>
    cases v.toTerm? with
    | none => rfl
    | some t => rfl

theorem toCode?_cons_eq_some {v : Value} {s : Stack} {c : Code} :
    Stack.toCode? (v :: s) = some c ↔
      ∃ c' t, s.toCode? = some c' ∧ v.toTerm? = some t ∧ c = c' ++ [t] := by
  simp only [toCode?_cons, Option.bind_eq_some_iff, Option.map_eq_some_iff]
  constructor
  · rintro ⟨c', hc', t, ht, rfl⟩
    exact ⟨c', t, hc', ht, rfl⟩
  · rintro ⟨c', t, hc', ht, rfl⟩
    exact ⟨c', hc', t, ht, rfl⟩

theorem toCode?_eq_of_similar {s s' : Stack} (h : s.Similar s') : s'.toCode? = s.toCode? := by
  induction h with
  | base => rfl
  | cons hv _ ih => rw [toCode?_cons, toCode?_cons, ih, Value.Rewritten.toTerm?_eq hv]

/-- The code of a stack pushes what its values rewrite to. -/
theorem rewritten_of_toCode? {s : Stack} {c : Code} (h : s.toCode? = some c) :
    Block.Rewritten rules (s.reverse.map .push) (Block.ofCode c) := by
  induction s generalizing c with
  | nil =>
    cases h
    exact .nil
  | cons v s ih =>
    obtain ⟨c', t, hc', ht, rfl⟩ := toCode?_cons_eq_some.mp h
    obtain ⟨v', hv', hrewritten⟩ := Value.rewritten_of_toTerm? ht
    rw [List.reverse_cons, List.map_append, Block.ofCode, List.map_append]
    exact (ih hc').append (.pushed rfl hv' hrewritten .nil)

end Stack

namespace Value

/-- The term of a value pushes one value, which has the same term. Code that finds it on the stack
in place of the original ends in the same way, up to the bodies of the quotations that it leaves. -/
theorem term_faithful {v : Value} {t : Term} (h : v.toTerm? = some t) :
    ∃ v' : Value, v'.toTerm? = some t ∧ ∀ (m : Machine) (mode : Mode) (calls : Nat),
      (∀ s, m.evalTerm mode calls t s = { result := .ok (), stack := v' :: s }) ∧
      ∀ (above below : Stack) (c : Code),
        (m.evalCode mode calls c (above ++ v :: below)).Alike
          (m.evalCode mode calls c (above ++ v' :: below)) := by
  obtain ⟨v', hpushed, hrewritten⟩ : ∃ v', (Instruction.run t).pushed? = some v' ∧
      Value.Rewritten .none v v' := Value.rewritten_of_toTerm? h
  refine ⟨v', hrewritten.toTerm?_eq.trans h, fun m mode calls => ⟨fun s => ?_, ?_⟩⟩
  · exact congrFun (Machine.perform_pushed hpushed (m := m)) s
  · intro above below c
    have hbelow : Stack.Similar (v :: below) (v' :: below) :=
      .cons hrewritten (Correspondence.rewriting_stacks_refl below)
    have hstacks := hbelow.append_left Value.rewritten_refl above
    rw [Machine.evalCode_eq_runBlock]
    exact (m.runBlock_matches mode calls (Block.ofCode c) hstacks).alike rfl

/-- A quotation that captured another one, which in turn captured a number. -/
theorem term_faithful_captured :
    let v : Value :=
      .quotation [.push (.quotation [.push (.literal (.int 2)), .run Primitive.mul.term]),
        .run Primitive.apply.term]
    let t : Term :=
      .quotation [.quotation [.literal (.int 2), Primitive.mul.term], Primitive.apply.term]
    v.toTerm? = some t ∧
      ∃ v' : Value, v'.toTerm? = some t ∧ ∀ (m : Machine) (mode : Mode) (calls : Nat),
        (∀ s, m.evalTerm mode calls t s = { result := .ok (), stack := v' :: s }) ∧
        ∀ (above below : Stack) (c : Code),
          (m.evalCode mode calls c (above ++ v :: below)).Alike
            (m.evalCode mode calls c (above ++ v' :: below)) := by
  intro v t
  have h : v.toTerm? = some t := rfl
  exact ⟨h, term_faithful h⟩

end Value

end Concatenative
