import Concatenative.Proofs.Following

/-! Rewriting blocks. Rules that replace one stretch of a block by another are applied anywhere,
also inside quotations, captured values and lists, and any number of times. If every rule keeps up
the comparison of two runs, so does rewriting. -/

namespace Concatenative

/-- The value that an instruction pushes, if it does nothing else. -/
def Instruction.pushed? : Instruction → Option Value
  | .push v => some v
  | .run (.literal l) => some (.literal l)
  | .run (.quotation body) => some (.quotation (Block.ofCode body))
  | .run (.word _) => none

/-- Rules say by which blocks a block may be replaced. -/
abbrev Rules := Block → Block → Prop

/-- Without rules, rewriting changes no more than how blocks push their values. -/
def Rules.none : Rules := fun _ _ => False

mutual

/-- A value whose blocks are rewritten. -/
inductive Value.Rewritten (rules : Rules) : Value → Value → Prop
  | literal (l : Literal) : Value.Rewritten rules (.literal l) (.literal l)
  | list {items items' : List Value} : List.Forall₂ (Value.Rewritten rules) items items' →
    Value.Rewritten rules (.list items) (.list items')
  | quotation {b b' : Block} : Block.Rewritten rules b b' →
    Value.Rewritten rules (.quotation b) (.quotation b')

/-- A block that is rewritten by rules. Instructions that push a value are not told apart. -/
inductive Block.Rewritten (rules : Rules) : Block → Block → Prop
  | nil : Block.Rewritten rules [] []
  | word (name : String) {b b' : Block} : Block.Rewritten rules b b' →
    Block.Rewritten rules (.run (.word name) :: b) (.run (.word name) :: b')
  | pushed {i i' : Instruction} {v v' : Value} {b b' : Block} : i.pushed? = some v →
    i'.pushed? = some v' → Value.Rewritten rules v v' → Block.Rewritten rules b b' →
    Block.Rewritten rules (i :: b) (i' :: b')
  | rule {x x' b b' : Block} : rules x x' → Block.Rewritten rules b b' →
    Block.Rewritten rules (x ++ b) (x' ++ b')
  | trans {a b c : Block} : Block.Rewritten rules a b → Block.Rewritten rules b c →
    Block.Rewritten rules a c

end

variable {rules : Rules}

theorem Code.rewritten_refl : ∀ c : Code, Block.Rewritten rules (Block.ofCode c) (Block.ofCode c)
  | [] => .nil
  | .word name :: c => .word name (rewritten_refl c)
  | .literal l :: c => .pushed rfl rfl (.literal l) (rewritten_refl c)
  | .quotation body :: c => .pushed rfl rfl (.quotation (rewritten_refl body)) (rewritten_refl c)

mutual

theorem Value.rewritten_refl : ∀ v : Value, Value.Rewritten rules v v
  | .literal l => .literal l
  | .list items => .list (Value.all_rewritten_refl items)
  | .quotation b => .quotation (Block.rewritten_refl b)

theorem Value.all_rewritten_refl : ∀ vs : List Value, List.Forall₂ (Value.Rewritten rules) vs vs
  | [] => .nil
  | v :: vs => .cons (Value.rewritten_refl v) (Value.all_rewritten_refl vs)

theorem Block.rewritten_refl : ∀ b : Block, Block.Rewritten rules b b
  | [] => .nil
  | .push v :: b => .pushed rfl rfl (Value.rewritten_refl v) (Block.rewritten_refl b)
  | .run (.literal l) :: b => .pushed rfl rfl (.literal l) (Block.rewritten_refl b)
  | .run (.quotation body) :: b =>
    .pushed rfl rfl (.quotation (Code.rewritten_refl body)) (Block.rewritten_refl b)
  | .run (.word name) :: b => .word name (Block.rewritten_refl b)

end

mutual

theorem Value.Rewritten.trans : ∀ {u v w : Value}, Value.Rewritten rules u v →
    Value.Rewritten rules v w → Value.Rewritten rules u w
  | _, _, _, .literal l, .literal _ => .literal l
  | .list _, _, _, .list h, .list h' => .list (Value.Rewritten.all_trans h h')
  | _, _, _, .quotation h, .quotation h' => .quotation (.trans h h')

theorem Value.Rewritten.all_trans : ∀ {us vs ws : List Value},
    List.Forall₂ (Value.Rewritten rules) us vs → List.Forall₂ (Value.Rewritten rules) vs ws →
    List.Forall₂ (Value.Rewritten rules) us ws
  | [], _, _, .nil, .nil => .nil
  | _ :: _, _, _, .cons h hs, .cons h' hs' => .cons (h.trans h') (Value.Rewritten.all_trans hs hs')

end

namespace Block.Rewritten

theorem append : ∀ {a a' b b' : Block}, Block.Rewritten rules a a' → Block.Rewritten rules b b' →
    Block.Rewritten rules (a ++ b) (a' ++ b')
  | _, _, _, _, .nil, h => h
  | _, _, _, _, .word name ha, h => .word name (ha.append h)
  | _, _, _, _, .pushed hi hi' hv ha, h => .pushed hi hi' hv (ha.append h)
  | _, _, _, _, .rule hx ha, h => by
    rw [List.append_assoc, List.append_assoc]
    exact .rule hx (ha.append h)
  | _, _, b, _, .trans ha ha', h => .trans (ha.append (Block.rewritten_refl b)) (ha'.append h)

theorem of_rule {x x' : Block} (h : rules x x') : Block.Rewritten rules x x' := by
  simpa using Block.Rewritten.rule h .nil

end Block.Rewritten

/-- Rewritten values and blocks correspond. -/
def Correspondence.rewriting (rules : Rules) : Correspondence where
  value := Value.Rewritten rules
  block := Block.Rewritten rules
  literal_iff := by
    intro l v
    constructor
    · rintro ⟨⟩
      rfl
    · rintro rfl
      exact .literal l
  list_iff := by
    intro items v
    constructor
    · rintro (_ | h)
      exact ⟨_, rfl, h⟩
    · rintro ⟨items', rfl, h⟩
      exact .list h
  quotation_iff := by
    intro b v
    constructor
    · rintro (_ | _ | h)
      exact ⟨_, rfl, h⟩
    · rintro ⟨b', rfl, h⟩
      exact .quotation h
  capture hv hb := .pushed rfl rfl hv hb
  andThen ha hb := ha.append hb

/-- Stacks that differ in no more than how blocks push their values. -/
abbrev Stack.Similar (s s' : Stack) : Prop := (Correspondence.rewriting .none).Stacks [] s s'

namespace Correspondence

theorem rewriting_stacks_refl (s : Stack) : (rewriting rules).Stacks [] s s := by
  induction s with
  | nil => exact .base
  | cons v s ih => exact .cons (Value.rewritten_refl v) ih

theorem rewriting_stacks_trans {base s t u : Stack} (h : (rewriting rules).Stacks [] s t)
    (h' : (rewriting rules).Stacks base t u) : (rewriting rules).Stacks base s u := by
  induction h generalizing u with
  | base => exact h'
  | cons hv _ ih =>
    cases h' with
    | cons hv' hs' => exact .cons (Value.Rewritten.trans hv hv') (ih hs')

end Correspondence

/-- The comparison of a run with another of the same mode and on the same stack, with the same
excuses. -/
def Comparison.alone (C : Comparison) : Comparison where
  mode := C.mode
  mode' := C.mode
  excused := C.excused
  underflow := .inl rfl
  effects := .inl rfl

/-- A run that follows a rewritten one follows the original. -/
theorem Run.Follows.rewriting_trans {C : Comparison} {r r₁ r' : Run Unit}
    (h : r.Follows (.rewriting rules) C.alone Eq r₁) (h' : r₁.Follows (.rewriting rules) C Eq r') :
    r.Follows (.rewriting rules) C Eq r' := by
  intro s s' hs
  rcases h s s (Correspondence.rewriting_stacks_refl s) with hexcused | hm
  · exact .inl hexcused
  rcases h' s s' hs with ⟨e, he, hexcused⟩ | hm'
  · exact .inl ⟨e, hm.result.eq.symm.trans he, hexcused⟩
  · refine .inr ⟨?_, Correspondence.rewriting_stacks_trans hm.stack hm'.stack,
      hm'.lines.trans hm.lines, hm.quiet⟩
    rw [← hm.result.eq]
    exact hm'.result

namespace Machine

theorem perform_pushed {m : Machine} {mode : Mode} {invoke : Block → Run Unit} {i : Instruction}
    {v : Value} (h : i.pushed? = some v) : m.perform mode invoke i = Run.push v := by
  match i with
  | .push _ | .run (.literal _) | .run (.quotation _) =>
    cases h
    rfl
  | .run (.word _) => cases h

theorem wordsCorrespond_refl (m : Machine) : WordsCorrespond (.rewriting rules) m m := by
  intro name
  cases m.body? name with
  | none => exact .none
  | some c => exact .some (Block.rewritten_refl _)

/-- With that many nested calls allowed, runs of rewritten blocks follow those of the originals. -/
def Simulates (rules : Rules) (excused : RunError → Prop) (m : Machine) (calls : Nat) : Prop :=
  ∀ (C : Comparison) (m' : Machine) (calls' : Nat), C.excused = excused →
    WordsCorrespond (.rewriting rules) m m' → DepthsAllow C m m' calls calls' →
    ∀ b b', Block.Rewritten rules b b' →
      (m.runBlock C.mode calls b).Follows (.rewriting rules) C Eq (m'.runBlock C.mode' calls' b')

/-- Every rule keeps up comparisons, given that rewriting does so for runs that are nested more
deeply. -/
def Sound (rules : Rules) (excused : RunError → Prop) (m : Machine) : Prop :=
  ∀ calls, (∀ k < calls, Simulates rules excused m k) →
    ∀ (C : Comparison) (m' : Machine) (calls' : Nat), C.excused = excused →
      WordsCorrespond (.rewriting rules) m m' → DepthsAllow C m m' calls calls' →
      ∀ x x', rules x x' →
        (m.runBlock C.mode calls x).Follows (.rewriting rules) C Eq (m'.runBlock C.mode' calls' x')

variable {excused : RunError → Prop} {m : Machine} {calls : Nat}

theorem follows_of_rewritten (hsound : Sound rules excused m)
    (ih : ∀ k < calls, Simulates rules excused m k) :
    ∀ {b b' : Block}, Block.Rewritten rules b b' →
      ∀ (C : Comparison) (m' : Machine) (calls' : Nat), C.excused = excused →
        WordsCorrespond (.rewriting rules) m m' → DepthsAllow C m m' calls calls' →
        (m.runBlock C.mode calls b).Follows (.rewriting rules) C Eq (m'.runBlock C.mode' calls' b')
  | _, _, .nil, _, _, _, _, _, _ => Run.follows_pure rfl
  | _, _, .word name hb, C, m', calls', hC, hwords, hdepth => by
    rw [runBlock_cons, runBlock_cons]
    refine Run.Follows.bind (A := Eq) (step_word_follows hwords (fun b b' h => ?_) name)
      fun _ _ _ => follows_of_rewritten hsound ih hb C m' calls' hC hwords hdepth
    exact invoke_follows hdepth fun k k' hk hd => ih k (by omega) C m' k' hC hwords hd b b' h
  | _, _, .pushed hi hi' hv hb, C, m', calls', hC, hwords, hdepth => by
    rw [runBlock_cons, runBlock_cons, perform_pushed hi, perform_pushed hi']
    exact (Run.follows_push hv).bind
      fun _ _ _ => follows_of_rewritten hsound ih hb C m' calls' hC hwords hdepth
  | _, _, .rule hx hb, C, m', calls', hC, hwords, hdepth => by
    rw [runBlock_append, runBlock_append]
    exact (hsound calls ih C m' calls' hC hwords hdepth _ _ hx).bind
      fun _ _ _ => follows_of_rewritten hsound ih hb C m' calls' hC hwords hdepth
  | _, _, .trans hb hb', C, m', calls', hC, hwords, hdepth =>
    (follows_of_rewritten hsound ih hb C.alone m calls hC (wordsCorrespond_refl m)
      (.inl ⟨rfl, rfl⟩)).rewriting_trans
      (follows_of_rewritten hsound ih hb' C m' calls' hC hwords hdepth)

/-- If every rule keeps up comparisons, rewriting does. -/
theorem simulates_of_sound (hsound : Sound rules excused m) (calls : Nat) :
    Simulates rules excused m calls := by
  induction calls using Nat.strongRecOn with
  | ind calls ih =>
    intro C m' calls' hC hwords hdepth b b' h
    exact follows_of_rewritten hsound ih h C m' calls' hC hwords hdepth

/-- A run does not tell similar stacks apart. -/
theorem runBlock_matches (m : Machine) (mode : Mode) (calls : Nat) (b : Block) {s s' : Stack}
    (hs : s.Similar s') :
    (m.runBlock mode calls b s).Matches (.rewriting .none) (.strict mode) Eq
      (m.runBlock mode calls b s') := by
  have hsound : Sound .none (fun _ => False) m := fun _ _ _ _ _ _ _ _ _ _ hrule => hrule.elim
  have hdepth : DepthsAllow (.strict mode) m m calls calls := .inl ⟨rfl, rfl⟩
  rcases simulates_of_sound hsound calls (.strict mode) m calls rfl (wordsCorrespond_refl m) hdepth
    b b (Block.rewritten_refl b) s s' hs with ⟨_, _, hexcused⟩ | hm
  · exact hexcused.elim
  · exact hm

end Machine

end Concatenative
