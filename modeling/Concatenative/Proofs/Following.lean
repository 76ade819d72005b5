import Concatenative.Proofs.Comparison

/-! Evaluation compared: a run of a block follows another when the blocks, the dictionaries and the
depths that are allowed go together. The same block run with more room (on a deeper stack, with
output allowed, or with more nested calls) does what it did before, unless the first run failed for
want of that room. Code is run part by part, and a built-in word runs a block, writes a line or does
neither. -/

namespace Concatenative

theorem Run.bind_eq_ok_iff {α β : Type} {first : Run α} {next : α → Run β} {s : Stack} {b : β} :
    ((first >>= next) s).result = .ok b ↔
      ∃ a, (first s).result = .ok a ∧ (next a (first s).stack).result = .ok b := by
  cases h : (first s).result with
  | error e => simp [bind_of_error h]
  | ok a => simp [bind_of_ok h]

variable {K : Correspondence} {C : Comparison}

namespace Primitive

open Run

theorem onInts_follows (op : String) {f : Int64 → Int64 → Run Literal}
    (h : ∀ a b, (f a b).Follows K C Eq (f a b)) :
    (onInts op f).Follows K C Eq (onInts op f) := by
  refine (follows_popInt op).bind fun b _ hb => ?_
  refine (follows_popInt op).bind fun a _ ha => ?_
  subst hb ha
  refine (h a b).bind fun l _ hl => ?_
  subst hl
  exact follows_push_literal l

theorem onBools_follows (op : String) (f : Bool → Bool → Bool) :
    (onBools op f).Follows K C Eq (onBools op f) := by
  refine (follows_popBool op).bind fun b _ hb => ?_
  refine (follows_popBool op).bind fun a _ ha => ?_
  subst hb ha
  exact follows_push_literal _

theorem follows_push_list {items items' : List Value} (h : List.Forall₂ K.value items items') :
    (push (.list items)).Follows K C Eq (push (.list items')) :=
  follows_push (K.list_iff.mpr ⟨items', rfl, h⟩)

theorem follows_push_quotation {b b' : Block} (h : K.block b b') :
    (push (.quotation b)).Follows K C Eq (push (.quotation b')) :=
  follows_push (K.quotation_iff.mpr ⟨b', rfl, h⟩)

theorem guarded_follows (op : String) (b : Int64) (l : Literal) :
    Run.Follows K C Eq (if b = 0 then fail (.divisionByZero op) else return l)
      (if b = 0 then fail (.divisionByZero op) else return l) := by
  by_cases hb : b = 0
  · rw [if_pos hb]
    exact follows_fail _
  · rw [if_neg hb]
    exact follows_pure rfl

theorem arg_follows (op : String) (i : Nat) {items items' : List Value}
    (h : List.Forall₂ K.value items items') :
    Run.Follows K C Eq
      (match items[i]? with
        | some v => do
          push v
          push (.list items)
        | none => fail (.indexOutOfRange op i items.length))
      (match items'[i]? with
        | some v => do
          push v
          push (.list items')
        | none => fail (.indexOutOfRange op i items'.length)) := by
  rw [← h.length_eq]
  by_cases hi : i < items.length
  · have hi' : i < items'.length := h.length_eq ▸ hi
    rw [List.getElem?_eq_getElem hi, List.getElem?_eq_getElem hi']
    exact (follows_push (h.get hi hi')).bind fun _ _ _ => follows_push_list h
  · have hi' : ¬ i < items'.length := h.length_eq ▸ hi
    rw [List.getElem?_eq_none (by omega), List.getElem?_eq_none (by omega)]
    exact follows_fail _

/-- Built-in words keep up a comparison when running quotations does. -/
theorem exec_follows (p : Primitive) {invoke invoke' : Block → Run Unit}
    (h : ∀ b b', K.block b b' → (invoke b).Follows K C Eq (invoke' b')) :
    (p.exec C.mode invoke).Follows K C Eq (p.exec C.mode' invoke') := by
  cases p with
  | add | sub | mul | lt | gt => exact onInts_follows _ fun _ _ => follows_pure rfl
  | div | mod => exact onInts_follows _ fun _ _ => guarded_follows _ _ _
  | eq =>
    refine (follows_need _ 2).bind fun _ _ _ => ?_
    refine (follows_popPlain _).bind fun b _ hb => ?_
    refine (follows_popPlain _).bind fun a _ ha => ?_
    subst hb ha
    exact follows_push_literal _
  | and | or => exact onBools_follows _ _
  | not =>
    refine (follows_popBool _).bind fun a _ ha => ?_
    subst ha
    exact follows_push_literal _
  | concat =>
    refine (follows_popString _).bind fun b _ hb => ?_
    refine (follows_popString _).bind fun a _ ha => ?_
    subst hb ha
    exact follows_push_literal _
  | dup =>
    refine (follows_pop _).bind fun v v' hv => ?_
    exact (follows_push hv).bind fun _ _ _ => follows_push hv
  | pop => exact (follows_pop _).bind fun _ _ _ => follows_pure rfl
  | swap =>
    refine (follows_popTwo _).bind fun x x' hx => ?_
    exact (follows_push hx.2).bind fun _ _ _ => follows_push hx.1
  | print =>
    refine (follows_popPlain _).bind fun v _ hv => ?_
    subst hv
    exact follows_emit _ _
  | writeln =>
    refine (follows_popString _).bind fun line _ hline => ?_
    subst hline
    exact follows_emit _ _
  | apply => exact (follows_popQuotation _).bind h
  | dip =>
    refine (follows_popQuotation _).bind fun b b' hb => ?_
    refine (follows_pop _).bind fun v v' hv => ?_
    exact (h b b' hb).bind fun _ _ _ => follows_push hv
  | choose =>
    refine (follows_popQuotation _).bind fun b b' hb => ?_
    refine (follows_popQuotation _).bind fun a a' ha => ?_
    refine (follows_popBool _).bind fun c _ hc => ?_
    subst hc
    cases c with
    | true => exact h a a' ha
    | false => exact h b b' hb
  | compose =>
    refine (follows_popQuotation _).bind fun b b' hb => ?_
    refine (follows_popQuotation _).bind fun a a' ha => ?_
    exact follows_push_quotation (K.andThen ha hb)
  | argList => exact follows_push_list .nil
  | swons =>
    refine (follows_popList _).bind fun items items' hitems => ?_
    refine (follows_pop _).bind fun v v' hv => ?_
    exact follows_push_list (.cons hv hitems)
  | embedArgs =>
    refine (follows_popQuotation _).bind fun b b' hb => ?_
    refine (follows_popList _).bind fun items items' hitems => ?_
    refine Follows.bind (follows_push_quotation ?_) fun _ _ _ => follows_push_list hitems
    exact K.capture (K.list_iff.mpr ⟨items', rfl, hitems⟩) hb
  | arg i => exact (follows_popList _).bind fun items items' hitems => arg_follows _ _ hitems

end Primitive

theorem Block.ofCode_append (c c' : Code) :
    Block.ofCode (c ++ c') = Block.ofCode c ++ Block.ofCode c' :=
  List.map_append

namespace Machine

/-- Runs the instructions of a block when that many nested calls are allowed. -/
def runBlock (m : Machine) (mode : Mode) (calls : Nat) (b : Block) : Run Unit :=
  b.forM (m.perform mode (m.invoke mode calls))

variable {m m' : Machine} {mode mode' : Mode} {calls calls' : Nat}

theorem invoke_zero (b : Block) : m.invoke mode 0 b = Run.fail (.callDepthExceeded m.limit) := rfl

theorem invoke_succ (b : Block) : m.invoke mode (calls + 1) b = m.runBlock mode calls b := rfl

@[simp] theorem runBlock_nil : m.runBlock mode calls [] = pure () := rfl

theorem runBlock_cons (i : Instruction) (b : Block) : m.runBlock mode calls (i :: b) =
    (do m.perform mode (m.invoke mode calls) i; m.runBlock mode calls b) := rfl

theorem runBlock_append (a b : Block) : m.runBlock mode calls (a ++ b) =
    (do m.runBlock mode calls a; m.runBlock mode calls b) := by
  simp only [runBlock]
  exact List.forM_append

theorem evalCode_eq_runBlock (c : Code) :
    m.evalCode mode calls c = m.runBlock mode calls (Block.ofCode c) := by
  induction c with
  | nil => rfl
  | cons t c ih =>
    show (do m.evalTerm mode calls t; m.evalCode mode calls c) = _
    rw [ih]
    rfl

theorem run_eq_runBlock (m : Machine) (mode : Mode) (c : Code) :
    m.run mode c = m.runBlock mode m.limit (Block.ofCode c) :=
  evalCode_eq_runBlock c

theorem run_singleton (mode : Mode) (t : Term) : m.run mode [t] = m.evalTerm mode m.limit t :=
  bind_pure_unit

theorem run_append (mode : Mode) (c c' : Code) :
    m.run mode (c ++ c') = (do m.run mode c; m.run mode c') := by
  simp only [run_eq_runBlock, Block.ofCode_append, runBlock_append]

theorem step_builtin {p : Primitive} (h : m.body? p.name = none) (mode : Mode)
    (invoke : Block → Run Unit) :
    m.step mode invoke (.word p.name) = (do .note p.name; p.exec mode invoke) := by
  simp only [step, h, Primitive.ofName?_name]

/-- Two dictionaries define the same words, with bodies that correspond. -/
def WordsCorrespond (K : Correspondence) (m m' : Machine) : Prop :=
  ∀ name, Option.Rel (fun c c' => K.block (Block.ofCode c) (Block.ofCode c')) (m.body? name)
    (m'.body? name)

/-- The second run may nest calls as deeply as the first, or more deeply where a failure of the
first for that reason is excused. -/
def DepthsAllow (C : Comparison) (m m' : Machine) (calls calls' : Nat) : Prop :=
  calls = calls' ∧ m.limit = m'.limit ∨ calls ≤ calls' ∧ ∀ n, C.excused (.callDepthExceeded n)

theorem DepthsAllow.pred (h : DepthsAllow C m m' (calls + 1) calls') :
    ∃ k, calls' = k + 1 ∧ DepthsAllow C m m' calls k := by
  rcases h with ⟨rfl, hlimit⟩ | ⟨hle, hexcused⟩
  · exact ⟨calls, rfl, .inl ⟨rfl, hlimit⟩⟩
  · exact ⟨calls' - 1, by omega, .inr ⟨by omega, hexcused⟩⟩

theorem invoke_follows {b b' : Block} (hdepth : DepthsAllow C m m' calls calls')
    (h : ∀ k k', calls = k + 1 → DepthsAllow C m m' k k' →
      (m.runBlock C.mode k b).Follows K C Eq (m'.runBlock C.mode' k' b')) :
    (m.invoke C.mode calls b).Follows K C Eq (m'.invoke C.mode' calls' b') := by
  cases calls with
  | zero =>
    rw [invoke_zero]
    rcases hdepth with ⟨rfl, hlimit⟩ | ⟨_, hexcused⟩
    · rw [invoke_zero, hlimit]
      exact Run.follows_fail _
    · exact fun _ _ _ => .inl ⟨_, rfl, hexcused _⟩
  | succ calls =>
    obtain ⟨k, rfl, hk⟩ := hdepth.pred
    rw [invoke_succ, invoke_succ]
    exact h calls k rfl hk

theorem step_word_follows (hwords : WordsCorrespond K m m') {invoke invoke' : Block → Run Unit}
    (h : ∀ b b', K.block b b' → (invoke b).Follows K C Eq (invoke' b')) (name : String) :
    (m.step C.mode invoke (.word name)).Follows K C Eq (m'.step C.mode' invoke' (.word name)) := by
  have hbody := hwords name
  simp only [step]
  generalize m.body? name = x, m'.body? name = x' at hbody
  cases hbody with
  | some hc => exact h _ _ hc
  | none =>
    cases Primitive.ofName? name with
    | some p => exact (Run.follows_note name).bind fun _ _ _ => p.exec_follows h
    | none => exact Run.follows_fail _

/-- A block that is run with more room does what it did with less. -/
theorem runBlock_follows_same (hwords : m'.words = m.words)
    (hdepth : DepthsAllow C m m' calls calls') (b : Block) :
    (m.runBlock C.mode calls b).Follows .same C Eq (m'.runBlock C.mode' calls' b) := by
  have hcorrespond : WordsCorrespond .same m m' := by
    intro name
    unfold body?
    rw [hwords]
    cases m.words.lookup name with
    | none => exact .none
    | some c => exact .some rfl
  induction calls using Nat.strongRecOn generalizing calls' b with
  | ind calls ih =>
  have hinvoke : ∀ b b', b = b' →
      (m.invoke C.mode calls b).Follows .same C Eq (m'.invoke C.mode' calls' b') := by
    rintro b _ rfl
    exact invoke_follows hdepth fun k k' hk hd => ih k (by omega) hd b
  induction b with
  | nil => exact Run.follows_pure rfl
  | cons i b ihb =>
    refine Run.Follows.bind (A := Eq) ?_ fun _ _ _ => ihb
    match i with
    | .push v => exact Run.follows_push rfl
    | .run (.literal l) => exact Run.follows_push rfl
    | .run (.quotation body) => exact Run.follows_push rfl
    | .run (.word name) => exact step_word_follows hcorrespond hinvoke name

end Machine

/-- The run was cut off because calls were nested too deeply. -/
def Outcome.Exceeded {α : Type} (o : Outcome α) : Prop :=
  ∃ n, o.result = .error (.callDepthExceeded n)

theorem Outcome.not_exceeded_of_ok {α : Type} {o : Outcome α} {a : α} (h : o.result = .ok a) :
    ¬ o.Exceeded := by
  rintro ⟨n, hn⟩
  rw [h] at hn
  cases hn

namespace Comparison

/-- Compares runs in one mode without excuses. -/
def strict (mode : Mode) : Comparison where
  mode := mode
  mode' := mode
  excused _ := False
  underflow := .inl rfl
  effects := .inl rfl

/-- Compares runs in one mode, of which the second may nest calls more deeply. -/
def deeper (mode : Mode) : Comparison where
  mode := mode
  mode' := mode
  excused e := ∃ n, e = .callDepthExceeded n
  underflow := .inl rfl
  effects := .inl rfl

/-- Compares a run without output that succeeds on a stack of its own with runs on top of another
stack, in any mode. -/
def above (mode : Mode) (base : Stack) : Comparison where
  mode := .pure
  mode' := mode
  base := base
  excused _ := True
  underflow := .inr fun _ => trivial
  effects := .inr ⟨rfl, fun _ => trivial⟩

end Comparison

namespace Primitive

/-- The block that a built-in word runs, and the stack that it runs it on. -/
inductive Invokes : Primitive → Stack → Block → Stack → Prop
  | apply (b : Block) (s : Stack) : Invokes .apply (.quotation b :: s) b s
  | dip (b : Block) (v : Value) (s : Stack) : Invokes .dip (.quotation b :: v :: s) b s
  | choose (condition : Bool) (a b : Block) (s : Stack) :
    Invokes .choose (.quotation b :: .quotation a :: .literal (.bool condition) :: s)
      (if condition then a else b) s

/-- The line that a built-in word writes when it is called on a stack. -/
inductive Writes : Primitive → Stack → String → Prop
  | print {v : Value} (s : Stack) : v.hasQuotation = false → Writes .print (v :: s) v.shown
  | writeln (line : String) (s : Stack) : Writes .writeln (.literal (.string line) :: s) line

variable {p : Primitive} {s t : Stack} {b : Block} {line : String}

theorem Invokes.exec (h : p.Invokes s b t) :
    ∃ after : Run Unit, (∀ u, (after u).lines = []) ∧
      ∀ mode invoke, p.exec mode invoke s = (do invoke b; after : Run Unit) t := by
  cases h with
  | apply | choose =>
    refine ⟨pure (), fun _ => rfl, fun mode invoke => ?_⟩
    rw [bind_pure_unit]
    rfl
  | dip b v s => exact ⟨Run.push v, fun _ => rfl, fun _ _ => rfl⟩

theorem exec_print (mode : Mode) (invoke : Block → Run Unit) (v : Value) (s : Stack) :
    Primitive.print.exec mode invoke (v :: s) =
      if v.hasQuotation then ⟨.error (.typeMismatch Primitive.print.name .plain v.tag), s, [], []⟩
      else Run.emit mode Primitive.print.name v.shown s := by
  unfold Primitive.exec Run.popPlain Run.popAs
  show Run.bind (Run.bind (Run.pop _) _) _ (v :: s) = _
  simp only [Run.bind, Run.pop]
  cases v.hasQuotation <;> rfl

theorem Writes.exec (h : p.Writes s line) :
    ∃ t, ∀ mode invoke, p.exec mode invoke s = Run.emit mode p.name line t := by
  cases h with
  | @print v s hplain =>
    refine ⟨s, fun mode invoke => ?_⟩
    rw [exec_print, hplain]
    rfl
  | writeln line s => exact ⟨s, fun _ _ => rfl⟩

theorem exec_quiet (p : Primitive) (s : Stack) :
    (p.exec .pure (fun _ => pure ()) s).lines = [] := by
  have hpure : Run.Follows .same (.strict .pure) Eq (pure () : Run Unit) (pure () : Run Unit) :=
    Run.follows_pure rfl
  have hself := p.exec_follows (fun _ _ _ => hpure) s s (Correspondence.same_stacks_self s)
  rcases hself with ⟨_, _, hexcused⟩ | hm
  · exact hexcused.elim
  · exact hm.quiet rfl

/-- A built-in word runs a block, writes a line or does neither, and in the last case it does not
matter to it whether output is allowed and how blocks are run. -/
theorem exec_cases (p : Primitive) (s : Stack) :
    (∃ b t, p.Invokes s b t) ∨ (∃ line, p.Writes s line) ∨
      ∃ o, o.lines = [] ∧ ∀ mode invoke, p.exec mode invoke s = o := by
  have hquiet := exec_quiet p s
  cases p with
  | print =>
    rcases s with _ | ⟨v, s⟩
    · exact .inr (.inr ⟨_, hquiet, fun _ _ => rfl⟩)
    cases hv : v.hasQuotation with
    | false => exact .inr (.inl ⟨_, .print s hv⟩)
    | true => exact .inr (.inr ⟨_, rfl, fun _ _ => by rw [exec_print, hv, if_pos rfl]⟩)
  | writeln =>
    rcases s with _ | ⟨(_ | _ | _ | line) | _ | _, s⟩
    case cons.literal.string => exact .inr (.inl ⟨line, .writeln line s⟩)
    all_goals exact .inr (.inr ⟨_, hquiet, fun _ _ => rfl⟩)
  | apply =>
    rcases s with _ | ⟨_ | _ | b, s⟩
    case cons.quotation => exact .inl ⟨b, s, .apply b s⟩
    all_goals exact .inr (.inr ⟨_, hquiet, fun _ _ => rfl⟩)
  | dip =>
    rcases s with _ | ⟨_ | _ | b, _ | ⟨v, s⟩⟩
    case cons.quotation.cons => exact .inl ⟨b, s, .dip b v s⟩
    all_goals exact .inr (.inr ⟨_, hquiet, fun _ _ => rfl⟩)
  | choose =>
    rcases s with _ | ⟨_ | _ | b, _ | ⟨_ | _ | a, _ | ⟨(_ | _ | c | _) | _ | _, s⟩⟩⟩
    case cons.quotation.cons.quotation.cons.literal.bool => exact .inl ⟨_, s, .choose c a b s⟩
    all_goals exact .inr (.inr ⟨_, hquiet, fun _ _ => rfl⟩)
  | _ => exact .inr (.inr ⟨_, hquiet, fun _ _ => rfl⟩)

end Primitive

namespace Machine

variable {m o : Machine} {mode : Mode} {calls limit : Nat}

/-- A block that runs on the empty stack without output does the same in every mode on top of every
stack. -/
theorem runBlock_above {b : Block} (h : (m.runBlock .pure calls b []).result = .ok ())
    (mode : Mode) (s : Stack) :
    (m.runBlock mode calls b s).result = .ok () ∧
      (m.runBlock mode calls b s).stack = (m.runBlock .pure calls b []).stack ++ s ∧
      (m.runBlock mode calls b s).lines = [] := by
  have hdepth : DepthsAllow (.above mode s) m m calls calls := .inl ⟨rfl, rfl⟩
  obtain ⟨hresult, hstack, hlines, hquiet⟩ :=
    (runBlock_follows_same rfl hdepth b [] s .base).matches_of_ok h
  exact ⟨hresult.eq.trans h, Correspondence.same_stacks hstack, hlines.trans (hquiet rfl)⟩

/-- A run that is not cut off ends in the same way when more nested calls are allowed. -/
theorem runBlock_of_calls_le {m' : Machine} {calls' : Nat} {b : Block} {s : Stack}
    (hwords : m'.words = m.words) (hle : calls ≤ calls')
    (h : ¬ (m.runBlock mode calls b s).Exceeded) :
    (m'.runBlock mode calls' b s).result = (m.runBlock mode calls b s).result ∧
      (m'.runBlock mode calls' b s).stack = (m.runBlock mode calls b s).stack ∧
      (m'.runBlock mode calls' b s).lines = (m.runBlock mode calls b s).lines := by
  have hdepth : DepthsAllow (.deeper mode) m m' calls calls' := .inr ⟨hle, fun n => ⟨n, rfl⟩⟩
  have hs := Correspondence.same_stacks_self s
  rcases runBlock_follows_same hwords hdepth b s s hs with ⟨_, he, n, rfl⟩ | hm
  · exact absurd ⟨n, he⟩ h
  · exact ⟨hm.result.eq, Correspondence.same_stacks_nil hm.stack, hm.lines⟩

/-- A block that runs on the empty stack without output does the same wherever it is run, unless
calls are cut off there. -/
theorem runBlock_predicted (hwords : m.words = o.words) {b : Block}
    (h : (o.runBlock .pure limit b []).result = .ok ()) (mode : Mode) (calls : Nat) (s : Stack) :
    (m.runBlock mode calls b s).Exceeded ∨
      (m.runBlock mode calls b s).result = .ok () ∧
      (m.runBlock mode calls b s).stack = (o.runBlock .pure limit b []).stack ++ s ∧
      (m.runBlock mode calls b s).lines = [] := by
  obtain ⟨hresult, hstack, hlines⟩ := runBlock_above h mode s
  by_cases hcut : (m.runBlock mode calls b s).Exceeded
  · exact .inl hcut
  right
  rcases Nat.le_total calls limit with hle | hle
  · obtain ⟨hr, hs, hl⟩ := runBlock_of_calls_le hwords.symm hle hcut
    exact ⟨hr.symm.trans hresult, hs.symm.trans hstack, hl.symm.trans hlines⟩
  · have hnot := Outcome.not_exceeded_of_ok hresult
    obtain ⟨hr, hs, hl⟩ := runBlock_of_calls_le hwords hle hnot
    exact ⟨hr.trans hresult, hs.trans hstack, hl.trans hlines⟩

end Machine

end Concatenative
