import Concatenative.Machine.Interpreter
import Concatenative.Proofs.Following

/-! A run where output is not allowed does what the run with output does, up to the first line of
output. There it stops, and names the word that writes the line. -/

namespace Concatenative

namespace Outcome

/-- The second run writes a line first, and the first one, which may not, stops there. -/
def PartAt (p : Primitive) (line : String) (o o' : Outcome Unit) : Prop :=
  o'.lines.head? = some line ∧ o.result = .error (.sideEffect p.name)

/-- Without output two runs end in the same way; else they part where the first line is written. -/
def AgreeUpTo (first : Primitive → String → Prop) (o o' : Outcome Unit) : Prop :=
  o'.lines = [] ∧ o.result = o'.result ∧ o.stack = o'.stack ∨
    ∃ p line, first p line ∧ PartAt p line o o'

theorem AgreeUpTo.of_quiet {first : Primitive → String → Prop} {o : Outcome Unit}
    (h : o.lines = []) : AgreeUpTo first o o :=
  .inl ⟨h, rfl, rfl⟩

theorem AgreeUpTo.mono {first first' : Primitive → String → Prop} {o o' : Outcome Unit}
    (h : AgreeUpTo first o o') (hfirst : ∀ p line, first p line → first' p line) :
    AgreeUpTo first' o o' := by
  rcases h with h | ⟨p, line, hline, h⟩
  · exact .inl h
  · exact .inr ⟨p, line, hfirst p line hline, h⟩

end Outcome

namespace Run

open Outcome

variable {r r' : Run Unit} {next next' : Unit → Run Unit} {s : Stack} {p : Primitive}
  {line : String} {first : Primitive → String → Prop}

theorem partAt_bind (h : PartAt p line (r s) (r' s)) :
    PartAt p line ((r >>= next) s) ((r' >>= next') s) := by
  obtain ⟨hline, hstop⟩ := h
  refine ⟨?_, by rw [bind_of_error hstop]⟩
  cases hr : (r' s).result with
  | error e => rw [bind_of_error hr, hline]
  | ok => rw [bind_of_ok hr, List.head?_append, hline, Option.some_or]

theorem partAt_bind_of_ok (hr : (r s).result = .ok ()) (hr' : (r' s).result = .ok ())
    (hstack : (r s).stack = (r' s).stack) (hlines : (r' s).lines = [])
    (h : PartAt p line (next () (r' s).stack) (next' () (r' s).stack)) :
    PartAt p line ((r >>= next) s) ((r' >>= next') s) := by
  rw [bind_of_ok hr, bind_of_ok hr', hstack, hlines]
  exact h

theorem agreeUpTo_bind (h : AgreeUpTo first (r s) (r' s))
    (hnext : (r' s).result = .ok () → (r' s).lines = [] →
      AgreeUpTo first (next () (r' s).stack) (next' () (r' s).stack)) :
    AgreeUpTo first ((r >>= next) s) ((r' >>= next') s) := by
  rcases h with ⟨hlines, hresult, hstack⟩ | ⟨p, line, hline, hpart⟩
  · cases hr : (r' s).result with
    | error e =>
      rw [bind_of_error hr, bind_of_error (hresult.trans hr)]
      exact .inl ⟨hlines, rfl, hstack⟩
    | ok =>
      rw [bind_of_ok hr, bind_of_ok (hresult.trans hr), hstack, hlines]
      exact hnext hr hlines
  · exact .inr ⟨p, line, hline, partAt_bind hpart⟩

end Run

open Outcome

theorem Primitive.exec_agreeUpTo (p : Primitive) {invoke invoke' : Block → Run Unit} {s : Stack}
    {first : Primitive → String → Prop} (hwrites : ∀ line, p.Writes s line → first p line)
    (hinvokes : ∀ b t, p.Invokes s b t → AgreeUpTo first (invoke b t) (invoke' b t)) :
    AgreeUpTo first (p.exec .pure invoke s) (p.exec .effectful invoke' s) := by
  rcases p.exec_cases s with ⟨b, t, hb⟩ | ⟨line, hline⟩ | ⟨o, hquiet, ho⟩
  · obtain ⟨after, hafter, hexec⟩ := hb.exec
    rw [hexec, hexec]
    exact Run.agreeUpTo_bind (hinvokes b t hb) fun _ _ => .of_quiet (hafter _)
  · obtain ⟨t, hexec⟩ := hline.exec
    rw [hexec, hexec]
    exact .inr ⟨p, line, hwrites line hline, rfl, rfl⟩
  · rw [ho, ho]
    exact .of_quiet hquiet

namespace Machine

/-- The first line that a block writes on a stack when that many nested calls are allowed, and the
built-in word that writes it. -/
inductive WritesFirst (m : Machine) : Nat → Block → Stack → Primitive → String → Prop
  | here {calls : Nat} {p : Primitive} {b : Block} {s : Stack} {line : String} :
    m.body? p.name = none → p.Writes s line → WritesFirst m calls (.run p.term :: b) s p line
  | word {calls : Nat} {name : String} {body : Code} {b : Block} {s : Stack} {p : Primitive}
    {line : String} : m.body? name = some body →
    WritesFirst m calls (Block.ofCode body) s p line →
    WritesFirst m (calls + 1) (.run (.word name) :: b) s p line
  | block {calls : Nat} {q : Primitive} {a b : Block} {s t : Stack} {p : Primitive}
    {line : String} : m.body? q.name = none → q.Invokes s a t → WritesFirst m calls a t p line →
    WritesFirst m (calls + 1) (.run q.term :: b) s p line
  /-- The first instruction has run and has written nothing. -/
  | later {calls : Nat} {i : Instruction} {b : Block} {s : Stack} {p : Primitive} {line : String} :
    (m.perform .effectful (m.invoke .effectful calls) i s).result = .ok () →
    (m.perform .effectful (m.invoke .effectful calls) i s).lines = [] →
    WritesFirst m calls b (m.perform .effectful (m.invoke .effectful calls) i s).stack p line →
    WritesFirst m calls (i :: b) s p line

variable {m : Machine} {calls : Nat}

theorem runBlock_agreeUpTo (m : Machine) (calls : Nat) (b : Block) (s : Stack) :
    AgreeUpTo (m.WritesFirst calls b s) (m.runBlock .pure calls b s)
      (m.runBlock .effectful calls b s) := by
  induction calls using Nat.strongRecOn generalizing b s with
  | ind calls ih =>
  have hinvoke : ∀ b s, AgreeUpTo (fun p line => ∃ k, calls = k + 1 ∧ m.WritesFirst k b s p line)
      (m.invoke .pure calls b s) (m.invoke .effectful calls b s) := by
    intro b s
    cases calls with
    | zero => exact .of_quiet rfl
    | succ k => exact (ih k k.lt_succ_self b s).mono fun p line h => ⟨k, rfl, h⟩
  induction b generalizing s with
  | nil => exact .of_quiet rfl
  | cons i b ihb =>
    rw [runBlock_cons, runBlock_cons]
    refine Run.agreeUpTo_bind ?_ fun hok hlines =>
      (ihb _).mono fun p line h => .later hok hlines h
    match i with
    | .push v | .run (.literal l) | .run (.quotation body) => exact .of_quiet rfl
    | .run (.word name) =>
      cases hbody : m.body? name with
      | some body =>
        simp only [perform, step, hbody]
        refine (hinvoke _ _).mono ?_
        rintro p line ⟨k, rfl, h⟩
        exact .word hbody h
      | none =>
        cases hname : Primitive.ofName? name with
        | none =>
          simp only [perform, step, hbody, hname]
          exact .of_quiet rfl
        | some q =>
          obtain rfl := Primitive.name_of_ofName? hname
          simp only [perform, step_builtin hbody]
          refine Run.agreeUpTo_bind (.of_quiet rfl) fun _ _ => ?_
          refine q.exec_agreeUpTo (fun line h => .here hbody h) fun a t ha => ?_
          refine (hinvoke a t).mono ?_
          rintro p line ⟨k, rfl, h⟩
          exact .block hbody ha h

theorem perform_pure_of_quiet {i : Instruction} {s : Stack}
    (hlines : (m.perform .effectful (m.invoke .effectful calls) i s).lines = []) :
    (m.perform .pure (m.invoke .pure calls) i s).result =
        (m.perform .effectful (m.invoke .effectful calls) i s).result ∧
      (m.perform .pure (m.invoke .pure calls) i s).stack =
        (m.perform .effectful (m.invoke .effectful calls) i s).stack := by
  have hagree := runBlock_agreeUpTo m calls [i] s
  simp only [runBlock_cons, runBlock_nil, bind_pure_unit] at hagree
  rcases hagree with ⟨_, h⟩ | ⟨p, line, _, hline, _⟩
  · exact h
  · rw [hlines] at hline
    cases hline

theorem partAt_builtin {p q : Primitive} {line : String} {s : Stack}
    {invoke invoke' : Block → Run Unit} (hbody : m.body? p.name = none)
    (h : PartAt q line (p.exec .pure invoke s) (p.exec .effectful invoke' s)) :
    PartAt q line (m.perform .pure invoke (.run p.term) s)
      (m.perform .effectful invoke' (.run p.term) s) := by
  simp only [perform, Primitive.term, step_builtin hbody]
  exact Run.partAt_bind_of_ok rfl rfl rfl rfl h

theorem WritesFirst.partAt {b : Block} {s : Stack} {p : Primitive} {line : String}
    (h : m.WritesFirst calls b s p line) :
    PartAt p line (m.runBlock .pure calls b s) (m.runBlock .effectful calls b s) := by
  induction h with
  | here hbody hwrites =>
    obtain ⟨t, hexec⟩ := hwrites.exec
    refine Run.partAt_bind (partAt_builtin hbody ?_)
    rw [hexec, hexec]
    exact ⟨rfl, rfl⟩
  | word hbody _ ih =>
    refine Run.partAt_bind ?_
    simp only [perform, step, hbody]
    exact ih
  | block hbody hinvokes _ ih =>
    obtain ⟨after, _, hexec⟩ := hinvokes.exec
    refine Run.partAt_bind (partAt_builtin hbody ?_)
    rw [hexec, hexec]
    exact Run.partAt_bind ih
  | later hok hlines _ ih =>
    obtain ⟨hresult, hstack⟩ := perform_pure_of_quiet hlines
    exact Run.partAt_bind_of_ok (hresult.trans hok) hok hstack hlines ih

theorem WritesFirst.writes {b : Block} {s : Stack} {p : Primitive} {line : String}
    (h : m.WritesFirst calls b s p line) : p = .print ∨ p = .writeln := by
  induction h with
  | here _ hwrites =>
    cases hwrites with
    | print => exact .inl rfl
    | writeln => exact .inr rfl
  | word _ _ ih => exact ih
  | block _ _ _ ih => exact ih
  | later _ _ _ ih => exact ih

end Machine

/-- Code that writes nothing does the same where output is not allowed. If it writes lines, the word
that writes the first of them is where it stops there. -/
theorem Interpreter.runPure_agrees (i : Interpreter) (c : Code) (s : Stack) :
    ∃ written, (i.run c s).2.output = i.output ++ written ∧
      (written = [] → (i.runPure c s).result = (i.run c s).1.result ∧
        (i.runPure c s).stack = (i.run c s).1.stack) ∧
      (written ≠ [] → ∃ p line,
        i.machine.WritesFirst i.machine.limit (Block.ofCode c) s p line) ∧
      ∀ p line, i.machine.WritesFirst i.machine.limit (Block.ofCode c) s p line →
        written.head? = some line ∧ (p = .print ∨ p = .writeln) ∧
        (i.runPure c s).result = .error (.sideEffect p.name) := by
  have hagree := i.machine.runBlock_agreeUpTo i.machine.limit (Block.ofCode c) s
  simp only [Interpreter.run, Interpreter.runPure, Machine.run_eq_runBlock]
  refine ⟨_, rfl, ?_, ?_, ?_⟩
  · intro hlines
    rcases hagree with ⟨_, h⟩ | ⟨p, line, _, hline, _⟩
    · exact h
    · rw [hlines] at hline
      cases hline
  · intro hlines
    rcases hagree with ⟨hquiet, _⟩ | ⟨p, line, hfirst, _⟩
    · exact absurd hquiet hlines
    · exact ⟨p, line, hfirst⟩
  · intro p line hfirst
    obtain ⟨hline, hstop⟩ := hfirst.partAt
    exact ⟨hline, hfirst.writes, hstop⟩

/-- Knows a word that writes a line from within a quotation. -/
def Interpreter.greeting : Interpreter where
  machine := { words := [("greet", [.literal (.string "hello"),
    .quotation [Primitive.writeln.term], Primitive.apply.term])] }
  output := ["before"]

theorem Interpreter.runPure_agrees_greeting :
    (greeting.run [.literal (.int 1), .word "greet", Primitive.print.term] []).2.output =
        ["before", "hello", "1"] ∧
      greeting.machine.WritesFirst 256
        (Block.ofCode [.literal (.int 1), .word "greet", Primitive.print.term]) [] .writeln
        "hello" ∧
      (greeting.runPure [.literal (.int 1), .word "greet", Primitive.print.term] []).result =
        .error (.sideEffect "writeln") := by
  obtain ⟨_, _, _, _, hfirst⟩ :=
    greeting.runPure_agrees [.literal (.int 1), .word "greet", Primitive.print.term] []
  have hwrites : greeting.machine.WritesFirst 256
      (Block.ofCode [.literal (.int 1), .word "greet", Primitive.print.term]) [] .writeln
      "hello" := by
    refine .later rfl rfl (.word rfl ?_)
    refine .later rfl rfl (.later rfl rfl ?_)
    exact .block rfl (.apply _ _) (.here rfl (.writeln "hello" _))
  exact ⟨rfl, hwrites, (hfirst _ _ hwrites).2.2⟩

end Concatenative
