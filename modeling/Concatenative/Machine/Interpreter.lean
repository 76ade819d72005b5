import Concatenative.Machine.Basic
import Concatenative.Program.PointFree

/-! An interpreter is a machine whose words come from definitions, with the output written so far.
-/

namespace Concatenative

/-- The machine with a word defined, or defined anew. -/
def Machine.define (m : Machine) (d : Definition) : Except UnsupportedArity Machine :=
  match d.pointFree with
  | .error e => .error e
  | .ok d' => .ok { m with words := (d'.name, d'.body) :: m.words }

/-- The machine with every word of a program defined, in order. -/
def Machine.defineAll (m : Machine) : Program → Except UnsupportedArity Machine
  | [] => .ok m
  | d :: ds =>
    match m.define d with
    | .error e => .error e
    | .ok m' => m'.defineAll ds

/-- The machine that knows the words of a program. -/
def Machine.ofProgram (p : Program) : Except UnsupportedArity Machine := Machine.defineAll {} p

structure Interpreter where
  machine : Machine := {}
  /-- The lines written so far, oldest first. -/
  output : List String := []

namespace Interpreter

/-- Runs code on a stack; the lines that it writes are kept, also when it fails. -/
def run (i : Interpreter) (c : Code) (s : Stack) : Outcome Unit × Interpreter :=
  let o := i.machine.run .effectful c s
  (o, { i with output := i.output ++ o.lines })

/-- Runs code on a stack where output is not allowed. -/
def runPure (i : Interpreter) (c : Code) (s : Stack) : Outcome Unit := i.machine.run .pure c s

/-- Takes the lines written so far out of the interpreter. -/
def takeOutput (i : Interpreter) : List String × Interpreter := (i.output, { i with output := [] })

end Interpreter

end Concatenative
