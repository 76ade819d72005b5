import Concatenative.Event
import Concatenative.Machine.Basic

/-! Folding: the parts of code that can be run ahead of time are replaced by what they compute.
Terms are run one after another on a private stack that starts out empty. When a term cannot be
run, the code for that stack is written, then the term, and folding starts again behind it. Where a
value on the stack has no code, the last stack that had code is written, and then the terms that
ran since. -/

namespace Concatenative

/-- The terms that have been run since folding last started. -/
structure Segment where
  stack : Stack := []
  /-- The code of the last stack that had code. -/
  folded : Code := []
  /-- The terms that ran since then. -/
  pending : Code := []

namespace Segment

/-- The code that does what the terms of the segment do. -/
def code (s : Segment) : Code := s.folded ++ s.pending

/-- The segment after a further term that left a stack. -/
def extend (s : Segment) (t : Term) (stack : Stack) : Segment :=
  match stack.toCode? with
  | some code => ⟨stack, code, []⟩
  | none => { s with stack := stack, pending := s.pending ++ [t] }

end Segment

namespace Machine

/-- Runs one term without output. -/
def execute (m : Machine) (t : Term) (s : Stack) : Outcome Unit := m.evalTerm .pure m.limit t s

/-- Why a term is not even tried. -/
def refusal? (m : Machine) : Term → Option Fault
  | .word name =>
    match m.declaration name with
    | .defined => none
    | .primitive signature => if signature.effects then some (.sideEffect name) else none
    | .unknown => some (.missingType name)
  | _ => none

/-- Tries to run a term ahead of time. -/
def attempt (m : Machine) (t : Term) (s : Stack) : Logged (Except Fault Stack) :=
  match m.refusal? t with
  | some fault => ⟨.error fault, []⟩
  | none =>
    let o := m.execute t s
    match o.result with
    | .ok () => ⟨.ok o.stack, o.events⟩
    | .error e => ⟨.error e.fault, o.events⟩

mutual

/-- Folds the body of a quotation; other terms stay as they are. -/
def foldTerm (m : Machine) : Term → Logged Term
  | .quotation body => do return .quotation (← m.foldFrom {} body)
  | .word name => return .word name
  | .literal l => return .literal l

/-- Folds code that follows the terms of a segment. -/
def foldFrom (m : Machine) (s : Segment) : Code → Logged Code
  | [] => return s.code
  | t :: ts => do
    let t' ← m.foldTerm t
    match ← m.attempt t' s.stack with
    | .ok stack => m.foldFrom (s.extend t' stack) ts
    | .error fault =>
      .report (.boundary t' fault)
      return s.code ++ t' :: (← m.foldFrom {} ts)

end

/-- Folds code. -/
def fold (m : Machine) (c : Code) : Logged Code := m.foldFrom {} c

/-- Folds the body of a definition. -/
def foldDefinition (m : Machine) (d : Definition) : Logged Definition := do
  let body ← m.fold d.body
  .report (.folded d.name d.body.length body.length)
  return { d with body }

end Machine

end Concatenative
