import Concatenative.Machine.Basic

/-! Evaluation one step at a time, with a counter of nested calls. What is left to do stands in a
list, the next first. A block counts up before its instructions are run and down again after them,
also if one of them has failed; else nothing is begun any more after a failure. -/

namespace Concatenative

/-- The outcome of one run after another; a failure ends the whole. -/
def Outcome.andThen (o : Outcome Unit) (next : Run Unit) : Outcome Unit :=
  match o.result with
  | .error _ => o
  | .ok () =>
    let o' := next o.stack
    ⟨o'.result, o'.stack, o.lines ++ o'.lines, o.calls ++ o'.calls⟩

/-- The block that a built-in word runs when it is called on a stack, a value that it puts back
after that, and the stack that the block is run on. -/
def Primitive.invoked? : Primitive → Stack → Option (Block × Option Value × Stack)
  | .apply, .quotation b :: s => some (b, none, s)
  | .dip, .quotation b :: saved :: s => some (b, some saved, s)
  | .choose, .quotation otherwise :: .quotation b :: .literal (.bool condition) :: s =>
    some (if condition then b else otherwise, none, s)
  | _, _ => none

/-- What is begun and comes to an end. -/
inductive Activity where
  /-- Running instructions one after the other. -/
  | sequence (instructions : Block)
  /-- Calling a word by its name. -/
  | call (name : String)
  /-- Running a block, or the body of a defined word, one level deeper. -/
  | block (b : Block)

/-- What is left to do. -/
inductive Pending where
  | start (a : Activity)
  /-- Coming back from a block. -/
  | ascend
  /-- Putting back a value. -/
  | restore (v : Value)

/-- The state of an evaluation. -/
structure Execution where
  pending : List Pending
  /-- How many calls are nested. -/
  depth : Nat
  /-- The outcome of what has been run so far. -/
  outcome : Outcome Unit

namespace Execution

/-- Code is to be run on a stack, from the outermost level. -/
def ofCode (c : Code) (s : Stack) : Execution :=
  { pending := [.start (.sequence (Block.ofCode c))], depth := 0
    outcome := { result := .ok (), stack := s } }

/-- Puts something before all that is left to do. -/
def plan (x : Execution) (items : List Pending) : Execution :=
  { x with pending := items ++ x.pending }

/-- Runs something that takes no further steps. -/
def perform (x : Execution) (r : Run Unit) : Execution := { x with outcome := x.outcome.andThen r }

def withStack (x : Execution) (s : Stack) : Execution :=
  { x with outcome := { x.outcome with stack := s } }

/-- Goes one level deeper, if that is allowed. -/
def descend (m : Machine) (b : Block) (x : Execution) : Execution :=
  if x.depth < m.limit then { x with depth := x.depth + 1 }.plan [.start (.sequence b), .ascend]
  else x.perform (.fail (.callDepthExceeded m.limit))

/-- Calls a built-in word. -/
def callBuiltin (mode : Mode) (p : Primitive) (x : Execution) : Execution :=
  let x := x.perform (.note p.name)
  match p.invoked? x.outcome.stack with
  | some (b, saved, s) =>
    (x.withStack s).plan (.start (.block b) :: saved.toList.map .restore)
  | none => x.perform (p.exec mode fun _ => pure ())

/-- Runs one instruction. -/
def beginInstruction (x : Execution) : Instruction → Execution
  | .push v => x.perform (.push v)
  | .run (.literal l) => x.perform (.push (.literal l))
  | .run (.quotation body) => x.perform (.push (.quotation (Block.ofCode body)))
  | .run (.word name) => x.plan [.start (.call name)]

/-- The first step of an activity. -/
def begun (m : Machine) (mode : Mode) (x : Execution) : Activity → Execution
  | .sequence [] => x
  | .sequence (i :: rest) => (x.plan [.start (.sequence rest)]).beginInstruction i
  | .call name =>
    match m.body? name with
    | some body => x.plan [.start (.block (Block.ofCode body))]
    | none =>
      match Primitive.ofName? name with
      | some p => x.callBuiltin mode p
      | none => x.perform (.fail (.unknownWord name))
  | .block b => x.descend m b

/-- One step, if anything is left to do. -/
def step (m : Machine) (mode : Mode) (x : Execution) : Option Execution :=
  match x.pending with
  | [] => none
  | .ascend :: rest => some { x with pending := rest, depth := x.depth - 1 }
  | .restore v :: rest => some ({ x with pending := rest }.perform (.push v))
  | .start a :: rest =>
    match x.outcome.result with
    | .error _ => some { x with pending := rest }
    | .ok () => some ({ x with pending := rest }.begun m mode a)

/-- The state after a number of steps, or the last state if there are fewer. -/
def after (m : Machine) (mode : Mode) : Nat → Execution → Execution
  | 0, x => x
  | n + 1, x =>
    match x.step m mode with
    | some y => after m mode n y
    | none => x

end Execution

end Concatenative
