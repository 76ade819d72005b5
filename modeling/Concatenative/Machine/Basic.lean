import Concatenative.Machine.Exec

/-! Evaluation. A machine has a dictionary of defined words and a limit on how deeply calls of
defined words and runs of quotations may nest. Evaluation is by recursion on the number of nested
calls that are still allowed, so every run ends. -/

namespace Concatenative

/-- The bodies of the defined words; of several definitions of a word, the first counts. -/
abbrev Dictionary := List (String × Code)

structure Machine where
  words : Dictionary := []
  /-- How deeply calls and quotations may nest. -/
  limit : Nat := 256

namespace Machine

/-- The body of a defined word. -/
def body? (m : Machine) (name : String) : Option Code := m.words.lookup name

/-- Runs one term, given the way to run a block one level deeper. Defined words come before built-in
ones. -/
def step (m : Machine) (mode : Mode) (invoke : Block → Run Unit) : Term → Run Unit
  | .literal l => .push (.literal l)
  | .quotation body => .push (.quotation (Block.ofCode body))
  | .word name =>
    match m.body? name with
    | some body => invoke (Block.ofCode body)
    | none =>
      match Primitive.ofName? name with
      | some p => do
        .note name
        p.exec mode invoke
      | none => .fail (.unknownWord name)

/-- Runs one instruction of a block. -/
def perform (m : Machine) (mode : Mode) (invoke : Block → Run Unit) : Instruction → Run Unit
  | .push v => .push v
  | .run t => m.step mode invoke t

/-- Runs a block, or the body of a defined word, when that many nested calls are still allowed. -/
def invoke (m : Machine) (mode : Mode) : Nat → Block → Run Unit
  | 0, _ => .fail (.callDepthExceeded m.limit)
  | calls + 1, block => block.forM (m.perform mode (m.invoke mode calls))

/-- Runs a term when that many nested calls are allowed. -/
def evalTerm (m : Machine) (mode : Mode) (calls : Nat) (t : Term) : Run Unit :=
  m.step mode (m.invoke mode calls) t

/-- Runs code when that many nested calls are allowed. -/
def evalCode (m : Machine) (mode : Mode) (calls : Nat) (c : Code) : Run Unit :=
  c.forM (m.evalTerm mode calls)

/-- Runs code from the outermost level. -/
def run (m : Machine) (mode : Mode) (c : Code) : Run Unit := m.evalCode mode m.limit c

/-- What is known about a word before it is run. -/
inductive Declaration where
  | defined
  | primitive (signature : Signature)
  | unknown

def declaration (m : Machine) (name : String) : Declaration :=
  match m.body? name, builtinSignature? name with
  | some _, _ => .defined
  | none, some signature => .primitive signature
  | none, none => .unknown

end Machine

end Concatenative
