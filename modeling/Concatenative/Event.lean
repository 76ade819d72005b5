import Concatenative.Machine.Run
import Concatenative.Kind.Text
import Concatenative.Program.Basic

/-! Events: what the library reports about its work. -/

namespace Concatenative

/-- How much detail an event belongs to. -/
inductive Level where
  | info
  | debug
  | trace
  deriving DecidableEq

def Level.rank : Level → Nat
  | .info => 0
  | .debug => 1
  | .trace => 2

def Level.text : Level → String
  | .info => "INFO"
  | .debug => "DEBUG"
  | .trace => "TRACE"

inductive Event where
  /-- A definition was brought into point-free form. -/
  | converted (definition : Definition)
  /-- A kind was resolved. -/
  | inferred (kind resolved : Kind)
  /-- A variable was replaced by what it is bound to. -/
  | dereferenced (v : Variable) (binding : Kind)
  /-- A term could not be run ahead of time. -/
  | boundary (term : Term) (fault : Fault)
  /-- The body of a definition was folded; its lengths before and after. -/
  | folded (definition : String) (before after : Nat)
  /-- A built-in word is about to be called. -/
  | called (call : Call)

namespace Event

def level : Event → Level
  | converted _ | inferred _ _ => .info
  | dereferenced _ _ | boundary _ _ | folded _ _ _ => .debug
  | called _ => .trace

def message : Event → String
  | converted _ => "point-free conversion"
  | inferred _ _ => "inferred type"
  | dereferenced _ _ => "dereferencing"
  | boundary _ _ => "fold boundary"
  | folded _ _ _ => "folded definition"
  | called _ => "primitive"

/-- The particulars of an event, by name. -/
def fields : Event → List (String × String)
  | converted d => [("definition", d.name), ("body", d.body.text)]
  | inferred kind resolved => [("kind", kind.text), ("inferred", resolved.text)]
  | dereferenced v binding => [("var", v.text), ("binding", binding.text)]
  | boundary term fault => [("term", term.text), ("fault", fault.message)]
  | folded definition before after =>
    [("definition", definition), ("before", toString before), ("after", toString after)]
  | called call => [("word", call.word), ("depth", toString call.depth)]

/-- Whether an event is of a level or of less detail. -/
def within (e : Event) (level : Level) : Bool := e.level.rank ≤ level.rank

end Event

/-- A value together with the events on the way to it, oldest first. -/
structure Logged (α : Type) where
  value : α
  events : List Event := []

namespace Logged

variable {α β : Type}

def bind (x : Logged α) (f : α → Logged β) : Logged β :=
  let y := f x.value
  ⟨y.value, x.events ++ y.events⟩

instance : Monad Logged where
  pure a := ⟨a, []⟩
  bind := Logged.bind

def report (e : Event) : Logged Unit := ⟨(), [e]⟩

/-- Reports an event if a flag asks for it. -/
def reportIf (flag : Bool) (e : Event) : Logged Unit := ⟨(), if flag then [e] else []⟩

end Logged

/-- The events of the calls of built-in words. -/
def Outcome.events {α : Type} (o : Outcome α) : List Event := o.calls.map .called

end Concatenative
