import Concatenative.Kind.Text

/-! Operations on stack shapes. -/

namespace Concatenative.Shape

/-- The shape whose kinds are listed from the bottom of the stack up. -/
def ofBottomUp (kinds : List Kind) : Shape := kinds.reverse

def pushTop (k : Kind) (s : Shape) : Shape := k :: s

/-- Puts a kind underneath all others. -/
def pushBottom (s : Shape) (k : Kind) : Shape := s ++ [k]

def top? (s : Shape) : Option Kind := s.head?

def bottom? (s : Shape) : Option Kind := s.getLast?

/-- The stack variable at the bottom, if the shape is open. -/
def rest? (s : Shape) : Option String := s.bottom?.bind Kind.stackVar?

/-- An open shape ends in a stack variable, which stands for all that lies below. -/
def isOpen (s : Shape) : Bool := s.rest?.isSome

/-- The number of slots above the stack variable. It is defined when a stack variable stands
nowhere but at the bottom and the other side of the effect has the same one there: then the rest of
the stack is left alone. -/
def depth? (s other : Shape) : Option Nat :=
  match s.findIdx? fun k => k.stackVar?.isSome with
  | none => some s.length
  | some i => if i + 1 = s.length ∧ other.bottom? = s.bottom? then some i else none

end Concatenative.Shape
