import Concatenative.Term

/-! Values: what a stack holds at run time. A quotation value is a block of instructions, which run
the terms that the quotation was written with or push values that were captured when the block was
built. -/

namespace Concatenative

mutual

inductive Value where
  | literal (l : Literal)
  | list (items : List Value)
  | quotation (block : List Instruction)

/-- One step of a block. -/
inductive Instruction where
  /-- Pushes a captured value. -/
  | push (v : Value)
  | run (t : Term)

end

/-- The body of a quotation value. -/
abbrev Block := List Instruction

/-- A stack of values, top first. -/
abbrev Stack := List Value

/-- What a value is, told apart at run time. -/
inductive TypeTag where
  | int
  | float
  | bool
  | string
  | list
  | quotation
  deriving DecidableEq

def TypeTag.text : TypeTag → String
  | .int => "Int"
  | .float => "Float"
  | .bool => "Bool"
  | .string => "String"
  | .list => "List"
  | .quotation => "Quotation"

def Literal.tag : Literal → TypeTag
  | .int _ => .int
  | .float _ => .float
  | .bool _ => .bool
  | .string _ => .string

def Value.tag : Value → TypeTag
  | .literal l => l.tag
  | .list _ => .list
  | .quotation _ => .quotation

/-- The block that runs code. -/
def Block.ofCode (c : Code) : Block := c.map .run

/-- The block that pushes a value and then goes on with the given one. -/
def Block.capture (v : Value) (b : Block) : Block := .push v :: b

/-- The block that runs one block after another. -/
def Block.andThen (first second : Block) : Block := first ++ second

mutual

/-- Whether a value is or holds a quotation. -/
def Value.hasQuotation : Value → Bool
  | .literal _ => false
  | .list items => Value.anyQuotation items
  | .quotation _ => true

def Value.anyQuotation : List Value → Bool
  | [] => false
  | v :: vs => Value.hasQuotation v || Value.anyQuotation vs

end

mutual

/-- The term that pushes a value. Lists cannot be written in a program, and neither can blocks that
captured one. -/
def Value.toTerm? : Value → Option Term
  | .literal l => some (.literal l)
  | .list _ => none
  | .quotation block => (Block.toCode? block).map .quotation

def Instruction.toTerm? : Instruction → Option Term
  | .push v => Value.toTerm? v
  | .run t => some t

/-- The code that does what a block does. -/
def Block.toCode? : Block → Option Code
  | [] => some []
  | i :: is =>
    match Instruction.toTerm? i, Block.toCode? is with
    | some t, some ts => some (t :: ts)
    | _, _ => none

end

/-- The code that builds a stack. -/
def Stack.toCode? (s : Stack) : Option Code := s.reverse.mapM Value.toTerm?

/-- Equality of literals as values: numbers of the two sorts differ, and floating-point numbers are
compared as numbers. -/
def Literal.equal : Literal → Literal → Bool
  | .int a, .int b => a = b
  | .float a, .float b => a.equal b
  | .bool a, .bool b => a = b
  | .string a, .string b => a = b
  | _, _ => false

mutual

/-- Equality of values without quotations. Only the behaviour of a quotation can be observed, so
quotations are equal to nothing. -/
def Value.equal : Value → Value → Bool
  | .literal a, .literal b => a.equal b
  | .list as, .list bs => Value.equalAll as bs
  | _, _ => false

def Value.equalAll : List Value → List Value → Bool
  | [], [] => true
  | a :: as, b :: bs => Value.equal a b && Value.equalAll as bs
  | _, _ => false

end

/-- A literal as it is shown at run time: strings stand for themselves. -/
def Literal.shown : Literal → String
  | .string s => s
  | l => l.text

/-- A block as it is shown at run time. -/
def Block.shown (b : Block) : String :=
  match b.toCode? with
  | some c => "[" ++ c.text ++ "]"
  | none => "[<closure>]"

mutual

/-- A value as it is shown at run time. -/
def Value.shown : Value → String
  | .literal l => l.shown
  | .list items => "\x7b" ++ " ".intercalate (Value.shownAll items) ++ "\x7d"
  | .quotation block => Block.shown block

def Value.shownAll : List Value → List String
  | [] => []
  | v :: vs => Value.shown v :: Value.shownAll vs

end

end Concatenative
