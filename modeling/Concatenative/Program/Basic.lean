import Concatenative.Machine.Primitive

/-! Definitions and programs. A definition may name its parameters, and its body may then refer to
them, and to the list of all of them, by name. -/

namespace Concatenative

/-- The word that stands for the list of all arguments in a definition with parameters. -/
def argsName : String := "args"

structure Definition where
  name : String
  /-- The first parameter lies deepest on the stack. -/
  parameters : List String := []
  body : Code
  deriving DecidableEq

abbrev Program := List Definition

namespace Definition

/-- A definition without parameters runs on the stack alone. -/
def isPointFree (d : Definition) : Bool := d.parameters.isEmpty

def text (d : Definition) : String :=
  let parameters :=
    if d.parameters.isEmpty then "" else "(" ++ " ".intercalate d.parameters ++ ") "
  "define " ++ d.name ++ " " ++ parameters ++ "\x7b " ++ d.body.text ++ " \x7d"

/-- The words that a definition gives a meaning to in its own body. -/
def binds (d : Definition) (name : String) : Bool :=
  name ∈ d.parameters || name = argsName && !d.parameters.isEmpty

end Definition

/-- A word that nothing gives a meaning to. -/
structure UndefinedWord where
  word : String
  definition : String
  deriving DecidableEq

def UndefinedWord.message (e : UndefinedWord) : String :=
  "Undefined word '" ++ e.word ++ "' called in definition '" ++ e.definition ++ "'"

namespace Program

def isPointFree (p : Program) : Bool := p.all Definition.isPointFree

/-- The first definition of a name. -/
def find? (p : Program) (name : String) : Option Definition := List.find? (·.name = name) p

/-- Whether a word has a meaning in the body of a definition. -/
def knows (p : Program) (d : Definition) (name : String) : Bool :=
  (builtinSignature? name).isSome || (p.find? name).isSome || d.binds name

/-- The first word without a meaning, definition by definition and from left to right. -/
def undefinedWord? (p : Program) : Option UndefinedWord :=
  p.findSome? fun d =>
    (d.body.words.find? fun name => !p.knows d name).map fun name => ⟨name, d.name⟩

/-- Checks that every word has a meaning where it is called. -/
def checkWords (p : Program) : Except UndefinedWord Unit :=
  match p.undefinedWord? with
  | some e => .error e
  | none => .ok ()

end Program

end Concatenative
