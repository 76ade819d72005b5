import Concatenative.Kind.Basic

/-! The text of kinds. Shapes are written from the bottom of the stack up, so that the top of the
stack stands next to the arrow's end of its side, as signatures are usually written. -/

namespace Concatenative

/-- The arrow of a stack effect shows whether it has effects besides those on the stack. -/
def arrowText (effects : Bool) : String :=
  if effects then "~~" else "--"

/-- A shape whose entries have the given texts, top first. -/
def shapeText (entries : List String) : String :=
  " ".intercalate entries.reverse

/-- A stack effect whose shapes have entries with the given texts. A side without entries leaves no
blank behind. -/
def effectText (consumption production : List String) (effects : Bool) : String :=
  let side (entries : List String) := if entries.isEmpty then [] else [shapeText entries]
  " ".intercalate ("(" :: side consumption ++ arrowText effects :: side production ++ [")"])

mutual

def Kind.text : Kind → String
  | .self => "self"
  | .named n => n
  | .var v => v.text
  | .function c p e => effectText (Shape.texts c) (Shape.texts p) e
  | .vector items => "\x7b" ++ shapeText (Shape.texts items) ++ "\x7d"

/-- The texts of the entries of a shape, top first. -/
def Shape.texts : Shape → List String
  | [] => []
  | k :: ks => Kind.text k :: Shape.texts ks

end

def Shape.text (s : Shape) : String := shapeText s.texts

end Concatenative
