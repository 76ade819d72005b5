import Concatenative.Kind.Shape
import Concatenative.Name

/-! Signatures: the stack effect of a word, on its own. -/

namespace Concatenative

/-- What a word takes from the stack and what it puts in its place. -/
structure Signature where
  consumption : Shape
  production : Shape
  /-- Whether running the word does more than change the stack. -/
  effects : Bool := false
  deriving DecidableEq

/-- A variable at the top level of a production that the consumption does not introduce. -/
structure IllTyped where
  culprit : Variable
  signature : Signature

namespace Signature

/-- The signature whose shapes are listed from the bottom of the stack up, as it is written. -/
def ofBottomUp (takes leaves : List Kind) (effects : Bool := false) : Signature :=
  ⟨Shape.ofBottomUp takes, Shape.ofBottomUp leaves, effects⟩

/-- The signature as the kind of a quotation. -/
def kind (f : Signature) : Kind := .function f.consumption f.production f.effects

def text (f : Signature) : String := f.kind.text

/-- The number of slots taken when the rest of the stack is left alone. -/
def taken? (f : Signature) : Option Nat := f.consumption.depth? f.production

/-- The number of slots put on top of the rest of the stack when that is left alone. -/
def left? (f : Signature) : Option Nat := f.production.depth? f.consumption

/-- The names of all variables of the consumption, of either sort and at any depth. -/
def introduced (f : Signature) : List String := f.consumption.variables.map (·.name)

/-- The first variable at the top level of the production whose name the consumption does not
introduce. A `self` in the consumption carries all of its variables with it. -/
def unintroduced? (f : Signature) : Option Variable :=
  if .self ∈ f.consumption then none
  else f.production.findSome? fun k =>
    k.toVar?.filter fun v => v.name ∉ f.introduced

/-- The verdict on a signature. -/
def check (f : Signature) : Except IllTyped Unit :=
  match f.unintroduced? with
  | some v => .error ⟨v, f⟩
  | none => .ok ()

/-- Puts one fresh stack variable under both shapes, unless the consumption is already open. -/
def opened (f : Signature) (names : NameSupply) : Signature × NameSupply :=
  if f.consumption.isOpen then (f, names)
  else
    let (name, names) := names.fresh "a"
    let rest := Kind.var ⟨.stack, name⟩
    ({ f with
        consumption := f.consumption.pushBottom rest
        production := f.production.pushBottom rest }, names)

end Signature

def IllTyped.message (e : IllTyped) : String :=
  "ill-typed function " ++ e.signature.text ++ ": " ++ e.culprit.text
    ++ " appears in production and not in consumption"

end Concatenative
