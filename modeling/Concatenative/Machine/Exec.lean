import Concatenative.Machine.Primitive
import Concatenative.Machine.Run

/-! What the built-in words do. A word that runs a quotation is given the way to run one. -/

namespace Concatenative

/-- Whether output may be written. -/
inductive Mode where
  | effectful
  | pure
  deriving DecidableEq

namespace Run

/-- Writes a line of output for a word, where that is allowed. -/
def emit (mode : Mode) (op line : String) : Run Unit :=
  match mode with
  | .effectful => write line
  | .pure => fail (.sideEffect op)

/-- Replaces two integers by a value computed from them, the lower one first. -/
def onInts (op : String) (f : Int64 → Int64 → Run Literal) : Run Unit := do
  let b ← popInt op
  let a ← popInt op
  push (.literal (← f a b))

/-- Replaces two truth values by one. -/
def onBools (op : String) (f : Bool → Bool → Bool) : Run Unit := do
  let b ← popBool op
  let a ← popBool op
  push (.literal (.bool (f a b)))

end Run

open Run

/-- Runs a built-in word. Integers wrap around; a quotient is rounded toward zero, and a remainder
has the sign of the dividend. -/
def Primitive.exec (mode : Mode) (invoke : Block → Run Unit) (p : Primitive) : Run Unit :=
  let op := p.name
  match p with
  | .add => onInts op fun a b => return .int (a + b)
  | .sub => onInts op fun a b => return .int (a - b)
  | .mul => onInts op fun a b => return .int (a * b)
  | .div => onInts op fun a b => if b = 0 then fail (.divisionByZero op) else return .int (a / b)
  | .mod => onInts op fun a b => if b = 0 then fail (.divisionByZero op) else return .int (a % b)
  | .eq => do
    need op 2
    let b ← popPlain op
    let a ← popPlain op
    push (.literal (.bool (a.equal b)))
  | .lt => onInts op fun a b => return .bool (a < b)
  | .gt => onInts op fun a b => return .bool (b < a)
  | .and => onBools op fun a b => a && b
  | .or => onBools op fun a b => a || b
  | .not => do
    let a ← popBool op
    push (.literal (.bool !a))
  | .concat => do
    let b ← popString op
    let a ← popString op
    push (.literal (.string (a ++ b)))
  | .dup => do
    let v ← Run.pop op
    push v
    push v
  | .pop => do
    let _ ← Run.pop op
  | .swap => do
    let (a, b) ← popTwo op
    push b
    push a
  | .print => do
    let v ← popPlain op
    emit mode op v.shown
  | .writeln => do
    let line ← popString op
    emit mode op line
  | .apply => do
    let block ← popQuotation op
    invoke block
  | .dip => do
    let block ← popQuotation op
    let saved ← Run.pop op
    invoke block
    push saved
  | .choose => do
    let otherwise ← popQuotation op
    let block ← popQuotation op
    let condition ← popBool op
    invoke (if condition then block else otherwise)
  | .compose => do
    let second ← popQuotation op
    let first ← popQuotation op
    push (.quotation (first.andThen second))
  | .argList => push (.list [])
  | .swons => do
    let items ← popList op
    let v ← Run.pop op
    push (.list (v :: items))
  | .embedArgs => do
    let block ← popQuotation op
    let items ← popList op
    push (.quotation (block.capture (.list items)))
    push (.list items)
  | .arg i => do
    let items ← popList op
    match items[i.val]? with
    | some v =>
      push v
      push (.list items)
    | none => fail (.indexOutOfRange op i.val items.length)

end Concatenative
