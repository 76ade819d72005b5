import Concatenative.Program.Basic

/-! Point-free form. A definition with parameters becomes one without: its arguments are gathered
into a list that stays on top of the stack while the body runs. A parameter is copied out of the
list, any other word runs below it, and a quotation captures the list for the time when it is run.
-/

namespace Concatenative

/-- A parameter that is used, but is too far along to be copied out of the list. -/
structure UnsupportedArity where
  definition : String
  parameter : String
  index : Nat
  deriving DecidableEq

def UnsupportedArity.message (e : UnsupportedArity) : String :=
  "definition '" ++ e.definition ++ "': parameter '" ++ e.parameter ++ "' is at index "
    ++ toString e.index ++ ", but only 10 parameters are supported"

/-- Runs a term below the list of arguments. -/
def Term.dipped (t : Term) : Code := [.quotation [t], Primitive.dip.term]

mutual

/-- The code that does what a term of a definition does when the list of its arguments is on top of
the stack. A name that is repeated among the parameters means the first of them. -/
def Term.onArguments (definition : String) (parameters : List String) :
    Term → Except UnsupportedArity Code
  | .literal l => .ok (Term.literal l).dipped
  | .word name =>
    if name = argsName then .ok [Primitive.dup.term]
    else match parameters.idxOf? name with
      | none => .ok (Term.word name).dipped
      | some i =>
        if h : i < 10 then .ok [(Primitive.arg ⟨i, h⟩).term]
        else .error ⟨definition, name, i⟩
  | .quotation body =>
    match Code.onArguments definition parameters body with
    | .error e => .error e
    | .ok code => .ok [.quotation code, Primitive.embedArgs.term]

/-- The code that does what a part of a definition's body does when the list of its arguments is on
top of the stack, and then drops that list. -/
def Code.onArguments (definition : String) (parameters : List String) :
    Code → Except UnsupportedArity Code
  | [] => .ok [Primitive.pop.term]
  | t :: ts =>
    match Term.onArguments definition parameters t with
    | .error e => .error e
    | .ok code =>
      match Code.onArguments definition parameters ts with
      | .error e => .error e
      | .ok rest => .ok (code ++ rest)

end

/-- Gathers as many arguments into a list as there are parameters. -/
def gatherArguments (parameters : List String) : Code :=
  Primitive.argList.term :: parameters.map fun _ => Primitive.swons.term

/-- The definition without parameters that does the same. -/
def Definition.pointFree (d : Definition) : Except UnsupportedArity Definition :=
  if d.isPointFree then .ok d
  else match Code.onArguments d.name d.parameters d.body with
    | .error e => .error e
    | .ok code => .ok ⟨d.name, [], gatherArguments d.parameters ++ code⟩

end Concatenative
