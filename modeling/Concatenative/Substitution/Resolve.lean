import Concatenative.Name
import Concatenative.Substitution.Basic

/-! Resolution replaces the bound variables of a kind by what they are bound to, all the way down,
and gives the other variables fresh names. The kinds that are being resolved form a path; a kind
that is met again on its own path is left as it is, so cyclic bindings do no harm. Every step down
puts a new kind on the path, and all of them are parts of the kind or of a binding, so their number
bounds the depth. -/

namespace Concatenative

/-- A vector that stands outside a function. -/
structure BareVector where
  items : Shape
  deriving DecidableEq

def BareVector.message (e : BareVector) : String :=
  "internal error: bare type vector \x7b" ++ e.items.text
    ++ "\x7d reached the unifier outside a function type"

/-- A binding that was followed. -/
structure Dereference where
  source : Variable
  binding : Kind
  deriving DecidableEq

/-- What resolution has done so far. -/
structure Progress where
  names : NameSupply
  /-- The variables without a binding that were met, with their new names. -/
  renamed : List (Variable × String) := []
  /-- The bindings that were followed, newest first. -/
  followed : List Dereference := []

namespace Substitution

/-- The fresh variable for a variable without a binding: one and the same at every occurrence, and
with a name that is not reserved. -/
def freshen (reserved : List String) (v : Variable) : StateM Progress Kind := fun p =>
  match p.renamed.lookup v with
  | some name => (.var ⟨v.sort, name⟩, p)
  | none =>
    let (name, names) := p.names.freshAvoiding v.name reserved
    (.var ⟨v.sort, name⟩, { p with names, renamed := (v, name) :: p.renamed })

/-- Notes that a binding is followed. -/
def follow (v : Variable) (binding : Kind) : StateM Progress Unit :=
  modify fun p => { p with followed := ⟨v, binding⟩ :: p.followed }

/-- Resolves a kind inside a function, below the kinds of a path. -/
def resolveWithin (u : Substitution) (reserved : List String) :
    Nat → List Kind → Kind → StateM Progress Kind
  | 0, _, k => return k
  | depth + 1, path, k =>
    if k ∈ path then return k
    else
      let below := u.resolveWithin reserved depth (k :: path)
      match k with
      | .self => return .self
      | .named name => return .named name
      | .var v =>
        match u.find? v.name with
        | none => freshen reserved v
        | some binding => do
          follow v binding
          below binding
      | .function consumption production effects => do
        let consumption ← consumption.mapM below
        let production ← production.mapM below
        return .function consumption production effects
      | .vector items => do
        let items ← items.mapM below
        return .vector items

/-- Resolves a kind that is not inside a function, below the variables of a path. -/
def resolveOuter (u : Substitution) (reserved : List String) :
    Nat → List Kind → Kind → StateM Progress (Except BareVector Kind)
  | 0, _, k => return .ok k
  | depth + 1, path, k =>
    if k ∈ path then return .ok k
    else match k with
      | .var v =>
        match u.find? v.name with
        | none => return .ok (← freshen reserved v)
        | some binding => do
          follow v binding
          u.resolveOuter reserved depth (k :: path) binding
      | .vector items => return .error ⟨items⟩
      | k => return .ok (← u.resolveWithin reserved (depth + 1) path k)

/-- The names that a fresh variable must not have. -/
def reserved (u : Substitution) (k : Kind) : List String :=
  u.names ++ k.variables.map (·.name)

/-- More than the number of kinds on any path. -/
def depthBound (u : Substitution) (k : Kind) : Nat := u.size + k.size + 1

/-- Resolves a kind. A vector has no meaning by itself, and a kind that leads to one is refused. -/
def resolve (u : Substitution) (k : Kind) (names : NameSupply) :
    Except BareVector Kind × Progress :=
  (u.resolveOuter (u.reserved k) (u.depthBound k) [] k).run { names }

end Substitution

end Concatenative
