/-! Fresh names. A generated name is a stem, a dollar sign and a number; the numbers come from a
counter that only grows, so no supply gives out a number twice. A counter of 64 bits starts over
after its last number. That is left out here; `NameSearch` searches with such a counter. -/

namespace Concatenative

/-- The part of a name before its first dollar sign: a generated name has the stem of the name it
was made from. -/
def nameStem (name : String) : String :=
  String.ofList (name.toList.takeWhile (· ≠ '$'))

/-- The generated name with a stem and a number. -/
def generatedName (stem : String) (number : Nat) : String :=
  stem ++ "$" ++ toString number

/-- A counter of generated names, without bound: `next` is the first number not given out. -/
structure NameSupply where
  next : Nat := 0
  deriving DecidableEq

namespace NameSupply

/-- Gives out a bare number. -/
def takeNumber (names : NameSupply) : Nat × NameSupply :=
  (names.next, ⟨names.next + 1⟩)

/-- Gives out a name with the stem of `base`. -/
def fresh (names : NameSupply) (base : String) : String × NameSupply :=
  (generatedName (nameStem base) names.next, ⟨names.next + 1⟩)

/-- Tries the numbers from `number` on, giving up those whose names are reserved, for at most
`tries` failures. -/
def freshFrom (stem : String) (reserved : List String) : Nat → Nat → String × NameSupply
  | 0, number => (generatedName stem number, ⟨number + 1⟩)
  | tries + 1, number =>
    if generatedName stem number ∈ reserved then freshFrom stem reserved tries (number + 1)
    else (generatedName stem number, ⟨number + 1⟩)

/-- Gives out a name with the stem of `base` that is not reserved. Distinct numbers give distinct
names, so as many failures as there are reserved names are enough. -/
def freshAvoiding (names : NameSupply) (base : String) (reserved : List String) :
    String × NameSupply :=
  freshFrom (nameStem base) reserved reserved.length names.next

end NameSupply

end Concatenative
