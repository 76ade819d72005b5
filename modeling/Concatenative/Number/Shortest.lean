import Concatenative.Number.Binary64

/-! The shortest decimal that reads back as a given binary64 number. A positive finite number is the
middle of an interval of reals that round to it. The decimals with one significant digit are tried
first, then those with two, and so on: on each grid only the two neighbours of the number can be
nearest to it, and the first grid that has a neighbour in the interval gives the digits. -/

namespace Concatenative

/-- The number `digits * 10 ^ exponent`. -/
structure Decimal where
  digits : Nat
  exponent : Int
  deriving DecidableEq, Repr

namespace Decimal

/-- The number of decimal digits of `n`. -/
def width (n : Nat) : Nat := (Nat.toDigits 10 n).length

/-- Moves a last digit zero into the exponent. -/
def trim (d : Decimal) : Decimal :=
  if d.digits % 10 = 0 then ⟨d.digits / 10, d.exponent + 1⟩ else d

end Decimal

/-- The reals that round to a number: from `lower` to `upper` around `middle`, all three counted in
units of `2 ^ power`. The ends belong to it when it is `closed`. -/
structure RoundingInterval where
  lower : Nat
  middle : Nat
  upper : Nat
  power : Int
  closed : Bool

namespace RoundingInterval

/-- The interval of a positive finite number. Below a power of two the neighbours are twice as
dense, except at the least exponent. -/
def of (x : Binary64) : RoundingInterval where
  lower := 4 * x.significand - (if x.fraction = 0 ∧ 1 < x.exponent then 1 else 2)
  middle := 4 * x.significand
  upper := 4 * x.significand + 2
  power := x.power - 2
  closed := x.significand % 2 = 0

/-- `units * 2 ^ power` and the decimal `n * 10 ^ p` become natural numbers when both are
multiplied by the same power of two and of ten: this is the first of the two. -/
def scaled (i : RoundingInterval) (p : Int) (units : Nat) : Nat :=
  units * Nat.pow 2 i.power.toNat * Nat.pow 10 (-p).toNat

/-- The second of the two numbers that `scaled` speaks of. -/
def scaledDecimal (i : RoundingInterval) (p : Int) (n : Nat) : Nat :=
  n * Nat.pow 10 p.toNat * Nat.pow 2 (-i.power).toNat

/-- Whether the decimal `n * 10 ^ p` rounds to the number. -/
def holds (i : RoundingInterval) (p : Int) (n : Nat) : Bool :=
  let d := i.scaledDecimal p n
  let lower := i.scaled p i.lower
  let upper := i.scaled p i.upper
  if i.closed then lower ≤ d && d ≤ upper else lower < d && d < upper

/-- The nearest decimal with the unit `10 ^ p` that rounds to the number, if there is one. When two
are equally near, the upper one is taken if `tiesUp` and the lower one otherwise. -/
def nearest? (i : RoundingInterval) (tiesUp : Bool) (p : Int) : Option Decimal :=
  let unit := i.scaledDecimal p 1
  let middle := i.scaled p i.middle
  let below := middle / unit
  let rest := 2 * (middle % unit)
  match i.holds p below, i.holds p (below + 1) with
  | true, true =>
    let up := if tiesUp then unit ≤ rest else unit < rest
    some ⟨if up then below + 1 else below, p⟩
  | true, false => some ⟨below, p⟩
  | false, true => some ⟨below + 1, p⟩
  | false, false => none

/-- The exponent of the leading decimal digit of the middle. -/
def leading (i : RoundingInterval) : Int :=
  let num := i.scaled 0 i.middle
  let den := i.scaledDecimal 0 1
  if den ≤ num then Decimal.width (num / den) - 1
  else -(Decimal.width ((den + num - 1) / num - 1) : Int)

/-- The first grid with a decimal that rounds to the number. Seventeen digits always suffice. -/
def shortest (i : RoundingInterval) (tiesUp : Bool) : Decimal :=
  let found := (List.range 17).findSome? fun (n : Nat) => i.nearest? tiesUp (i.leading - n)
  (found.getD ⟨i.middle, i.power⟩).trim

end RoundingInterval

end Concatenative
