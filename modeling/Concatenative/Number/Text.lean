import Concatenative.Number.Shortest

/-! The text of numbers. A floating-point number is written with the fewest digits that read back,
positionally for middling magnitudes and with an exponent otherwise. -/

namespace Concatenative

/-- The choices in the text of a floating-point number. -/
structure NumberLayout where
  /-- Of two equally near decimals, take the upper one. -/
  tiesUp : Bool
  /-- The least exponent of a leading digit that is written positionally. -/
  leastPositional : Int
  /-- The greatest exponent of a leading digit that is written positionally. -/
  greatestPositional : Int

/-- Positional from `0.0001` up to, and without, `1e16`; ties go up. -/
def NumberLayout.standard : NumberLayout := ⟨true, -4, 15⟩

namespace Decimal

def zeros (n : Nat) : String := String.ofList (List.replicate n '0')

/-- With a decimal point and at least one digit on either side of it. -/
def positional (d : Decimal) : String :=
  let digits := Nat.toDigits 10 d.digits
  let point : Int := digits.length + d.exponent
  if 0 ≤ d.exponent then String.ofList digits ++ zeros d.exponent.toNat ++ ".0"
  else if 0 < point then
    String.ofList (digits.take point.toNat) ++ "." ++ String.ofList (digits.drop point.toNat)
  else "0." ++ zeros (-point).toNat ++ String.ofList digits

/-- One digit before the point, no point when there is no further digit, and the exponent. -/
def scientific (d : Decimal) : String :=
  let digits := Nat.toDigits 10 d.digits
  let exponent : Int := digits.length + d.exponent - 1
  let rest := digits.drop 1
  String.ofList (digits.take 1) ++ (if rest.isEmpty then "" else "." ++ String.ofList rest) ++ "e"
    ++ toString exponent

def text (layout : NumberLayout) (d : Decimal) : String :=
  let leading : Int := width d.digits + d.exponent - 1
  if layout.leastPositional ≤ leading ∧ leading ≤ layout.greatestPositional then d.positional
  else d.scientific

end Decimal

/-- The text of a floating-point number. No sign is written before a NaN. -/
def Binary64.text (x : Binary64) : String :=
  if x.isNaN then "NaN"
  else
    let sign := if x.negative then "-" else ""
    if x.isInfinite then sign ++ "inf"
    else if x.isZero then sign ++ "0.0"
    else
      let layout := NumberLayout.standard
      sign ++ ((RoundingInterval.of x).shortest layout.tiesUp).text layout

end Concatenative
