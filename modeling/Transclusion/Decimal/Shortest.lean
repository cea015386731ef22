import Transclusion.Decimal.Binary

namespace Transclusion

/-- The positive number `digits * 10 ^ exponent`. -/
structure Decimal where
  digits : Nat
  exponent : Int
deriving DecidableEq, Repr

namespace Decimal

/-- Compares `num / den` with the decimal. -/
def compareRatio (num den : Nat) (d : Decimal) : Ordering :=
  if 0 ≤ d.exponent then compare num (d.digits * Nat.pow 10 d.exponent.toNat * den)
  else compare (num * Nat.pow 10 (-d.exponent).toNat) (d.digits * den)

/-- The decimal lies among the reals that round to `mantissa * 2 ^ exponent`: between the midpoints to
the two neighbours, which belong to an even mantissa. Below a power of two the neighbour is half as
far away. -/
def roundsTo (mantissa : Nat) (exponent : Int) (d : Decimal) : Bool :=
  let narrow := mantissa = Nat.pow 2 (Binary64.mantissaBits - 1) && Binary64.minExponent < exponent
  let (lowNum, lowDen) :=
    Binary64.scaled (if narrow then 4 * mantissa - 1 else 4 * mantissa - 2) 4 (-exponent)
  let (highNum, highDen) := Binary64.scaled (4 * mantissa + 2) 4 (-exponent)
  let low := compareRatio lowNum lowDen d
  let high := compareRatio highNum highDen d
  if mantissa % 2 = 0 then low ≠ .gt && high ≠ .lt else low = .lt && high = .gt

/-- Which of two decimals is taken that are equally near to a number. -/
inductive Tie
  | up
  | even
deriving DecidableEq, Repr

/-- The decimal on the grid of `10 ^ place` that rounds to the number and is nearest to it, if there
is one. -/
def onGrid? (tie : Tie) (mantissa : Nat) (exponent place : Int) : Option Decimal :=
  let (num, den) := Binary64.scaled mantissa 1 (-exponent)
  let (num, den) :=
    if 0 ≤ place then (num, den * Nat.pow 10 place.toNat)
    else (num * Nat.pow 10 (-place).toNat, den)
  let floor : Decimal := ⟨num / den, place⟩
  let ceiling : Decimal := ⟨num / den + 1, place⟩
  let upper := roundsTo mantissa exponent ceiling
  let lower := 0 < floor.digits && roundsTo mantissa exponent floor
  let above := match compare (2 * (num % den)) den with
    | .lt => false
    | .eq => tie = .up || floor.digits % 2 = 1
    | .gt => true
  if upper && (!lower || above) then some ceiling
  else if lower then some floor
  else none

/-- The first grid from `place` downwards that holds a decimal for the number. -/
def firstGrid (tie : Tie) (mantissa : Nat) (exponent : Int) : Nat → Int → Decimal
  | 0, _ => ⟨mantissa, 0⟩
  | tries + 1, place =>
    match onGrid? tie mantissa exponent place with
    | some d => d
    | none => firstGrid tie mantissa exponent tries (place - 1)

/-- Drops zeros at the end of the digits. -/
def dropZeros : Nat → Decimal → Decimal
  | 0, d => d
  | tries + 1, d =>
    if d.digits % 10 = 0 && d.digits ≠ 0 then dropZeros tries ⟨d.digits / 10, d.exponent + 1⟩ else d

/-- The decimal with the fewest digits that rounds to the positive number `mantissa * 2 ^ exponent`, and
of those the nearest. Twenty places below the leading one are more than double precision needs. -/
def shortest (tie : Tie) (mantissa : Nat) (exponent : Int) : Decimal :=
  let (num, den) := Binary64.scaled mantissa 1 (-exponent)
  let leading : Int :=
    if den ≤ num then (Nat.toDigits 10 (num / den)).length
      else 1 - ((Nat.toDigits 10 (den / num)).length : Int)
  dropZeros 20 (firstGrid tie mantissa exponent 24 (leading + 1))

end Decimal

/-- When a number is written with an exponent, from `10 ^ highest` on or below `10 ^ lowest`, and which
of two equally near decimals is written. -/
structure DecimalLayout where
  lowest : Int
  highest : Int
  tie : Decimal.Tie
deriving DecidableEq, Repr

namespace DecimalLayout

/-- The text of `digits * 10 ^ exponent`, at least one digit on either side of a point unless an
exponent is written. -/
def text (layout : DecimalLayout) (d : Decimal) : String :=
  let digits := Nat.toDigits 10 d.digits
  let point : Int := digits.length + d.exponent
  if point - 1 < layout.lowest || layout.highest ≤ point - 1 then
    let fraction := match digits.drop 1 with
      | [] => []
      | more => '.' :: more
    String.ofList (digits.take 1 ++ fraction) ++ "e" ++ toString (point - 1)
  else if point ≤ 0 then "0." ++ String.ofList (List.replicate (-point).toNat '0' ++ digits)
  else
    let fraction := digits.drop point.toNat
    String.ofList (digits.take point.toNat ++ List.replicate (point.toNat - digits.length) '0') ++ "." ++
      if fraction.isEmpty then "0" else String.ofList fraction

/-- Both signs of zero are written. An infinity has no digits and is left to the caller. -/
def number? (layout : DecimalLayout) : Binary64 → Option String
  | .infinite _ => none
  | .finite negative mantissa exponent =>
    let digits := if mantissa = 0 then "0.0" else layout.text (.shortest layout.tie mantissa exponent)
    some (if negative then "-" ++ digits else digits)

end DecimalLayout

end Transclusion
