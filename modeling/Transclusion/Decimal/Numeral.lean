import Transclusion.Decimal.Binary
import Transclusion.Text.Basic

namespace Transclusion.Numeral

/-- The value of a digit in a base up to 16. -/
def digitValue? (base : Nat) (c : Char) : Option Nat :=
  let value :=
    if c.isDigit then c.toNat - 48
    else if 'a' ≤ c && c ≤ 'f' then c.toNat - 87
    else if 'A' ≤ c && c ≤ 'F' then c.toNat - 55
    else base
  if value < base then some value else none

/-- A sequence of digits, at least one. -/
def natural? (base : Nat) (t : Text) : Option Nat := do
  guard (!t.isEmpty)
  let digits ← t.mapM (digitValue? base)
  return digits.foldl (fun n d => base * n + d) 0

/-- A sign and what it stands before. -/
def sign : Text → Bool × Text
  | '-' :: t => (true, t)
  | '+' :: t => (false, t)
  | t => (false, t)

/-- A whole number of 64 bits, perhaps with a sign. -/
def int64? (base : Nat) (t : Text) : Option Int := do
  let (negative, digits) := sign t
  let n ← natural? base digits
  let value : Int := if negative then -n else n
  guard (-Int.pow 2 63 ≤ value && value < Int.pow 2 63)
  return value

/-- A number with digits before or behind a point, and perhaps an exponent. -/
def decimal? (t : Text) : Option Binary64 := do
  let (negative, body) := sign t
  let mantissa := body.takeWhile fun c => c ≠ 'e' && c ≠ 'E'
  let whole := mantissa.takeWhile (· ≠ '.')
  let fraction := (mantissa.drop whole.length).tail
  let digits ← natural? 10 (whole ++ fraction)
  let exponent : Int ← match body.drop mantissa.length with
    | [] => pure 0
    | _ :: written => do
      let (down, power) := sign written
      let n ← natural? 10 power
      pure (if down then -(n : Int) else n)
  return .ofDecimal negative digits (exponent - fraction.length)

end Transclusion.Numeral
