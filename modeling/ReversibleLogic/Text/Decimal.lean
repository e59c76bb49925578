import ReversibleLogic.Word

/-!
# Decimal places

* `roundHalfEven num den` — the integer nearest to `num / den`, a half goes to the even neighbour;
* `fixed places num den` — `num / den` with a fixed number of decimal places;
* `binaryFraction x` — a finite non-negative float as an exact quotient;
* `seconds ns` — a time in nanoseconds as seconds with three places.
-/

namespace ReversibleLogic.Text

/-- the integer nearest to `num / den`; a half goes to the even neighbour. -/
def roundHalfEven (num den : Nat) : Nat :=
  let q := num / den
  let twice := 2 * (num % den)
  if twice < den then q else if den < twice then q + 1 else q + q % 2

/-- `num / den` with the given number of places after the point. -/
def fixed (places num den : Nat) : String :=
  let scaled := roundHalfEven (num * 10 ^ places) den
  let digits := Nat.toDigits 10 (scaled % 10 ^ places)
  let fraction := List.replicate (places - digits.length) '0' ++ digits
  toString (scaled / 10 ^ places) ++ "." ++ String.ofList fraction

/-- numerator and denominator of a finite non-negative float. -/
def binaryFraction (x : Float) : Nat × Nat :=
  let bits := x.toBits.toNat
  let exponent := bits / 2 ^ 52 % 2 ^ 11
  let mantissa := bits % 2 ^ 52
  if exponent = 0 then (mantissa, 2 ^ 1074)
  else
    let m := 2 ^ 52 + mantissa
    if 1075 ≤ exponent then (m * 2 ^ (exponent - 1075), 1) else (m, 2 ^ (1075 - exponent))

/-- seconds with three places: whole seconds and the fraction are added as floats, and the sum is printed exactly. -/
def seconds (nanoseconds : Nat) : String :=
  let whole := Float.ofNat (nanoseconds / 10 ^ 9)
  let part := Float.ofNat (nanoseconds % 10 ^ 9) / Float.ofNat (10 ^ 9)
  let (num, den) := binaryFraction (whole + part)
  fixed 3 num den ++ " s"

end ReversibleLogic.Text
