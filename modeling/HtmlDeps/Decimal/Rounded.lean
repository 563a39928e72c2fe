import HtmlDeps.Decimal.Shortest

/-!
# Decimals with a given number of places

The exact value of a double, rounded to a given number of decimal places; a tie goes to the even
neighbour.
-/

namespace HtmlDeps.Decimal

/-- The quotient rounded to the nearest integer; a tie goes to the even one. -/
def roundQuotient (num den : Nat) : Nat :=
  let c := num / den
  match compare (2 * (num % den)) den with
  | .lt => c
  | .gt => c + 1
  | .eq => if c % 2 = 0 then c else c + 1

/-- The number in units of `10^p`, rounded. -/
def Binary.inUnits (b : Binary) (p : Int) : Nat :=
  roundQuotient (b.m * Nat.pow 2 b.q.toNat * Nat.pow 10 (-p).toNat) (Nat.pow 2 (-b.q).toNat * Nat.pow 10 p.toNat)

/-- The digits of `n` units of `10^(-places)`, with a point if there are places. -/
def pointed (n places : Nat) : Text :=
  let digits := Text.padded n (places + 1)
  let whole := digits.take (digits.length - places)
  if places = 0 then whole else whole ++ "." ++ digits.drop (digits.length - places)

/-- The number with so many places after the point. -/
def Binary.fixed (b : Binary) (places : Nat) : Text :=
  pointed (b.inUnits (Int.negOfNat places)) places

/-- The digits of the number rounded to `places + 1` digits, and the place of the first of them. -/
def Binary.rounded (b : Binary) (places : Nat) : Nat × Int :=
  if b.m = 0 then (0, 0)
  else
    let e := leadingPlace b
    let n := b.inUnits (e - places)
    if n < Nat.pow 10 (places + 1) then (n, e) else (Nat.pow 10 places, e + 1)

/-- An exponent of ten with its sign and at least two digits. -/
def exponentText (e : Int) : Text :=
  "e" ++ (if e < 0 then ("-" : Text) else "+") ++ Text.padded e.natAbs 2

/-- The number with one digit before the point and so many after it. -/
def Binary.scientific (b : Binary) (places : Nat) : Text :=
  let (n, e) := b.rounded places
  pointed n places ++ exponentText e

/-- The text without zeros at the end of its places. -/
def withoutEndZeros (t : Text) : Text :=
  if t.contains (.char '.') then
    Text.dropTrailing (· == .char '.') (Text.dropTrailing (· == .char '0') t)
  else t

/-- The number with so many digits, in the shorter of both notations; `full` keeps zeros at the
end. -/
def Binary.general (b : Binary) (digits : Nat) (full : Bool) : Text :=
  let digits := max digits 1
  let (n, e) := b.rounded (digits - 1)
  let tidy (t : Text) : Text := if full then t else withoutEndZeros t
  if -4 ≤ e && e < digits then tidy (b.fixed (digits - 1 - e).toNat)
  else tidy (pointed n (digits - 1)) ++ exponentText e

end HtmlDeps.Decimal
