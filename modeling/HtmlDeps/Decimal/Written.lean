import HtmlDeps.Text.Blank
import HtmlDeps.Text.Case

/-!
# Decimal notation

The parts of a number written in decimal notation, and its value.
-/

namespace HtmlDeps.Decimal

/-- A number as it is written: sign, digits before and after the point, and exponent of ten. -/
structure Written where
  negative : Bool
  whole : Text
  fraction : Text
  exponent : Int
deriving DecidableEq, Repr

/-- The float nearest to the number written. -/
def Written.value (w : Written) : Float :=
  let e := w.exponent - w.fraction.length
  let x := Float.ofScientific (Text.decimal (w.whole ++ w.fraction)) (e < 0) e.natAbs
  if w.negative then -x else x

def cutSign : Text → Bool × Text
  | .char '-' :: r => (true, r)
  | .char '+' :: r => (false, r)
  | t => (false, t)

/-- The exponent that a text consists of, if it does; no text is the exponent zero. -/
def exponent? : Text → Option Int
  | [] => some 0
  | .char 'e' :: r | .char 'E' :: r =>
    let (negative, digits) := cutSign r
    if digits.isEmpty || !digits.all Glyph.isDigit then none
    else
      let n := Int.ofNat (Text.decimal digits)
      some (if negative then -n else n)
  | _ => none

/-- Reads a number that has a digit before the point or after it. -/
def Written.read? (t : Text) : Option Written :=
  let (negative, t) := cutSign t
  let (whole, rest) := Text.cutAt (fun g => !g.isDigit) t
  let (fraction, rest) := match rest with
    | .char '.' :: r => Text.cutAt (fun g => !g.isDigit) r
    | _ => ([], rest)
  if whole.isEmpty && fraction.isEmpty then none
  else (exponent? rest).map fun e => ⟨negative, whole, fraction, e⟩

/-- The number that a text writes between blanks, in decimal notation or as the name of a limit. -/
def read? (t : Text) : Option Float :=
  let t := t.strip
  let (negative, name) := cutSign (Text.lower t)
  if name = "inf" || name = "infinity" then some (if negative then -(1 / 0) else 1 / 0)
  else if name = "nan" then some (0 / 0)
  else (Written.read? t).map Written.value

end HtmlDeps.Decimal
