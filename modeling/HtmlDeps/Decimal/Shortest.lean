import HtmlDeps.Text.Basic

/-!
# The shortest decimal of a floating point number

A finite double is `m · 2^q`.  Around it lies the interval of reals that round to it, whose ends
count iff `m` is even.  `shortest` looks for a point of that interval on the decimal grids with
1, 2, … 17 digits, where it only needs to try the two neighbours of the number itself: the first
grid with a hit wins, of two hits the nearer one, and of two equally near ones the even one.

How the digits are laid out is a matter of style (`Style`).
-/

namespace HtmlDeps.Decimal

/-- The magnitude of a finite double, `m · 2^q`.  `narrow` says that the next smaller double is only
half as far away as the next larger one. -/
structure Binary where
  m : Nat
  q : Int
  narrow : Bool
deriving DecidableEq, Repr

/-- A double taken apart. -/
inductive Parts where
  | notANumber
  | infinite (negative : Bool)
  | finite (negative : Bool) (b : Binary)
deriving DecidableEq, Repr

def partsOf (x : Float) : Parts :=
  let bits : Nat := x.toBits.toNat
  let negative := bits / Nat.pow 2 63 == 1
  let e : Nat := bits / Nat.pow 2 52 % Nat.pow 2 11
  let f : Nat := bits % Nat.pow 2 52
  if e = 2047 then if f = 0 then .infinite negative else .notANumber
  else if e = 0 then .finite negative ⟨f, -1074, false⟩
  else .finite negative ⟨f + Nat.pow 2 52, Int.ofNat e - 1075, f == 0 && 1 < e⟩

/-- Compares `a · 10^p` with `b · 2^e`. -/
def compareScaled (a : Nat) (p : Int) (b : Nat) (e : Int) : Ordering :=
  compare (a * Nat.pow 10 p.toNat * Nat.pow 2 (-e).toNat) (b * Nat.pow 2 e.toNat * Nat.pow 10 (-p).toNat)

/-- Whether `c · 10^p` rounds to the number. -/
def readsBack (b : Binary) (c : Nat) (p : Int) : Bool :=
  let even := b.m % 2 == 0
  let low := compareScaled c p (4 * b.m - if b.narrow then 1 else 2) (b.q - 2)
  let high := compareScaled c p (4 * b.m + 2) (b.q - 2)
  (low == .gt || even && low == .eq) && (high == .lt || even && high == .eq)

/-- The place of the first decimal digit: the `e` with `10^e ≤ m · 2^q < 10^(e+1)`. -/
def leadingPlace (b : Binary) : Int :=
  let whole := b.m * Nat.pow 2 b.q.toNat / Nat.pow 2 (-b.q).toNat
  if 0 < whole then (Nat.toDigits 10 whole).length - 1
  else
    let k := ((List.range 400).find? fun k => Nat.pow 2 (-b.q).toNat ≤ b.m * Nat.pow 10 k).getD 0
    Int.negOfNat k

/-- The neighbour of the number on the grid of multiples of `10^p` that reads back, if one does. -/
def neighbour? (b : Binary) (p : Int) : Option Nat :=
  let num := b.m * Nat.pow 2 b.q.toNat * Nat.pow 10 (-p).toNat
  let den := Nat.pow 2 (-b.q).toNat * Nat.pow 10 p.toNat
  let c := num / den
  match readsBack b c p && 0 < c, readsBack b (c + 1) p with
  | true, true =>
    match compare (2 * (num % den)) den with
    | .lt => some c
    | .gt => some (c + 1)
    | .eq => some (if c % 2 = 0 then c else c + 1)
  | true, false => some c
  | false, true => some (c + 1)
  | false, false => none

/-- The fewest digits that read back, and the place of the last of them. -/
def shortest (b : Binary) : Nat × Int :=
  let e := leadingPlace b
  let grid (n : Nat) : Option (Nat × Int) := (neighbour? b (e - n)).map fun c => (c, e - n)
  ((List.range 17).findSome? grid).getD (b.m, b.q)

/-- How digits are laid out. -/
structure Style where
  positionalFrom : Int  -- Positional notation is used while the decimal point stands more than this far left …
  positionalTo : Int   -- … and at most this far right of the first digit's front
  plus : Text          -- the sign that a positive exponent carries
  exponentWidth : Nat  -- the least number of digits of an exponent
  infinity : Text
  notANumber : Text

/-- The digits of a number without the zeros at its end, and how many zeros that were. -/
def trimZeros (digits : Text) : Text × Nat :=
  let kept := Text.dropTrailing (· == .char '0') digits
  (kept, digits.length - kept.length)

/-- Lays out digits whose decimal point stands `point` places after the front of the first one. -/
def layOut (s : Style) (digits : Text) (point : Int) : Text :=
  if s.positionalFrom < point && point ≤ s.positionalTo then
    if point ≤ 0 then
      ("0." : Text) ++ List.replicate (-point).toNat (.char '0') ++ digits
    else
      let n := point.toNat
      if digits.length ≤ n then
        digits ++ List.replicate (n - digits.length) (.char '0') ++ (".0" : Text)
      else digits.take n ++ ("." : Text) ++ digits.drop n
  else
    let e := point - 1
    let mantissa : Text :=
      if digits.length = 1 then digits else digits.take 1 ++ [.char '.'] ++ digits.drop 1
    let sign : Text := if e < 0 then [.char '-'] else s.plus
    mantissa ++ [.char 'e'] ++ sign ++ Text.padded e.natAbs s.exponentWidth

def render (s : Style) (x : Float) : Text :=
  match partsOf x with
  | .notANumber => s.notANumber
  | .infinite negative => (if negative then [.char '-'] else []) ++ s.infinity
  | .finite negative b =>
    let sign : Text := if negative then "-" else []
    if b.m = 0 then sign ++ "0.0"
    else
      let (c, p) := shortest b
      let (digits, zeros) := trimZeros (Text.ofNat c)
      sign ++ layOut s digits (digits.length + zeros + p)

/-- Messages write floats positionally from 0.0001 up to sixteen digits before the point, and else
with a signed exponent of at least two digits. -/
def inMessages : Style := ⟨-4, 16, "+", 2, "inf", "nan"⟩

/-- JSON writes floats positionally from 0.00001 up to sixteen digits before the point, and has no
text for infinities and for what is not a number. -/
def inJson : Style := ⟨-5, 16, [], 1, "null", "null"⟩

end HtmlDeps.Decimal
