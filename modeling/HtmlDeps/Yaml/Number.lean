import HtmlDeps.Decimal.Written
import HtmlDeps.Yaml.Fault

/-!
# Numbers in YAML documents

The value of a scalar that is a number.  Underscores do not count.  An integer is written in base 2
after `0b`, 16 after `0x`, 8 after another zero, and in base 10 otherwise; in base 60 the digits, in
base 10, are divided by colons.
-/

namespace HtmlDeps.Yaml.Number

/-- The letter after a zero that announces a base. -/
def baseLetter : Nat → Option Char
  | 2 => some 'b'
  | 8 => some 'o'
  | 16 => some 'x'
  | _ => none

/-- The digits without the zero and letter that may announce their base. -/
def withoutBase (base : Nat) (t : Text) : Text :=
  match t with
  | .char '0' :: .char c :: r => if baseLetter base = some c.toLower then r else t
  | _ => t

/-- How many digits a number in base 10 may have. -/
def maxDigits : Nat := 4300

/-- How many digits in base 60 a float may have: the unit of one more would be no float. -/
def maxSixtieths : Nat := 174

/-- Reads an integer in a base, with a sign and between blanks. -/
def inBase (base : Nat) (t : Text) : Except Fault Int :=
  let (negative, u) := Decimal.cutSign t.strip
  let ds := withoutBase base u
  if ds.isEmpty || !ds.all (fun d => d.hexValue?.any (· < base)) then .error (.notInteger base t)
  else if base = 10 && ds.length > maxDigits then .error (.tooLong ds.length)
  else
    let n := Int.ofNat (Text.inBase base ds)
    .ok (if negative then -n else n)

/-- The value of digits in base 60, added up from the last of them. -/
def sixtieths {α : Type} [Add α] [Mul α] [OfNat α 0] [OfNat α 1] [OfNat α 60] (ds : List α) : α :=
  (ds.reverse.foldl (fun (n, unit) d => (n + d * unit, unit * 60)) ((0 : α), (1 : α))).1

/-- The sign of a number, and its text without sign and underscores; there must be a glyph. -/
def cut (t : Text) : Except Fault (Bool × Text) :=
  match t.filter (· != .char '_') with
  | [] => .error .emptyNumber
  | g :: r => .ok (Decimal.cutSign (g :: r))

def integer (t : Text) : Except Fault Int := do
  let (negative, u) ← cut t
  let n ← (match u with
    | [] => .error .emptyNumber
    | [.char '0'] => .ok 0
    | .char '0' :: .char 'b' :: r => inBase 2 r
    | .char '0' :: .char 'x' :: r => inBase 16 r
    | .char '0' :: _ => inBase 8 u
    | _ =>
      if u.contains (.char ':') then
        ((Text.split (.char ':') u).mapM (inBase 10)).map sixtieths
      else inBase 10 u : Except Fault Int)
  return if negative then -n else n

def decimal (t : Text) : Except Fault Float :=
  match Decimal.read? t with
  | some x => .ok x
  | none => .error (.notNumber t)

def float (t : Text) : Except Fault Float := do
  let (negative, u) ← cut (Text.lower t)
  let x ← (
    if u = ".inf" then .ok (1 / 0)
    else if u = ".nan" then .ok (0 / 0)
    else if u.contains (.char ':') then
      (do
        let ds ← (Text.split (.char ':') u).mapM decimal
        if ds.length > maxSixtieths then .error .tooLarge else .ok (sixtieths ds))
    else decimal u : Except Fault Float)
  return if negative then -x else x

end HtmlDeps.Yaml.Number
