import HtmlDeps.Markup.EntityNamesUpper
import HtmlDeps.Markup.EntityNamesLowerAL
import HtmlDeps.Markup.EntityNamesLowerMZ
import HtmlDeps.Text.Case

/-!
# Character references

`&#`, a decimal or (after `x`) hexadecimal number and perhaps a semicolon stand for the character of
that number; `&` and a name stand for the characters of the name, where the longest name that fits
counts.  An ampersand that starts neither stands for itself.  A decimal number of more than 4300
digits is refused.
-/

namespace HtmlDeps.Entity

/-- The names that start with a letter, with the characters they stand for. -/
def namesOf : Char → List (String × String)
  | 'A' => namesUpperA
  | 'B' => namesUpperB
  | 'C' => namesUpperC
  | 'D' => namesUpperD
  | 'E' => namesUpperE
  | 'F' => namesUpperF
  | 'G' => namesUpperG
  | 'H' => namesUpperH
  | 'I' => namesUpperI
  | 'J' => namesUpperJ
  | 'K' => namesUpperK
  | 'L' => namesUpperL
  | 'M' => namesUpperM
  | 'N' => namesUpperN
  | 'O' => namesUpperO
  | 'P' => namesUpperP
  | 'Q' => namesUpperQ
  | 'R' => namesUpperR
  | 'S' => namesUpperS
  | 'T' => namesUpperT
  | 'U' => namesUpperU
  | 'V' => namesUpperV
  | 'W' => namesUpperW
  | 'X' => namesUpperX
  | 'Y' => namesUpperY
  | 'Z' => namesUpperZ
  | 'a' => namesLowerA
  | 'b' => namesLowerB
  | 'c' => namesLowerC
  | 'd' => namesLowerD
  | 'e' => namesLowerE
  | 'f' => namesLowerF
  | 'g' => namesLowerG
  | 'h' => namesLowerH
  | 'i' => namesLowerI
  | 'j' => namesLowerJ
  | 'k' => namesLowerK
  | 'l' => namesLowerL
  | 'm' => namesLowerM
  | 'n' => namesLowerN
  | 'o' => namesLowerO
  | 'p' => namesLowerP
  | 'q' => namesLowerQ
  | 'r' => namesLowerR
  | 's' => namesLowerS
  | 't' => namesLowerT
  | 'u' => namesLowerU
  | 'v' => namesLowerV
  | 'w' => namesLowerW
  | 'x' => namesLowerX
  | 'y' => namesLowerY
  | 'z' => namesLowerZ
  | _ => []

/-- The characters that the numbers 128 to 159 stand for: those of the Windows code page. -/
def windowsPage : List Char :=
  ['€', '\x81', '‚', 'ƒ', '„', '…', '†', '‡', 'ˆ', '‰', 'Š', '‹', 'Œ', '\x8d', 'Ž', '\x8f', '\x90',
   '‘', '’', '“', '”', '•', '–', '—', '˜', '™', 'š', '›', 'œ', '\x9d', 'ž', 'Ÿ']

/-- A number that stands for nothing: a control other than the usual blanks, or no character. -/
def isVoid (n : Nat) : Bool :=
  (1 ≤ n && n ≤ 8) || n == 11 || (14 ≤ n && n ≤ 31) || n == 127 ||
    (0xFDD0 ≤ n && n ≤ 0xFDEF) || n % 0x10000 ≥ 0xFFFE

def ofNumber (n : Nat) : Text :=
  if n = 0 then "\uFFFD"
  else if 128 ≤ n && n ≤ 159 then ((windowsPage[n - 128]?).toList.map .char)
  else if (0xD800 ≤ n && n ≤ 0xDFFF) || 0x10FFFF < n then "\uFFFD"
  else if isVoid n then []
  else [.char (Char.ofNat n)]

/-- A decimal number with too many digits. -/
structure TooLong where
  digits : Nat
deriving DecidableEq, Repr

def TooLong.message (e : TooLong) : Text :=
  ("Exceeds the limit (4300 digits) for integer string conversion: value has " : Text)
    ++ Text.ofNat e.digits
    ++ " digits; use sys.set_int_max_str_digits() to increase the limit"

/-- How many decimal digits a reference may have. -/
def maxDigits : Nat := 4300

/-- One for a semicolon in front of a text. -/
def semicolon (t : Text) : Nat := if t.head? = some (.char ';') then 1 else 0

/-- The longest name at the start of a text, by its characters and its length. -/
def longestName? (t : Text) : Option (Text × Nat) :=
  match t with
  | .char c :: _ =>
    (namesOf c).foldl (fun best (name, chars) =>
      if t.startsWith name && (best.elim 0 (·.2)) < name.length then
        some (Text.ofString chars, name.length)
      else best) none
  | _ => none

/-- What the text after an ampersand stands for, and how much of it that takes. -/
def after? (t : Text) : Except TooLong (Option (Text × Nat)) :=
  match t with
  | .char '#' :: r =>
    let digits := r.takeWhile Glyph.isDigit
    if digits.isEmpty then
      match r with
      | .char x :: r' =>
        let hex := r'.takeWhile Glyph.isHexDigit
        if (x = 'x' || x = 'X') && !hex.isEmpty then
          .ok (some (ofNumber (Text.inBase 16 hex),
            2 + hex.length + semicolon (r'.drop hex.length)))
        else .ok none
      | _ => .ok none
    else if maxDigits < digits.length then .error ⟨digits.length⟩
    else
      .ok (some (ofNumber (Text.decimal digits),
        1 + digits.length + semicolon (r.drop digits.length)))
  | _ => .ok (longestName? t)

/-- The loop of `decode`, passing over `skip` glyphs first. -/
def decodeFrom : Nat → Text → Except TooLong Text
  | _, [] => .ok []
  | skip + 1, _ :: r => decodeFrom skip r
  | 0, .char '&' :: r => do
    match ← after? r with
    | some (chars, n) => return chars ++ (← decodeFrom n r)
    | none => return .char '&' :: (← decodeFrom 0 r)
  | 0, g :: r => return g :: (← decodeFrom 0 r)

/-- The text with its character references resolved. -/
def decode (t : Text) : Except TooLong Text :=
  if t.contains (.char '&') then decodeFrom 0 t else .ok t

end HtmlDeps.Entity
