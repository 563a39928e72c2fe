import HtmlDeps.Text.Case
import HtmlDeps.Text.PrintableTable

/-!
# Text in quotation marks, as it stands in messages

A quoted text shows every printable character as itself.  It is set in single quotes, or in double
quotes if it holds a single quote and no double one.  The quote in use, the backslash and everything
without a visible form is written with a backslash.
-/

namespace HtmlDeps

/-- Whether a character has a visible form, or is the space. -/
def isPrintable (c : Char) : Bool :=
  if c.toNat < 127 then 32 ≤ c.toNat
  else if c.toNat < 0x10000 then !inRanges Text.hiddenLow c.toNat
  else !inRanges Text.hiddenHigh c.toNat

namespace Text

/-- The low `w` hexadecimal digits of a number. -/
def hexDigits : Nat → Nat → Text
  | 0, _ => []
  | w + 1, n => hexDigits w (n / 16) ++ [.char (Nat.digitChar (n % 16))]

/-- A glyph without a visible form, by its number. -/
def escapedCode (n : Nat) : Text :=
  if n < 0x100 then "\\x" ++ hexDigits 2 n
  else if n < 0x10000 then "\\u" ++ hexDigits 4 n
  else "\\U" ++ hexDigits 8 n

/-- A glyph as it stands between the quotes `q`. -/
def quotedGlyph (q : Char) : Glyph → Text
  | .stray b => escapedCode (Glyph.stray b).code
  | .char c =>
    if c = q || c = '\\' then ['\\', c]
    else if c = '\n' then "\\n"
    else if c = '\r' then "\\r"
    else if c = '\t' then "\\t"
    else if isPrintable c then [.char c]
    else escapedCode c.toNat

def quoted (t : Text) : Text :=
  let q : Char := if t.contains (.char '\'') && !t.contains (.char '"') then '"' else '\''
  .char q :: (t.flatMap (quotedGlyph q) ++ [.char q])

end Text
end HtmlDeps
