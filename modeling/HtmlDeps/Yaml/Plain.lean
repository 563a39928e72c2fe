import HtmlDeps.Decimal.Written
import HtmlDeps.Yaml.Moment
import HtmlDeps.Yaml.Tag

/-!
# What a plain scalar is

A scalar without a tag and without quotation marks is a number, a truth value, a date and so on if it
is written as one, and a text otherwise.  Numbers may hold underscores, integers may be written in
base 2, 8, 10 or 16, and numbers in base 60 have colons between their digits.  A float has a point,
and its exponent a sign.
-/

namespace HtmlDeps.Yaml.Plain

/-- The words for truth values. -/
def truths : List (Text × Bool) :=
  [("yes", true), ("no", false), ("true", true), ("false", false), ("on", true), ("off", false)]

/-- A word in small letters, with a capital, and in capitals. -/
def spellings (w : String) : List Text :=
  [Text.ofString w, Text.ofString w.capitalize, Text.ofString w.toUpper]

/-- Whether a text is a word for a truth value. -/
def isTruth (t : Text) : Bool :=
  (["yes", "no", "true", "false", "on", "off"].flatMap spellings).contains t

def isNull (t : Text) : Bool := t.isEmpty || t == [.char '~'] || (spellings "null").contains t

/-- A digit or an underscore. -/
def isSpacedDigit (g : Glyph) : Bool := g.isDigit || g == .char '_'

/-- Whether a text is written in digits that start with a digit. -/
def isDigits (t : Text) : Bool := t.head?.any Glyph.isDigit && t.all isSpacedDigit

/-- Whether a text is a digit of base 60 after the first. -/
def isSixtieth : Text → Bool
  | [d] => d.isDigit
  | [t, d] => t.holds (fun c => '0' ≤ c && c ≤ '5') && d.isDigit
  | _ => false

/-- Whether a text is written in base 60: digits, and further ones after colons. -/
def isSexagesimal (t : Text) : Bool :=
  match Text.split (.char ':') t with
  | first :: d :: ds => isDigits first && (d :: ds).all isSixtieth
  | _ => false

/-- Whether a text is an exponent with its sign. -/
def isExponent : Text → Bool
  | .char e :: .char s :: ds =>
    (e == 'e' || e == 'E') && (s == '+' || s == '-') && !ds.isEmpty && ds.all Glyph.isDigit
  | _ => false

/-- Whether a text is the part of a float after its point; `needsDigit` says that it starts with a
digit. -/
def isFraction (needsDigit : Bool) (t : Text) : Bool :=
  let rest := t.dropWhile isSpacedDigit
  (!needsDigit || t.head?.any Glyph.isDigit) && (rest.isEmpty || isExponent rest)

def isFloat (t : Text) : Bool :=
  let (_, u) := Decimal.cutSign t
  let (whole, rest) := Text.cutAt (· == .char '.') u
  match rest with
  | [] => false
  | _ :: fraction =>
    if whole.isEmpty then
      (spellings "inf").contains fraction || [(".nan" : Text), ".NaN", ".NAN"].contains t ||
        (u.length = t.length && isFraction true fraction)
    else (isDigits whole && isFraction false fraction) ||
      (isSexagesimal whole && fraction.all isSpacedDigit)

/-- Whether a text without a sign is written as an integer. -/
def isUnsigned (t : Text) : Bool :=
  match t with
  | .char '0' :: .char 'b' :: g :: r =>
    (g :: r).all fun g => g == .char '0' || g == .char '1' || g == .char '_'
  | .char '0' :: .char 'x' :: g :: r => (g :: r).all fun g => g.isHexDigit || g == .char '_'
  | .char '0' :: r => r.all fun g => g.holds (fun c => ('0' ≤ c && c ≤ '7') || c == '_')
  | _ => isDigits t || isSexagesimal t

def isInteger (t : Text) : Bool := isUnsigned (Decimal.cutSign t).2

/-- Whether a text is written as a moment; a date alone has two digits for month and day. -/
def isMoment (t : Text) : Bool :=
  match Moment.read? t with
  | some m => m.time.isSome || t.length == 10
  | none => false

/-- A text without a line break at its end, unless it is nothing else. -/
def unbroken (t : Text) : Text :=
  if t.length > 1 && t.getLast? = some (.char '\n') then t.dropLast else t

/-- What a plain scalar is.  A line break at its end does not count. -/
def tag (t : Text) : Tag :=
  let t := unbroken t
  if isTruth t then .bool
  else if isFloat t then .float
  else if isInteger t then .int
  else if t = "<<" then .merge
  else if isNull t then .null
  else if isMoment t then .timestamp
  else if t = "=" then .value
  else .str

end HtmlDeps.Yaml.Plain
