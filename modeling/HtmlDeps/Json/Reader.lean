import HtmlDeps.Decimal.Written
import HtmlDeps.Value.Basic

/-!
# Reading JSON

`Json.read?` accepts one JSON value with blanks around it.  A number without fraction and exponent is
an integer.  Maps keep the order of their entries and repeated keys.  A `\u` escape that is half of a
surrogate pair on its own reads as a stray byte where it stands for one, else as the replacement
character.
-/

namespace HtmlDeps.Json

def skip (t : Text) : Text :=
  t.dropWhile fun g => g == .char ' ' || g == .char '\n' || g == .char '\r' || g == .char '\t'

/-- The number of four hexadecimal digits, and what follows them. -/
def hex4? : Text → Option (Nat × Text)
  | a :: b :: c :: d :: r =>
    if [a, b, c, d].all Glyph.isHexDigit then some (Text.inBase 16 [a, b, c, d], r) else none
  | _ => none

/-- The glyph of a `\u` escape with number `n`, together with the low half that may follow. -/
def unicode (n : Nat) (r : Text) : Glyph × Text :=
  if 0xD800 ≤ n ∧ n < 0xDC00 then
    match r with
    | .char '\\' :: .char 'u' :: r' =>
      match hex4? r' with
      | some (m, r'') =>
        if 0xDC00 ≤ m ∧ m < 0xE000 then
          (.char (Char.ofNat (0x10000 + (n - 0xD800) * 1024 + (m - 0xDC00))), r'')
        else (.char '\uFFFD', r)
      | none => (.char '\uFFFD', r)
    | _ => (.char '\uFFFD', r)
  else if 0xDC80 ≤ n ∧ n ≤ 0xDCFF then (.stray (UInt8.ofNat (n - 0xDC00)), r)
  else if 0xDC00 ≤ n ∧ n < 0xE000 then (.char '\uFFFD', r)
  else (.char (Char.ofNat n), r)

/-- Reads the rest of a string, up to its closing quote.  `fuel` bounds the glyphs read. -/
def stringFrom : Nat → Text → Option (Text × Text)
  | 0, _ => none
  | _ + 1, [] => none
  | _ + 1, .char '"' :: r => some ([], r)
  | fuel + 1, .char '\\' :: .char 'u' :: r => do
    let (n, r) ← hex4? r
    let (g, r) := unicode n r
    let (t, r) ← stringFrom fuel r
    return (g :: t, r)
  | fuel + 1, .char '\\' :: .char c :: r => do
    let g ← match c with
      | '"' => some '"'
      | '\\' => some '\\'
      | '/' => some '/'
      | 'b' => some '\x08'
      | 'f' => some '\x0c'
      | 'n' => some '\n'
      | 'r' => some '\r'
      | 't' => some '\t'
      | _ => none
    let (t, r) ← stringFrom fuel r
    return (.char g :: t, r)
  | fuel + 1, g :: r => do
    let (t, r) ← stringFrom fuel r
    return (g :: t, r)

def isNumeric (g : Glyph) : Bool :=
  g.isDigit || g.holds fun c => c = '-' || c = '+' || c = '.' || c = 'e' || c = 'E'

def number? (t : Text) : Option Value :=
  (Decimal.Written.read? t).map fun w =>
    if t.all fun g => g.isDigit || g == .char '-' then
      let n := Int.ofNat (Text.decimal w.whole)
      .int (if w.negative then -n else n)
    else .float w.value

mutual
/-- Reads a value.  `fuel` bounds the glyphs read. -/
def valueFrom : Nat → Text → Option (Value × Text)
  | 0, _ => none
  | fuel + 1, t =>
    match skip t with
    | .char '"' :: r => (stringFrom r.length.succ r).map fun (s, r) => (.text s, r)
    | .char '[' :: r =>
      match skip r with
      | .char ']' :: r => some (.list [], r)
      | r => (itemsFrom fuel r).map fun (vs, r) => (.list vs, r)
    | .char '\x7b' :: r =>
      match skip r with
      | .char '\x7d' :: r => some (.map [], r)
      | r => (entriesFrom fuel r).map fun (es, r) => (.map es, r)
    | r =>
      match Text.after? "null" r with
      | some r => some (.null, r)
      | none =>
        match Text.after? "true" r with
        | some r => some (.bool true, r)
        | none =>
          match Text.after? "false" r with
          | some r => some (.bool false, r)
          | none =>
            let (n, r) := Text.cutAt (fun g => !isNumeric g) r
            (number? n).map fun v => (v, r)

/-- Reads the items of a list up to its closing bracket. -/
def itemsFrom : Nat → Text → Option (List Value × Text)
  | 0, _ => none
  | fuel + 1, t => do
    let (v, r) ← valueFrom fuel t
    match skip r with
    | .char ',' :: r =>
      let (vs, r) ← itemsFrom fuel r
      return (v :: vs, r)
    | .char ']' :: r => return ([v], r)
    | _ => none

/-- Reads the entries of a map up to its closing bracket. -/
def entriesFrom : Nat → Text → Option (List (Value × Value) × Text)
  | 0, _ => none
  | fuel + 1, t => do
    match skip t with
    | .char '"' :: r =>
      let (k, r) ← stringFrom r.length.succ r
      match skip r with
      | .char ':' :: r =>
        let (v, r) ← valueFrom fuel r
        match skip r with
        | .char ',' :: r =>
          let (es, r) ← entriesFrom fuel r
          return ((.text k, v) :: es, r)
        | .char '\x7d' :: r => return ([(.text k, v)], r)
        | _ => none
      | _ => none
    | _ => none
end

def read? (t : Text) : Option Value :=
  match valueFrom (t.length + 1) t with
  | some (v, r) => if (skip r).isEmpty then some v else none
  | none => none

end HtmlDeps.Json
