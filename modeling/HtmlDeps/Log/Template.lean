import HtmlDeps.Decimal.Rounded
import HtmlDeps.Text.Case
import HtmlDeps.Value.Basic

/-!
# Message templates

A message is a template and arguments.  The template is a sequence of pieces: glyphs that stand for
themselves, and directives that start with a percent sign and say how an argument is written.  What
is wrong with a template is only found when its pieces are filled in, one after the other.
-/

namespace HtmlDeps.Log

/-- Why a template and its arguments do not go together. -/
inductive TemplateFault where
  | tooFew
  | tooMany
  | needsMap
  | noEntry (key : Text)
  | openKey
  | cutOff
  | unknownDirective (g : Glyph) (index : Nat)
  | widthNotInteger
  | notReal (letter : Glyph) (kind : Text)
  | notInteger (letter : Glyph) (kind : Text)
  | notFloat (kind : Text)
  | notChar
  -- A number that no character has; `wide` says that it is beyond all numbers of 64 bits.
  | noCharacter (wide : Bool)
  | noIntegerValue (infinite : Bool)
deriving DecidableEq, Repr

def TemplateFault.message : TemplateFault → Text
  | .tooFew => "not enough arguments for format string"
  | .tooMany => "not all arguments converted during string formatting"
  | .needsMap => "format requires a mapping"
  | .noEntry key => key.quoted
  | .openKey => "incomplete format key"
  | .cutOff => "incomplete format"
  | .unknownDirective g i =>
    "unsupported format character '" ++ (if 32 ≤ g.code && g.code < 127 then [g] else ("?" : Text)) ++
      "' (0x" ++ ((Nat.toDigits 16 g.code).map Glyph.char : Text) ++ ") at index " ++ Text.ofNat i
  | .widthNotInteger => "* wants int"
  | .notReal g kind => "%" ++ [g] ++ " format: a real number is required, not " ++ kind
  | .notInteger g kind => "%" ++ [g] ++ " format: an integer is required, not " ++ kind
  | .notFloat kind => "must be real number, not " ++ kind
  | .notChar => "%c requires int or char"
  | .noCharacter wide =>
    if wide then "Python int too large to convert to C long"
    else "%c arg not in range(0x110000)"
  | .noIntegerValue infinite =>
    if infinite then "cannot convert float infinity to integer"
    else "cannot convert float NaN to integer"

/-- A width or number of places: none, a number, or the next argument. -/
inductive Extent where
  | none
  | given (n : Nat)
  | argument
deriving DecidableEq, Repr

/-- How an argument is written. -/
structure Directive where
  key : Option Text
  leftAligned : Bool
  signed : Bool
  spaced : Bool
  alternate : Bool
  zeros : Bool
  width : Extent
  places : Extent
  letter : Glyph
  index : Nat  -- where the letter stands in the template
deriving DecidableEq, Repr

/-- A piece of a template. -/
inductive Piece where
  | glyph (g : Glyph)
  | directive (d : Directive)
  | broken (f : TemplateFault)  -- the template cannot be read further
deriving DecidableEq, Repr

/-- What follows the key of a directive, and the key, whose brackets are balanced. -/
def cutKey (depth : Nat) : Text → Option (Text × Text)
  | [] => none
  | .char ')' :: r =>
    match depth with
    | 0 => some ([], r)
    | d + 1 => (cutKey d r).map fun (k, r) => (.char ')' :: k, r)
  | .char '(' :: r => (cutKey (depth + 1) r).map fun (k, r) => (.char '(' :: k, r)
  | g :: r => (cutKey depth r).map fun (k, r) => (g :: k, r)

def isFlag (g : Glyph) : Bool := g.holds fun c => "-+ #0".toList.contains c

def cutExtent : Text → Extent × Text
  | .char '*' :: r => (.argument, r)
  | t =>
    let (digits, r) := Text.cutAt (fun g => !g.isDigit) t
    (if digits.isEmpty then Extent.none else .given (Text.decimal digits), r)

/-- The directive after a percent sign, in a template of length `size`. -/
def readDirective (size : Nat) (t : Text) : Except TemplateFault (Directive × Text) := do
  let (key, t) ← match t with
    | .char '(' :: r =>
      match cutKey 0 r with
      | some (k, r) => .ok (some k, r)
      | none => .error .openKey
    | t => .ok (none, t)
  let (flags, t) := Text.cutAt (fun g => !isFlag g) t
  let (width, t) := cutExtent t
  let (places, t) := match t with
    | .char '.' :: r =>
      let (e, r) := cutExtent r
      (if e = Extent.none then Extent.given 0 else e, r)
    | t => (Extent.none, t)
  let t := match t with
    | .char 'h' :: r | .char 'l' :: r | .char 'L' :: r => r
    | t => t
  match t with
  | [] => .error .cutOff
  | g :: r =>
    let has (c : Char) : Bool := flags.contains (.char c)
    .ok (⟨key, has '-', has '+', has ' ', has '#', has '0', width, places, g, size - t.length⟩, r)

/-- The pieces of a template of length `size`, from a place on; `fuel` bounds their number. -/
def readPieces (size : Nat) : Nat → Text → List Piece
  | 0, _ => []
  | _, [] => []
  | fuel + 1, .char '%' :: .char '%' :: r => .glyph (.char '%') :: readPieces size fuel r
  | fuel + 1, .char '%' :: r =>
    match readDirective size r with
    | .ok (d, r) => .directive d :: readPieces size fuel r
    | .error f => [.broken f]
  | fuel + 1, g :: r => .glyph g :: readPieces size fuel r

def pieces (t : Text) : List Piece := readPieces t.length t.length t

/-- The arguments of a template. -/
inductive Arguments where
  | list (vs : List Value)                  -- one after the other
  | named (entries : List (Value × Value))  -- by name; the map as a whole is an argument as well
deriving Repr

/-! ### Writing arguments -/

/-- How wide an argument is written and with how many places. -/
structure Room where
  width : Nat
  places : Option Nat
  leftAligned : Bool

/-- A text in its room; `sign` stays in front of zeros that fill it. -/
def Room.fill (room : Room) (zeros : Bool) (sign body : Text) : Text :=
  let missing := room.width - (sign.length + body.length)
  if room.leftAligned then sign ++ body ++ List.replicate missing (.char ' ')
  else if zeros then sign ++ List.replicate missing (.char '0') ++ body
  else List.replicate missing (.char ' ') ++ sign ++ body

def Directive.sign (d : Directive) (negative : Bool) : Text :=
  if negative then "-" else if d.signed then "+" else if d.spaced then " " else []

/-- An integer by its digits in some base, with a mark in front. -/
def Directive.integer (d : Directive) (room : Room) (n : Int) (base : Nat) (mark : Text)
    (upper : Bool) : Text :=
  let digits : Text := (Nat.toDigits base n.natAbs).map .char
  let digits := if upper then Text.upper digits else digits
  let digits := List.replicate (room.places.getD 0 - digits.length) (.char '0') ++ digits
  room.fill d.zeros (d.sign (n < 0) ++ if d.alternate then mark else []) digits

/-- The integer nearest to zero from a float. -/
def truncated (x : Float) : Except TemplateFault Int :=
  match Decimal.partsOf x with
  | .notANumber => .error (.noIntegerValue false)
  | .infinite _ => .error (.noIntegerValue true)
  | .finite negative b =>
    let n : Int := Int.ofNat (b.m * Nat.pow 2 b.q.toNat / Nat.pow 2 (-b.q).toNat)
    .ok (if negative then -n else n)

/-- A float by a notation. -/
def Directive.float (d : Directive) (room : Room) (x : Float) : Text :=
  let (lower, upper) : Bool × Bool :=
    (d.letter == .char 'e' || d.letter == .char 'E', d.letter == .char 'F' || d.letter == .char 'E'
      || d.letter == .char 'G')
  let case (t : Text) : Text := if upper then Text.upper t else t
  match Decimal.partsOf x with
  | .notANumber => room.fill false (d.sign false) (case "nan")
  | .infinite negative => room.fill false (d.sign negative) (case "inf")
  | .finite negative b =>
    let places := room.places.getD 6
    let body :=
      if lower then b.scientific places
      else if d.letter == .char 'f' || d.letter == .char 'F' then b.fixed places
      else b.general places d.alternate
    room.fill d.zeros (d.sign negative) (case body)

/-- The number that a value is, if it is one. -/
def number? : Value → Option (Int ⊕ Float)
  | .bool b => some (.inl (if b then 1 else 0))
  | .int n => some (.inl n)
  | .float x => some (.inr x)
  | _ => none

/-- The text with every glyph beyond ASCII escaped. -/
def asciiOnly (t : Text) : Text :=
  t.flatMap fun g => if g.code < 128 then [g] else Text.escapedCode g.code

def Directive.write (d : Directive) (room : Room) (v : Value) : Except TemplateFault Text :=
  let text (t : Text) : Except TemplateFault Text :=
    .ok (room.fill false [] (room.places.elim t fun n => t.take n))
  let whole (base : Nat) (mark : Text) (upper : Bool) : Except TemplateFault Text :=
    match number? v with
    | some (.inl n) => .ok (d.integer room n base mark upper)
    | _ => .error (.notInteger d.letter v.kindName)
  match d.letter with
  | .char 's' => text v.shown
  | .char 'r' => text v.nested
  | .char 'a' => text (asciiOnly v.nested)
  | .char 'd' | .char 'i' | .char 'u' =>
    match number? v with
    | some (.inl n) => .ok (d.integer room n 10 [] false)
    | some (.inr x) => (truncated x).map fun n => d.integer room n 10 [] false
    | none => .error (.notReal (if d.letter = .char 'i' then .char 'd' else d.letter) v.kindName)
  | .char 'o' => whole 8 "0o" false
  | .char 'x' => whole 16 "0x" false
  | .char 'X' => whole 16 "0X" true
  | .char 'e' | .char 'E' | .char 'f' | .char 'F' | .char 'g' | .char 'G' =>
    match number? v with
    | some (.inl n) => .ok (d.float room (Float.ofInt n))
    | some (.inr x) => .ok (d.float room x)
    | none => .error (.notFloat v.kindName)
  | .char 'c' =>
    match v with
    | .int n =>
      if n < Int64.minValue.toInt || Int64.maxValue.toInt < n then .error (.noCharacter true)
      else if n < 0 || 0x110000 ≤ n then .error (.noCharacter false)
      else .ok (room.fill false [] [.char (Char.ofNat n.toNat)])
    | .bool b => .ok (room.fill false [] [.char (Char.ofNat (if b then 1 else 0))])
    | .text [g] => .ok (room.fill false [] [g])
    | _ => .error .notChar
  | g => .error (.unknownDirective g d.index)

/-- The next argument, and those after it. -/
def takeArgument : List Value → Except TemplateFault (Value × List Value)
  | [] => .error .tooFew
  | v :: vs => .ok (v, vs)

/-- An extent, with the arguments after it; a negative one asks for alignment to the left. -/
def Extent.take (args : List Value) : Extent → Except TemplateFault (Option Int × List Value)
  | .none => .ok (Option.none, args)
  | .given n => .ok (some (Int.ofNat n), args)
  | .argument => do
    match ← takeArgument args with
    | (.int n, args) => return (some n, args)
    | (.bool b, args) => return (some (if b then 1 else 0), args)
    | _ => .error .widthNotInteger

/-- Fills in a directive: its text, and the arguments after it. -/
def Directive.apply (d : Directive) (entries : Option (List (Value × Value))) (args : List Value) :
    Except TemplateFault (Text × List Value) := do
  let args ← match d.key, entries with
    | Option.none, _ => .ok args
    | some _, Option.none => .error .needsMap
    | some k, some es =>
      match Value.find? es (.text k) with
      | some v => .ok [v]
      | Option.none => .error (.noEntry k)
  let (width, args) ← d.width.take args
  let (places, args) ← d.places.take args
  let (v, args) ← takeArgument args
  let room : Room := ⟨(width.getD 0).natAbs, places.map Int.toNat, d.leftAligned || width.any (· < 0)⟩
  return (← d.write room v, args)

def fillIn (entries : Option (List (Value × Value))) (args : List Value) :
    List Piece → Except TemplateFault Text
  | [] => if entries.isNone && !args.isEmpty then .error .tooMany else .ok []
  | .glyph g :: ps => (fillIn entries args ps).map (g :: ·)
  | .broken f :: _ => .error f
  | .directive d :: ps => do
    let (t, args) ← d.apply entries args
    return t ++ (← fillIn entries args ps)

/-- The message that a template and its arguments make. -/
def message (template : Text) : Arguments → Except TemplateFault Text
  | .list [] => .ok template
  | .list [.map (e :: es)] => fillIn (some (e :: es)) [.map (e :: es)] (pieces template)
  | .list vs => fillIn none vs (pieces template)
  | .named [] => .ok template
  | .named es => fillIn (some es) [.map es] (pieces template)

end HtmlDeps.Log
