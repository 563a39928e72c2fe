import HtmlDeps.Text.Blank

/-!
# Glob patterns without braces

A pattern is a sequence of elements.  `*` and `?` and classes stay inside one part of a path, `**`
as a whole part spans any number of parts.  At the start of a part none of them takes a dot.

This belongs to `Glob.accepts`, which stands for the library behind `glob_match`.
-/

namespace HtmlDeps.Glob

/-- A set of glyphs by their codes. -/
structure GlyphSet where
  negated : Bool
  ranges : List (Nat × Nat)
deriving DecidableEq, Repr

def GlyphSet.holds (s : GlyphSet) (g : Glyph) : Bool :=
  (s.ranges.any fun (a, b) => a ≤ g.code && g.code ≤ b) != s.negated

/-- What a pattern is made of.  `leading` says that the element stands at the start of a part. -/
inductive Element where
  | glyph (g : Glyph)  -- this glyph
  | slashes  -- one or more slashes
  | beforeSlash  -- nothing, in front of a slash
  | one (leading : Bool)  -- any glyph but a slash
  | oneOf (leading : Bool) (set : GlyphSet)  -- a glyph of the set, but no slash
  | many (leading : Bool)  -- any glyphs but slashes; at the start of a part there has to be one
  | deep  -- any glyphs, but no dot at the start of a part
  | boundary  -- one or more slashes, or nothing at either end of the path
deriving DecidableEq, Repr

namespace GlyphSet

/-- The named classes that a set may contain. -/
def named : List (Text × List (Nat × Nat)) :=
  [("alnum", [(48, 57), (65, 90), (97, 122)]),
   ("alpha", [(65, 90), (97, 122)]),
   ("ascii", [(0, 127)]),
   ("blank", [(32, 32), (9, 9)]),
   ("cntrl", [(0, 31), (127, 127)]),
   ("digit", [(48, 57)]),
   ("graph", [(33, 126)]),
   ("lower", [(97, 122)]),
   ("print", [(32, 126)]),
   ("punct", [(33, 47), (58, 64), (91, 96), (123, 126)]),
   ("space", [(9, 13), (32, 32)]),
   ("upper", [(65, 90)]),
   ("word", [(48, 57), (65, 90), (95, 95), (97, 122)]),
   ("xdigit", [(48, 57), (65, 70), (97, 102)])]

/-- A named class after its opening bracket: `:`, the name, and `:]`. -/
def named? (t : Text) : Option (List (Nat × Nat) × Text) :=
  named.findSome? fun (name, ranges) =>
    (Text.after? ([.char ':'] ++ name ++ [.char ':', .char ']']) t).map fun r => (ranges, r)

/-- What has been read of a set, the latest item first. -/
inductive Item where
  | single (n : Nat)                     -- a single glyph, by its code
  | hyphen                               -- a hyphen that may turn out to make a range
  | settled (ranges : List (Nat × Nat))  -- ranges that are settled
deriving DecidableEq, Repr

/-- The ranges of an item; a hyphen that made no range is a hyphen. -/
def Item.ranges : Item → List (Nat × Nat)
  | .single n => [(n, n)]
  | .hyphen => [(45, 45)]
  | .settled rs => rs

/-- Makes a range of the two latest items and `n`.  A range that runs backwards takes nothing. -/
def close (items : List Item) (n : Nat) : List Item :=
  match items with
  | .hyphen :: .single a :: r => if n < a then r else .settled [(a, n)] :: r
  | x :: .single a :: r => if n < a then r else .single n :: x :: .single a :: r
  | r => .single n :: r

/-- Where hyphens may make ranges: `blocked` is how many of the coming glyphs cannot be a range's
hyphen, and `pending` that the next glyph ends a range. -/
structure Reading where
  blocked : Nat
  pending : Bool
  afterNamed : Bool
deriving DecidableEq, Repr

/-- Reads the glyphs of a set up to its closing bracket.  Fails at a slash or if there is no closing
bracket. -/
def readFrom : Nat → Reading → List Item → Text → Option (List Item × Text)
  | 0, _, _, _ => none
  | _ + 1, _, _, [] => none
  | fuel + 1, s, items, g :: r =>
    let plain : Reading := ⟨s.blocked - 1, false, false⟩
    let add (n : Nat) (r : Text) : Option (List Item × Text) :=
      readFrom fuel plain (if s.pending then close items n else .single n :: items) r
    if g = .char ']' then some (items, r)
    else if g = .char '-' then
      if s.afterNamed then readFrom fuel ⟨s.blocked - 1, s.pending, false⟩ (.single 45 :: items) r
      else if s.blocked = 0 then readFrom fuel ⟨2, true, false⟩ (.hyphen :: items) r
      else add 45 r
    else
      match (if g = .char '[' then named? r else none) with
      | some (ranges, rest) =>
        let items := match items with
          | .hyphen :: more => if s.pending then .single 45 :: more else items
          | _ => items
        readFrom fuel ⟨s.blocked - (1 + (r.length - rest.length)), s.pending, true⟩
          (.settled ranges :: items) rest
      | none =>
        if g = .char '/' then none
        else if g = .char '\\' then
          match r with
          | [] => none
          | x :: rest => if x = .char '/' then none else
            readFrom fuel ⟨s.blocked - 2, false, false⟩
              (if s.pending then close items x.code else .single x.code :: items) rest
        else add g.code r

/-- Reads a set after its opening bracket. -/
def read? (t : Text) : Option (GlyphSet × Text) :=
  let (negated, t) : Bool × Text := match t with
    | .char '!' :: r => (true, r)
    | .char '^' :: r => (true, r)
    | _ => (false, t)
  let first : Option (Reading × List Item × Text) := match t with
    | .char '[' :: r =>
      match named? r with
      | some (ranges, rest) => some (⟨0, false, true⟩, [.settled ranges], rest)
      | none => some (⟨0, false, false⟩, [.single 91], r)
    | .char '-' :: r => some (⟨0, false, false⟩, [.single 45], r)
    | .char ']' :: r => some (⟨0, false, false⟩, [.single 93], r)
    | [] => none
    | _ => some (⟨0, false, false⟩, [], t)
  match first with
  | none => none
  | some (s, items, r) =>
    (readFrom (r.length + 1) s items r).map fun (items, rest) =>
      (⟨negated, items.flatMap Item.ranges⟩, rest)

end GlyphSet

namespace Element

/-- What follows `**` in front of a text, if it is a whole part there: the text after the slash. -/
def afterDeep? : Text → Option Text
  | .char '*' :: .char '*' :: [] => some []
  | .char '*' :: .char '*' :: .char '/' :: r => some r
  | .char '*' :: .char '*' :: .char '\\' :: .char '/' :: r => some r
  | _ => none

/-- Adds a part `**` to the elements so far, the latest first, and drops the slashes it makes
superfluous from the text after it. -/
def addDeep (acc : List Element) (r : Text) : List Element × Text :=
  match acc with
  | .boundary :: _ => (acc, r)
  | [] => ([.boundary, .deep], Text.dropLeading (.char '/') r)
  | _ :: more => (.boundary :: .deep :: .beforeSlash :: more, Text.dropLeading (.char '/') r)

/-- Reads the elements of a pattern; `leading` says that a part starts here, and `acc` are the
elements so far, the latest first. -/
def readFrom : Nat → Bool → List Element → Text → List Element
  | 0, _, acc, _ => acc
  | _ + 1, _, acc, [] => acc
  | fuel + 1, leading, acc, g :: r =>
    let literal := readFrom fuel false (.glyph g :: acc) r
    if g = .char '*' then
      if leading then
        match afterDeep? (g :: r) with
        | some rest =>
          let (acc, rest) := addDeep acc rest
          readFrom fuel true acc rest
        | none => readFrom fuel false (.many true :: acc) (Text.dropLeading (.char '*') r)
      else readFrom fuel false (.many false :: acc) r
    else if g = .char '?' then readFrom fuel false (.one leading :: acc) r
    else if g = .char '/' then
      readFrom fuel true (.slashes :: acc) (Text.dropLeading (.char '/') r)
    else if g = .char '[' then
      match GlyphSet.read? r with
      | some (set, rest) => readFrom fuel false (.oneOf leading set :: acc) rest
      | none => literal
    else if g = .char '\\' then
      match r with
      | [] => literal
      | x :: rest =>
        if x = .char '/' then
          readFrom fuel true (.slashes :: acc) (Text.dropLeading (.char '/') rest)
        else readFrom fuel false (.glyph x :: acc) rest
    else literal

def read (t : Text) : List Element := (readFrom (t.length + 1) true [] t).reverse

end Element
end HtmlDeps.Glob
