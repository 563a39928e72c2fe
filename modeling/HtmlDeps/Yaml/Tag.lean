import HtmlDeps.Text.Utf8
import HtmlDeps.Yaml.Cursor
import HtmlDeps.Yaml.Fault

/-!
# Tags and directives of YAML documents

A tag says what a node is.  It is written as a handle and a suffix, where directives at the start of
a document say what the handles stand for.
-/

namespace HtmlDeps.Yaml

/-- What a node is. -/
inductive Tag where
  | null
  | bool
  | int
  | float
  | binary
  | timestamp
  | omap   -- a list of entries with one key each
  | pairs  -- a list of entries, keys of which may come again
  | set
  | str
  | seq
  | map
  | merge  -- the key whose value is merged into the map around it
  | value  -- the key whose value stands for the map around it
  | other (name : Text)
deriving DecidableEq, Repr

namespace Tag

/-- What the names of the known tags start with. -/
def family : Text := "tag:yaml.org,2002:"

/-- The known tags and the ends of their names. -/
def known : List (Text × Tag) :=
  [("null", .null), ("bool", .bool), ("int", .int), ("float", .float), ("binary", .binary),
   ("timestamp", .timestamp), ("omap", .omap), ("pairs", .pairs), ("set", .set), ("str", .str),
   ("seq", .seq), ("map", .map), ("merge", .merge), ("value", .value)]

def ofName (t : Text) : Tag :=
  ((Text.after? family t).bind fun n => (known.find? (·.1 == n)).map (·.2)).getD (.other t)

end Tag

/-- A tag as it is written; without a handle the suffix is its whole name. -/
structure WrittenTag where
  handle : Option Text
  suffix : Text
deriving DecidableEq, Repr

/-- The suffix of a tag that leaves it open what a node is. -/
def openTag : Text := [.char '!']

/-- What a directive says. -/
inductive Directive where
  | version (major : Nat)         -- the document is of YAML's version `major`
  | handle (handle start : Text)  -- a handle stands for a start of names
  | other                         -- something that does not matter here
deriving DecidableEq, Repr

/-- What handles stand for if directives do not say otherwise. -/
def usualHandles : List (Text × Text) := [("!", "!"), ("!!", Tag.family)]

/-- A glyph of names of anchors, handles and directives. -/
def isNameGlyph (g : Glyph) : Bool := g.isAlphanum || g == .char '-' || g == .char '_'

def isUriGlyph (g : Glyph) : Bool :=
  g.isAlphanum || g.holds "-;/?:@&=+$,_.!~*'()[]".toList.contains

/-- How many glyphs of a URI follow, and the bytes that they stand for. -/
def uriBytes : Text → Option (Nat × Bytes)
  | [] => some (0, [])
  | .char '%' :: a :: b :: r =>
    if a.isHexDigit && b.isHexDigit then
      (uriBytes r).map fun (n, bs) => (n + 3, UInt8.ofNat (Text.inBase 16 [a, b]) :: bs)
    else none
  | g :: r =>
    if g = .char '%' then none
    else if isUriGlyph g then (uriBytes r).map fun (n, bs) => (n + 1, g.encode ++ bs)
    else some (0, [])

namespace Cursor

/-- Reads a URI that is not empty. -/
def uri (c : Cursor) : Except Fault (Text × Cursor) :=
  match uriBytes c.rest with
  | none => .error .malformed
  | some (n, bs) =>
    match Text.decodeStrict? bs with
    | some t => if n = 0 then .error .malformed else .ok (t, c.skip n)
    | none => .error .malformed

/-- Reads the handle of a tag, `!` or a name between two of them. -/
def handle (c : Cursor) : Except Fault (Text × Cursor) :=
  match c.rest with
  | .char '!' :: r =>
    if r.head?.any isSpace then .ok ([.char '!'], c.next)
    else
      let (name, c) := c.next.span isNameGlyph
      if c.sees '!' then .ok ([.char '!'] ++ name ++ [.char '!'], c.next) else .error .malformed
  | _ => .error .malformed

/-- Reads a tag; `c` is the place of its `!`. -/
def tag (c : Cursor) : Except Fault (WrittenTag × Cursor) := do
  let r := c.rest.drop 1
  let (t, c) ← (
    if c.next.sees '<' then do
      let (name, c) ← (c.skip 2).uri
      if c.sees '>' then return (⟨none, name⟩, c.next) else .error .malformed
    else if startsGap r then return (⟨none, openTag⟩, c.next)
    else if (r.takeWhile fun g => !isSpace g && !isBreak g).contains (.char '!') then do
      let (h, c) ← c.handle
      let (suffix, c) ← c.uri
      return (⟨some h, suffix⟩, c)
    else do
      let (suffix, c) ← c.next.uri
      return (⟨some openTag, suffix⟩, c) : Except Fault (WrittenTag × Cursor))
  if endsWord c.rest then return (t, c) else .error .malformed

/-- Reads the name of an anchor or alias; `c` is the place of its sign. -/
def anchor (c : Cursor) : Except Fault (Text × Cursor) :=
  let (name, c) := c.next.span isNameGlyph
  if name.isEmpty then .error .malformed
  else if startsGap c.rest || c.seesOneOf "?:,]\x7d%@\x60".toList then .ok (name, c)
  else .error .malformed

def number (c : Cursor) : Except Fault (Nat × Cursor) :=
  let (digits, c) := c.span Glyph.isDigit
  if digits.isEmpty then .error .malformed else .ok (Text.decimal digits, c)

/-- Reads what follows the name of a directive. -/
def directiveBody (name : Text) (c : Cursor) : Except Fault (Directive × Cursor) := do
  if name = "YAML" then
    let (major, c) ← (c.past isSpace).number
    if !c.sees '.' then .error .malformed
    let (_, c) ← c.next.number
    return (.version major, c)
  else if name = "TAG" then
    let (h, c) ← (c.past isSpace).handle
    if !c.sees ' ' then .error .malformed
    let (start, c) ← (c.past isSpace).uri
    return (.handle h start, c)
  else return (.other, c.past fun g => !isBreak g)

/-- Reads a directive to the end of its line; `c` is the place of its `%`. -/
def directive (c : Cursor) : Except Fault (Directive × Cursor) := do
  let (name, c) := c.next.span isNameGlyph
  if name.isEmpty || !endsWord c.rest then .error .malformed
  let (d, c) ← directiveBody name c
  if !endsWord c.rest then .error .malformed
  match c.endOfLine? with
  | some c => return (d, c)
  | none => .error .malformed

end Cursor
end HtmlDeps.Yaml
