import HtmlDeps.Text.Basic

/-!
# Places in a YAML document

A cursor is a place in a document: what follows, and the line and the column, from which YAML reads
how its parts lie in each other.
-/

namespace HtmlDeps.Yaml

def isBreak : Glyph → Bool :=
  Glyph.holds fun c => c == '\n' || c == '\x85' || c == '\u2028' || c == '\u2029'

/-- What a line break stands for in a scalar. -/
def breakText (g : Glyph) : Text :=
  if g == .char '\x85' then [.char '\n'] else [g]

/-- The mark of byte order, which takes no column. -/
def byteOrderMark : Glyph := .char '\uFEFF'

def isSpace (g : Glyph) : Bool := g == .char ' '

def isSpaceOrTab (g : Glyph) : Bool := g == .char ' ' || g == .char '\t'

/-- Whether a line ends before a text. -/
def endsLine : Text → Bool
  | [] => true
  | g :: _ => isBreak g

/-- Whether a line ends before a text, or a space is next. -/
def endsWord : Text → Bool
  | [] => true
  | g :: _ => isBreak g || isSpace g

/-- Whether a line ends before a text, or a space or tab is next. -/
def startsGap : Text → Bool
  | [] => true
  | g :: _ => isBreak g || isSpaceOrTab g

def startsDocument (t : Text) : Bool := t.startsWith "---" && startsGap (t.drop 3)

def endsDocument (t : Text) : Bool := t.startsWith "..." && startsGap (t.drop 3)

/-- Whether a text starts with the mark of a document's start or end. -/
def atMark (t : Text) : Bool := startsDocument t || endsDocument t

/-- A place in a document. -/
structure Cursor where
  rest : Text
  index : Nat  -- how many glyphs came before
  line : Nat
  column : Nat
deriving DecidableEq, Repr

namespace Cursor

def start (t : Text) : Cursor := ⟨t, 0, 0, 0⟩

def next (c : Cursor) : Cursor :=
  match c.rest with
  | [] => c
  | g :: r =>
    if isBreak g then ⟨r, c.index + 1, c.line + 1, 0⟩
    else ⟨r, c.index + 1, c.line, if g = byteOrderMark then c.column else c.column + 1⟩

/-- The place after `n` more glyphs. -/
def skip : Nat → Cursor → Cursor
  | 0, c => c
  | n + 1, c => skip n c.next

/-- The glyphs with `p` that follow, and the place after them. -/
def span (p : Glyph → Bool) (c : Cursor) : Text × Cursor :=
  let t := c.rest.takeWhile p
  (t, c.skip t.length)

/-- The place after the glyphs with `p` that follow. -/
def past (p : Glyph → Bool) (c : Cursor) : Cursor := (c.span p).2

def sees (c : Cursor) (g : Char) : Bool := c.rest.head? == some (.char g)

def seesOneOf (c : Cursor) (cs : List Char) : Bool := cs.any c.sees

/-- The text of the line break that follows, and the place after it; no text at the end. -/
def takeBreak (c : Cursor) : Text × Cursor :=
  match c.rest with
  | [] => ([], c)
  | g :: _ => if isBreak g then (breakText g, c.next) else ([], c)

end Cursor

/-- How many glyphs of comments, spaces and line breaks lie before the next token; `comment` says
that a comment has begun. -/
def gapSize (comment : Bool) : Text → Nat
  | [] => 0
  | g :: r =>
    if isBreak g then 1 + gapSize false r
    else if comment then 1 + gapSize true r
    else if isSpace g then 1 + gapSize false r
    else if g = .char '#' then 1 + gapSize true r
    else 0

/-- The place after the rest of a line that holds nothing but a comment, if it does, and after its
break. -/
def Cursor.endOfLine? (c : Cursor) : Option Cursor :=
  let c := c.past isSpace
  let c := if c.sees '#' then c.past fun g => !isBreak g else c
  if endsLine c.rest then some c.takeBreak.2 else none

end HtmlDeps.Yaml
