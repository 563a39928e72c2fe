import HtmlDeps.Text.Basic

/-!
# White space

The blanks are the characters with the Unicode property of white space together with the four
information separators U+001C to U+001F.  `strip` drops them at both ends and `words` are the
runs between them.
-/

namespace HtmlDeps

/-- The numbers of the blank characters. -/
def blanks : List Nat :=
  [0x09, 0x0A, 0x0B, 0x0C, 0x0D, 0x1C, 0x1D, 0x1E, 0x1F, 0x20, 0x85, 0xA0, 0x1680, 0x2000, 0x2001,
   0x2002, 0x2003, 0x2004, 0x2005, 0x2006, 0x2007, 0x2008, 0x2009, 0x200A, 0x2028, 0x2029, 0x202F,
   0x205F, 0x3000]

def Glyph.isBlank : Glyph → Bool := Glyph.holds fun c => blanks.contains c.toNat

namespace Text

def skipBlanks (t : Text) : Text := t.dropWhile Glyph.isBlank

def strip (t : Text) : Text := dropTrailing Glyph.isBlank (skipBlanks t)

/-- Splits into the runs of glyphs that are not blank; `w` is the run being read. -/
def wordsFrom (w : Text) : Text → List Text
  | [] => if w.isEmpty then [] else [w.reverse]
  | g :: r =>
    if g.isBlank then
      if w.isEmpty then wordsFrom [] r else w.reverse :: wordsFrom [] r
    else wordsFrom (g :: w) r

/-- The runs of glyphs between blanks. -/
def words (t : Text) : List Text := wordsFrom [] t

def isBlank (t : Text) : Bool := t.all Glyph.isBlank

end Text
end HtmlDeps
