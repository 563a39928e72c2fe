import HtmlDeps.Markup.Scanner

/-!
# Inline scripts of a document

A region is the body of an inline script: from the end of its start tag to the start of the end tag.
A selector says which elements have one.  Regions do not nest: once one is open, further start tags
do not count until the element's end tag.  A self-closing element makes a region too, one that
stops where the tag starts.

These are `ScriptBoundary`, `ScriptRegion`, `_RegionLocator` and `locate_regions` (full specification, section
Script Split/Rejoin Transform).
-/

namespace HtmlDeps

/-- Which elements hold inline scripts: those with the tag `tag`, without a source of their own, and
with one of the given types. -/
structure Selector where
  tag : Text
  types : List Text
deriving DecidableEq, Repr

namespace Selector

/-- Script elements of the usual types. -/
def usual : Selector :=
  ⟨"script", ["", "text/javascript", "application/javascript", "module"]⟩

/-- Whether an element holds an inline script. -/
def accepts (s : Selector) (tag : Text) (attributes : List (Text × Text)) : Bool :=
  tag == s.tag && (Tag.get? attributes "src").isNone &&
    s.types.contains (Text.strip ((Tag.get? attributes "type").getD [])).lower

end Selector

/-- The body of an inline script, as a range of glyphs, and the tags around it. -/
structure Region where
  start : Nat
  stop : Nat
  openTag : Text
  closeTag : Text
deriving DecidableEq, Repr

namespace Region

/-- The text between the tags; empty if the region stops before it starts. -/
def body (r : Region) (t : Text) : Text := (t.take r.stop).drop r.start

/-- The tag at the start of a text, as far as there is one: up to the first `>`. -/
def closingTag (t : Text) : Text :=
  match Token.through? (.char '>') 0 t with
  | some n => t.take n
  | none => t

/-- An open region: where its body starts, and its start tag. -/
abbrev Opening := Nat × Text

def opened (sel : Selector) (t : Located) (tag : Tag) : Option Opening → Option Opening
  | some o => some o
  | none =>
    if sel.accepts tag.name tag.attributes then
      some (t.position.offset + t.token.source.length, t.token.source)
    else none

/-- The region that an end tag of the element `name` at `offset` completes, if one is open. -/
def closed? (sel : Selector) (text : Text) (offset : Nat) (name : Text) :
    Option Opening → Option Region
  | some (start, tag) =>
    if name = sel.tag then some ⟨start, offset, tag, closingTag (text.drop offset)⟩ else none
  | none => none

/-- The regions that tokens of the document `text` make, with `o` open before them. -/
def ofTokens (sel : Selector) (text : Text) : Option Opening → List Located → List Region
  | _, [] => []
  | o, t :: ts =>
    match t.token.event with
    | .content => ofTokens sel text o ts
    | .closed name =>
      match closed? sel text t.position.offset name o with
      | some r => r :: ofTokens sel text none ts
      | none => ofTokens sel text o ts
    | .opened tag =>
      let o := opened sel t tag o
      if tag.selfClosing then
        match closed? sel text t.position.offset tag.name o with
        | some r => r :: ofTokens sel text none ts
        | none => ofTokens sel text o ts
      else ofTokens sel text o ts

/-- The regions of a document as scanned with a choice of references, in document order. -/
def locateWith (refs : References) (sel : Selector) (text : Text) :
    Except MarkupFault (List Region) :=
  let scan := Scanner.scan refs text
  scan.outcome.map fun _ => ofTokens sel text none scan.tokens

/-- The regions of a document, in document order. -/
def locate (sel : Selector) (text : Text) : Except MarkupFault (List Region) :=
  locateWith .kept sel text

end Region
end HtmlDeps
