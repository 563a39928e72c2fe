import HtmlDeps.Markup.Tag
import HtmlDeps.Text.Quoted

/-!
# Tokens of an HTML document

A document is a sequence of tokens: start tags, end tags, and everything else, which only counts as
so much text.  `Token.next` looks at the text that is left and says which token stands in front of
it, or that more text is needed to tell.

Two things change what counts as a token.  Inside a `script` or `style` element only the matching end
tag does (`raw` names that element).  And character references are either left alone in running text
(`References.kept`), in which case they are tokens of their own, or resolved there
(`References.resolved`).
-/

namespace HtmlDeps

/-- What becomes of character references in running text. -/
inductive References where
  | kept
  | resolved
deriving DecidableEq, Repr

/-- What a token does. -/
inductive Event where
  | opened (tag : Tag)    -- an element starts
  | closed (name : Text)  -- an element ends
  | content  -- Nothing that concerns elements: text, a comment, a declaration, a character reference.
deriving DecidableEq, Repr

/-- A piece of the document and what it does. -/
structure Token where
  source : Text
  event : Event
deriving DecidableEq, Repr

/-- Why a document cannot be read on. -/
inductive MarkupFault where
  | nameExpected (near : Text)    -- a marked section without a name
  | unknownSection (name : Text)  -- a marked section with a name that means nothing
  | tooLong (e : Entity.TooLong)
deriving DecidableEq, Repr

def MarkupFault.message : MarkupFault → Text
  | .nameExpected near => "expected name token at " ++ near.quoted
  | .unknownSection name => "unknown status keyword " ++ name.quoted ++ " in marked section"
  | .tooLong e => e.message

/-- What stands in front of the text that is left. -/
inductive Next where
  -- A token of `size` glyphs, after which the element `raw` is open for raw text.
  | token (event : Event) (size : Nat) (raw : Option Text)
  | tokenThenWait (size : Nat)  -- A piece of text of `size` glyphs, after which more text is awaited.
  | wait  -- more text is needed to tell
  | fault (f : MarkupFault)
deriving DecidableEq, Repr

namespace Token

/-! ### Searching -/

/-- Where the first match of `size?` in a text ends, given how long a match at the start is. -/
def endOfFirst? (size? : Text → Option Nat) : Text → Option Nat
  | [] => size? []
  | g :: r =>
    match size? (g :: r) with
    | some n => some n
    | none => (endOfFirst? size? r).map (· + 1)

/-- Where the first match of `matches?` in a text starts. -/
def startOfFirst? (matches? : Text → Bool) : Text → Option Nat
  | [] => none
  | g :: r => if matches? (g :: r) then some 0 else (startOfFirst? matches? r).map (· + 1)

/-- The size of a text up to and including the first glyph `g`, searched from position `n` on. -/
def through? (g : Glyph) (n : Nat) (t : Text) : Option Nat :=
  match (t.drop n).dropWhile (· != g) with
  | [] => none
  | rest => some (t.length - rest.length + 1)

/-- The size of the given glyphs at the start of a text, with blanks allowed before all but the
first. -/
def spaced? : List Glyph → Text → Option Nat
  | [], _ => some 0
  | [g], x :: _ => if g = x then some 1 else none
  | g :: gs, x :: r =>
    if g = x then
      let rest := Text.skipBlanks r
      (spaced? gs rest).map fun n => 1 + (r.length - rest.length) + n
    else none
  | _, [] => none

/-- The size of two hyphens, blanks and `>` at the start of a text. -/
def commentEnd? : Text → Option Nat
  | .char '-' :: .char '-' :: r =>
    let rest := Text.skipBlanks r
    if rest.head? = some (.char '>') then some (3 + (r.length - rest.length)) else none
  | _ => none

/-! ### Raw text -/

/-- Whether a text starts with the end tag of the element `name`. -/
def startsEndOf (name : Text) (t : Text) : Bool :=
  match t with
  | .char '<' :: .char '/' :: r =>
    let r := Text.skipBlanks r
    Text.lower (r.take name.length) == name &&
      (Text.skipBlanks (r.drop name.length)).head? == some (.char '>')
  | _ => false

/-- The elements whose content is raw text. -/
def rawElements : List Text := ["script", "style"]

/-! ### Constructs that start with `<` -/

/-- Either the size of a construct, or waiting for its end. -/
def contentOrWait (raw : Option Text) : Option Nat → Next
  | some n => .token .content n raw
  | none => .wait

def nextStart (t : Text) : Next :=
  match Tag.read (t.drop 1) with
  | .error e => .fault (.tooLong e)
  | .ok .incomplete => .wait
  | .ok (.broken n) => .token .content n none
  | .ok (.whole tag n) =>
    let raw := if !tag.selfClosing && rawElements.contains tag.name then some tag.name else none
    .token (.opened tag) n raw

/-- A glyph of an end tag's name after the first. -/
def isEndName : Glyph → Bool
  | .char c => c.isAlphanum || c = '-' || c = '.' || c = ':' || c = '_'
  | .stray _ => false

def endName? (t : Text) : Option Text :=
  match Text.skipBlanks (t.drop 2) with
  | g :: r =>
    let (more, rest) := Text.cutAt (fun g => !isEndName g) r
    if g.isLetter && (Text.skipBlanks rest).head? = some (.char '>') then some (g :: more) else none
  | [] => none

/-- An end tag, or what looks like one. -/
def nextEnd (raw : Option Text) (t : Text) : Next :=
  match through? (.char '>') 1 t with
  | none => .wait
  | some size =>
    match endName? t with
    | some name =>
      match raw with
      | none => .token (.closed name.lower) size none
      | some r =>
        if name.lower = r then .token (.closed name.lower) size none else .token .content size raw
    | none =>
      match raw, t.drop 2 with
      | none, g :: r =>
        if g.isLetter then .token (.closed (Text.lower (g :: (Text.cutAt Tag.endsName r).1))) size none
        else .token .content size none
      | _, _ => .token .content size raw

/-- The names of marked sections that end with two brackets. -/
def standardSections : List Text := ["temp", "cdata", "ignore", "include", "rcdata"]

/-- The names of marked sections that end with one bracket. -/
def conditionalSections : List Text := ["if", "else", "endif"]

/-- A glyph of a section's name after the first. -/
def isSectionName : Glyph → Bool
  | .char c => c.isAlphanum || c = '-' || c = '_' || c = '.'
  | .stray _ => false

def nextSection (t : Text) : Next :=
  match t.drop 3 with
  | [] => .wait
  | g :: r =>
    if g.isLetter then
      let (more, rest) := Text.cutAt (fun g => !isSectionName g) r
      let (gap, rest) := Text.cutAt (fun g => !g.isBlank) rest
      let name := Text.lower (g :: more)
      let closing : List Glyph := [']', '>']
      let ending? : Option (List Glyph) :=
        if standardSections.contains name then some (.char ']' :: closing)
        else if conditionalSections.contains name then some closing
        else none
      if rest.isEmpty then .wait
      else
        match ending? with
        | some ending =>
          contentOrWait none ((endOfFirst? (spaced? ending) (g :: r)).map (3 + ·))
        | none => .fault (.unknownSection (g :: more ++ gap))
    else .fault (.nameExpected (t.take 20))

/-- The construct that a text starting with `<` begins with, outside raw text. -/
def nextConstruct (t : Text) : Next :=
  match t with
  | .char '<' :: .char '/' :: _ => nextEnd none t
  | .char '<' :: .char '!' :: .char '-' :: .char '-' :: r =>
    contentOrWait none ((endOfFirst? commentEnd? r).map (4 + ·))
  | .char '<' :: .char '!' :: .char '[' :: _ => nextSection t
  | .char '<' :: .char '!' :: _ => contentOrWait none (through? (.char '>') 2 t)
  | .char '<' :: .char '?' :: _ => contentOrWait none (through? (.char '>') 2 t)
  | .char '<' :: g :: _ => if g.isLetter then nextStart t else .token .content 1 none
  | _ => .wait

/-- How much of a construct that never ends is text: up to the next `>`, else up to the next `<`,
else its first glyph. -/
def strandedSize (t : Text) : Nat :=
  match through? (.char '>') 1 t with
  | some n => n
  | none => ((through? (.char '<') 1 t).map (· - 1)).getD 1

/-! ### Character references in running text -/

/-- Whether the end of a text without `<` may be the start of a character reference: an ampersand
among its last 34 glyphs with neither a blank nor a semicolon after it. -/
def endsInReference (t : Text) : Bool :=
  match Text.cutLast? (· == .char '&') (t.drop (t.length - 34)) with
  | some (_, rest) => !rest.any fun g => g.isBlank || g == .char ';'
  | none => false

/-- The size of a numeric reference, which some other glyph has to follow. -/
def numericSize? (t : Text) : Option Nat :=
  match t.drop 2 with
  | .char x :: r =>
    let (base, digits) :=
      if x = 'x' || x = 'X' then (3, r.takeWhile Glyph.isHexDigit)
      else (2, (.char x :: r).takeWhile Glyph.isDigit)
    match t.drop (base + digits.length) with
    | g :: _ =>
      if digits.isEmpty || g.isHexDigit then none
      else some (base + digits.length + if g = .char ';' then 1 else 0)
    | [] => none
  | _ => none

/-- A glyph of a reference's name after the first. -/
def isReferenceName : Glyph → Bool
  | .char c => c.isAlphanum || c = '-' || c = '.'
  | .stray _ => false

/-- The size of a named reference, which some glyph other than a letter or digit has to follow. -/
def namedSize? (t : Text) : Option Nat :=
  match t.drop 1 with
  | g :: r =>
    if !g.isLetter then none
    else
      let (more, rest) := Text.cutAt (fun g => !isReferenceName g) r
      match rest with
      | x :: _ => some (2 + more.length + if x = .char ';' then 1 else 0)
      | [] => (Text.cutLast? (fun g => !g.isAlphanum) more).map fun (kept, _) => 2 + kept.length
  | [] => none

/-- What starts with `&` where references are kept. -/
def nextReference (t : Text) : Next :=
  match t with
  | _ :: .char '#' :: r =>
    match numericSize? t with
    | some n => .token .content n none
    | none => if r.contains (.char ';') then .tokenThenWait 2 else .wait
  | _ :: g :: _ =>
    match namedSize? t with
    | some n => .token .content n none
    | none => if g.isLetter then .wait else .token .content 1 none
  | _ => .wait

/-! ### The next token -/

/-- Running text of `size` glyphs. -/
def nextRun (refs : References) (size : Nat) (t : Text) : Next :=
  match refs with
  | .kept => .token .content size none
  | .resolved =>
    match Entity.decode (t.take size) with
    | .ok _ => .token .content size none
    | .error e => .fault (.tooLong e)

/-- Outside raw text, a construct that waits at the end of the document is text. -/
def settle (refs : References) (final : Bool) (t : Text) : Next → Next
  | .wait => if final then nextRun refs (strandedSize t) t else .wait
  | n => n

/-- What stands in front of a text that is not empty.  `final` says that no more text comes. -/
def next (refs : References) (raw : Option Text) (final : Bool) (t : Text) : Next :=
  match raw with
  | some name =>
    match startOfFirst? (startsEndOf name) t with
    | none => .wait
    | some 0 => nextEnd raw t
    | some n => .token .content n raw
  | none =>
    let stops (g : Glyph) : Bool := g == .char '<' || (refs = .kept && g == .char '&')
    let run := t.takeWhile fun g => !stops g
    if !run.isEmpty then
      if refs = .resolved && run.length = t.length && endsInReference t then .wait
      else nextRun refs run.length t
    else
      match t with
      | .char '&' :: _ => nextReference t
      | [_] => .wait
      | _ => settle refs final t (nextConstruct t)

end Token
end HtmlDeps
