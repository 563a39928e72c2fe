import HtmlDeps.Markup.Token

/-!
# Scanning a document

A scanner is fed a document in pieces and turns it into tokens as far as the text at hand allows;
what cannot be told yet is kept (`pending`).  Closing the scanner settles the rest.  Positions follow
from the tokens: `Located.of` puts beside each token where its source starts.

This stands for the base class of `ReferenceCollector` and `_RegionLocator`.
-/

namespace HtmlDeps

/-- A place in a document: glyphs passed, line from 1, and column from 0. -/
structure Position where
  offset : Nat
  line : Nat
  column : Nat
deriving DecidableEq, Repr

namespace Position

def start : Position := ⟨0, 1, 0⟩

def step (p : Position) (g : Glyph) : Position :=
  if g = .char '\n' then ⟨p.offset + 1, p.line + 1, 0⟩ else ⟨p.offset + 1, p.line, p.column + 1⟩

def advance (p : Position) (t : Text) : Position := t.foldl step p

@[simp] theorem advance_append (p : Position) (s t : Text) :
    p.advance (s ++ t) = (p.advance s).advance t := List.foldl_append

@[simp] theorem offset_advance (p : Position) (t : Text) :
    (p.advance t).offset = p.offset + t.length := by
  induction t generalizing p with
  | nil => rfl
  | cons g r ih =>
    have : (p.step g).offset = p.offset + 1 := by
      simp only [step]
      split <;> rfl
    simp only [advance, List.foldl_cons, List.length_cons] at ih ⊢
    rw [ih, this]
    omega

end Position

/-- A token and where its source starts. -/
structure Located where
  position : Position
  token : Token
deriving DecidableEq, Repr

/-- The tokens with their positions, the first of them at `p`. -/
def Located.of (p : Position) : List Token → List Located
  | [] => []
  | t :: ts => ⟨p, t⟩ :: Located.of (p.advance t.source) ts

/-- A scanner between two pieces of a document. -/
structure Scanner where
  references : References
  raw : Option Text    -- the element whose raw text is being read
  pending : Text       -- text that has not become tokens yet
  position : Position  -- where the pending text starts
deriving DecidableEq, Repr

/-- What a scan yields: tokens, and the scanner after them or the fault that ended it. -/
structure Scan where
  tokens : List Located
  outcome : Except MarkupFault Scanner

namespace Scanner

def start (refs : References) : Scanner := ⟨refs, none, [], .start⟩

/-- Where a pass over a text stops. -/
structure Pass where
  tokens : List Token
  stop : Except MarkupFault (Option Text × Text)  -- The open raw element and the text that is left, or a fault.

/-- Turns text into tokens as far as it goes.  Each token takes at least one glyph, so that the
length of the text is fuel enough. -/
def passFrom (refs : References) (final : Bool) : Nat → Option Text → Text → Pass
  | 0, raw, t => ⟨[], .ok (raw, t)⟩
  | _ + 1, raw, [] => ⟨[], .ok (raw, [])⟩
  | fuel + 1, raw, g :: r =>
    let t := g :: r
    match Token.next refs raw final t with
    | .token event size raw' =>
      let p := passFrom refs final fuel raw' (t.drop size)
      ⟨⟨t.take size, event⟩ :: p.tokens, p.stop⟩
    | .tokenThenWait size => ⟨[⟨t.take size, .content⟩], .ok (raw, t.drop size)⟩
    | .wait => ⟨[], .ok (raw, t)⟩
    | .fault f => ⟨[], .error f⟩

/-- One pass over the whole text. -/
def pass (refs : References) (final : Bool) (raw : Option Text) (t : Text) : Pass :=
  passFrom refs final t.length raw t

/-- A pass at the end of a document.  Outside raw text, all that is left over is text; raw text that
nothing ends is left unread. -/
def finalPass (refs : References) (raw : Option Text) (t : Text) : Pass :=
  let p := pass refs true raw t
  match p.stop with
  | .ok (none, g :: r) =>
    let rest := g :: r
    match Token.nextRun refs rest.length rest with
    | .fault f => ⟨p.tokens, .error f⟩
    | _ => ⟨p.tokens ++ [⟨rest, .content⟩], .ok (none, [])⟩
  | _ => p

def resume (s : Scanner) (p : Pass) : Scan where
  tokens := Located.of s.position p.tokens
  outcome := p.stop.map fun (raw, rest) =>
    { s with
      raw := raw
      pending := rest
      position := s.position.advance (p.tokens.flatMap Token.source) }

/-- Takes in a piece of the document. -/
def feed (s : Scanner) (t : Text) : Scan :=
  s.resume (pass s.references false s.raw (s.pending ++ t))

def close (s : Scanner) : Scan := s.resume (finalPass s.references s.raw s.pending)

/-- Takes in pieces one after the other and ends the document. -/
def feedAll (s : Scanner) : List Text → Scan
  | [] => s.close
  | t :: ts =>
    let first := s.feed t
    match first.outcome with
    | .error f => ⟨first.tokens, .error f⟩
    | .ok s' =>
      let rest := feedAll s' ts
      ⟨first.tokens ++ rest.tokens, rest.outcome⟩

/-- The tokens of a document that is given in one piece. -/
def scan (refs : References) (t : Text) : Scan := (start refs).feedAll [t]

end Scanner
end HtmlDeps
