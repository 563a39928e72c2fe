import HtmlDeps.Yaml.Scalar
import HtmlDeps.Yaml.Tag

/-!
# The tokens of a YAML document

Reading a document from its start to its end gives tokens in which indentation is explicit: where the
lines of a block start further right than those around it, a token opens the block, and another closes
it where they go back left.

A key needs no sign of its own.  Whatever may be a key is kept in mind (`Candidate`), and if a colon
follows in the same line, the signs for a key, and for the map that it opens, are put in front of it
after all.
-/

namespace HtmlDeps.Yaml

/-- A token. -/
inductive Token where
  | directive (d : Directive)
  | documentStart
  | documentEnd
  | listBlock  -- a block of list items opens
  | mapBlock   -- a block of entries opens
  | blockEnd
  | listOpen  -- the bracket that opens a list
  | listClose
  | mapOpen  -- the brace that opens a map
  | mapClose
  | comma
  | item  -- the dash before an item
  | key
  | value
  | alias (name : Text)
  | anchor (name : Text)
  | tag (t : WrittenTag)
  | scalar (text : Text) (isPlain : Bool)
deriving DecidableEq, Repr

/-- What may turn out to be a key. -/
structure Candidate where
  before : Nat     -- how many tokens came before
  required : Bool  -- whether nothing else can stand there
  index : Nat
  line : Nat
  column : Nat
deriving DecidableEq, Repr

/-- The longest key without a sign of its own. -/
def maxKeySize : Nat := 1024

/-- A document as far as it is read. -/
structure Outline where
  cursor : Cursor
  tokens : List Token  -- the tokens, the latest first
  blocks : List Nat    -- the columns of the open blocks, the innermost first
  depth : Nat          -- how many brackets and braces are open
  keyAllowed : Bool    -- whether a key without a sign may start here
  -- What may turn out to be a key, by the number of open brackets around it.
  candidates : List (Nat × Candidate)
deriving Repr

namespace Outline

def start (t : Text) : Outline :=
  let c := Cursor.start t
  ⟨if t.head? = some byteOrderMark then c.next else c, [], [], 0, true, []⟩

/-- Adds a token. -/
def emit (o : Outline) (t : Token) : Outline := { o with tokens := t :: o.tokens }

/-- Whether brackets are open. -/
def inFlow (o : Outline) : Bool := o.depth > 0

/-- Closes the blocks right of a column; there is no effect inside brackets. -/
def closeBlocks (o : Outline) (column : Nat) : Outline :=
  if o.inFlow then o
  else
    let closed := (o.blocks.takeWhile (column < ·)).length
    { o with tokens := List.replicate closed .blockEnd ++ o.tokens, blocks := o.blocks.drop closed }

/-- Closes all blocks; there is no effect inside brackets. -/
def closeAll (o : Outline) : Outline :=
  if o.inFlow then o
  else { o with tokens := List.replicate o.blocks.length .blockEnd ++ o.tokens, blocks := [] }

/-- Whether a column lies right of all open blocks. -/
def opensBlock (o : Outline) (column : Nat) : Bool := o.blocks.head?.all (· < column)

/-- Opens a block at a column, if it lies right of all open blocks, with a token. -/
def openBlock (o : Outline) (column : Nat) (t : Token) : Outline :=
  if o.opensBlock column then { (o.emit t) with blocks := column :: o.blocks } else o

/-! ### Candidates for keys -/

/-- What may turn out to be a key between the brackets that are open. -/
def candidate? (o : Outline) : Option Candidate :=
  (o.candidates.find? (·.1 == o.depth)).map (·.2)

/-- Forgets the candidate between the brackets that are open. -/
def forget (o : Outline) : Outline :=
  { o with candidates := o.candidates.filter (·.1 != o.depth) }

/-- Gives up the candidate between the brackets that are open: it is no key. -/
def giveUp (o : Outline) : Except Fault Outline :=
  if o.candidate?.any (·.required) then .error .malformed else .ok o.forget

/-- Gives up what is too far away to be a key, or in a line before. -/
def giveUpStale (o : Outline) : Except Fault Outline :=
  let stale (c : Candidate) : Bool :=
    c.line != o.cursor.line || o.cursor.index - c.index > maxKeySize
  if o.candidates.any fun (_, c) => stale c && c.required then .error .malformed
  else .ok { o with candidates := o.candidates.filter fun (_, c) => !stale c }

/-- Keeps in mind that a key may start here, if it may. -/
def consider (o : Outline) : Except Fault Outline :=
  if !o.keyAllowed then .ok o
  else do
    let o ← o.giveUp
    let c := o.cursor
    let required := !o.inFlow && o.blocks.head? == some c.column
    return { o with
      candidates := (o.depth, ⟨o.tokens.length, required, c.index, c.line, c.column⟩) :: o.candidates }

/-- Puts tokens in front of all that came after the first `before`. -/
def insert (o : Outline) (before : Nat) (ts : List Token) : Outline :=
  let n := o.tokens.length - before
  { o with tokens := o.tokens.take n ++ ts.reverse ++ o.tokens.drop n }

/-! ### Reading one token -/

/-- Passes over comments, spaces and line breaks; after a break a key may start. -/
def passGap (o : Outline) : Outline :=
  let c := o.cursor.skip (gapSize false o.cursor.rest)
  { o with
    cursor := c
    keyAllowed := o.keyAllowed || (!o.inFlow && c.line != o.cursor.line) }

/-- Adds a token of `n` glyphs, after which a key may start or not. -/
def take (o : Outline) (n : Nat) (t : Token) (keyAllowed : Bool) : Outline :=
  { (o.emit t) with cursor := o.cursor.skip n, keyAllowed }

/-- Reads what is read by `read` and may be a key. -/
def takeNode (o : Outline) (read : Cursor → Except Fault (Token × Cursor)) : Except Fault Outline := do
  let o ← o.consider
  let (t, c) ← read o.cursor
  return { (o.emit t) with cursor := c, keyAllowed := false }

def takeMark (o : Outline) (t : Token) : Except Fault Outline :=
  o.closeAll.giveUp.map fun o => o.take 3 t false

def takeOpening (o : Outline) (t : Token) : Except Fault Outline :=
  o.consider.map fun o => { (o.take 1 t true) with depth := o.depth + 1 }

/-- Reads a bracket that closes; one must be open. -/
def takeClosing (o : Outline) (t : Token) : Except Fault Outline :=
  if o.inFlow then o.giveUp.map fun o => { (o.take 1 t false) with depth := o.depth - 1 }
  else .error .malformed

def takeItem (o : Outline) : Except Fault Outline :=
  if o.inFlow then o.giveUp.map fun o => o.take 1 .item true
  else if !o.keyAllowed then .error .malformed
  else (o.openBlock o.cursor.column .listBlock).giveUp.map fun o => o.take 1 .item true

def takeKey (o : Outline) : Except Fault Outline :=
  if o.inFlow then o.giveUp.map fun o => o.take 1 .key false
  else if !o.keyAllowed then .error .malformed
  else (o.openBlock o.cursor.column .mapBlock).giveUp.map fun o => o.take 1 .key true

/-- Reads a colon: if there is a candidate, it is a key. -/
def takeValue (o : Outline) : Except Fault Outline :=
  match o.candidate? with
  | some k =>
    let o := o.forget
    if !o.inFlow && o.opensBlock k.column then
      let o := o.insert k.before [.mapBlock, .key]
      .ok ({ o with blocks := k.column :: o.blocks }.take 1 .value false)
    else .ok ((o.insert k.before [.key]).take 1 .value false)
  | none =>
    if o.inFlow then o.giveUp.map fun o => o.take 1 .value false
    else if !o.keyAllowed then .error .malformed
    else (o.openBlock o.cursor.column .mapBlock).giveUp.map fun o => o.take 1 .value true

def takeBlock (o : Outline) (fold : Bool) : Except Fault Outline := do
  let o ← o.giveUp
  let (t, c) ← block fold o.blocks.head? o.cursor
  return { (o.emit (.scalar t false)) with cursor := c, keyAllowed := true }

def takePlain (o : Outline) : Except Fault Outline := do
  let o ← o.consider
  let (t, newLine, c) := plain o.inFlow (o.blocks.head?.elim 0 (· + 1)) o.cursor
  return { (o.emit (.scalar t true)) with cursor := c, keyAllowed := newLine }

/-- The glyphs that mean something where a token starts. -/
def indicators : List Char := "-?:,[]\x7b\x7d#&*!|>'\"%@\x60".toList

/-- Whether a plain scalar starts. -/
def startsPlain (o : Outline) : Text → Bool
  | [] => false
  | g :: r =>
    (!startsGap [g] && !g.holds indicators.contains) ||
      (!startsGap r && (g == .char '-' || (!o.inFlow && (g == .char '?' || g == .char ':'))))

/-- Reads the token that starts here, where `g` is its first glyph and `r` follows. -/
def takeToken (o : Outline) (g : Glyph) (r : Text) : Except Fault Outline :=
  let lineStart := o.cursor.column == 0
  if lineStart && g = .char '%' then do
    let o ← o.closeAll.giveUp
    let (d, c) ← o.cursor.directive
    return { (o.emit (.directive d)) with cursor := c, keyAllowed := false }
  else if lineStart && startsDocument (g :: r) then o.takeMark .documentStart
  else if lineStart && endsDocument (g :: r) then o.takeMark .documentEnd
  else if g = .char '[' then o.takeOpening .listOpen
  else if g = .char '\x7b' then o.takeOpening .mapOpen
  else if g = .char ']' then o.takeClosing .listClose
  else if g = .char '\x7d' then o.takeClosing .mapClose
  else if g = .char ',' then o.giveUp.map fun o => o.take 1 .comma true
  else if g = .char '-' && startsGap r then o.takeItem
  else if g = .char '?' && (o.inFlow || startsGap r) then o.takeKey
  else if g = .char ':' && (o.inFlow || startsGap r) then o.takeValue
  else if g = .char '*' then o.takeNode fun c => c.anchor.map fun (n, c) => (.alias n, c)
  else if g = .char '&' then o.takeNode fun c => c.anchor.map fun (n, c) => (.anchor n, c)
  else if g = .char '!' then o.takeNode fun c => c.tag.map fun (t, c) => (.tag t, c)
  else if g = .char '|' && !o.inFlow then o.takeBlock false
  else if g = .char '>' && !o.inFlow then o.takeBlock true
  else if g = .char '\'' then
    o.takeNode fun c => (quoted false c).map fun (t, c) => (.scalar t false, c)
  else if g = .char '\"' then
    o.takeNode fun c => (quoted true c).map fun (t, c) => (.scalar t false, c)
  else if o.startsPlain (g :: r) then o.takePlain
  else .error .malformed

def step (o : Outline) : Except Fault (Outline × Bool) := do
  let o ← o.passGap.giveUpStale
  let o := o.closeBlocks o.cursor.column
  match o.cursor.rest with
  | [] => return (← o.closeAll.giveUp, false)
  | g :: r => return (← o.takeToken g r, true)

def run : Nat → Outline → Except Fault (List Token)
  | 0, _ => .error .malformed
  | fuel + 1, o => do
    let (o, more) ← o.step
    if more then run fuel o else return o.tokens.reverse

end Outline

def Token.readAll (t : Text) : Except Fault (List Token) := (Outline.start t).run (t.length + 1)

end HtmlDeps.Yaml
