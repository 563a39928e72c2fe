import HtmlDeps.Yaml.Cursor
import HtmlDeps.Yaml.Fault

/-!
# Scalars of YAML documents

A scalar is written plain, in quotation marks, or as a block of lines.  Line breaks inside plain and
quoted scalars fold: one break is a space, and of several the first is dropped.
-/

namespace HtmlDeps.Yaml

/-- The text that spaces with line breaks in a scalar fold to: the text of the first break, and those
of the others. -/
def folded (first others : Text) : Text :=
  if first ≠ [.char '\n'] then first ++ others
  else if others.isEmpty then [.char ' ']
  else others

/-! ### Plain scalars -/

/-- How many glyphs of blank lines follow a line break in a plain scalar, and the text of their
breaks; no text if they lead to the mark of a document. -/
def plainLines : Text → Nat × Option Text
  | [] => (0, some [])
  | g :: r =>
    if isSpace g then
      let (n, t) := plainLines r
      (n + 1, t)
    else if isBreak g then
      if atMark r then (1, none)
      else
        let (n, t) := plainLines r
        (n + 1, t.map (breakText g ++ ·))
    else (0, some [])

/-- What lies between two words of a plain scalar: the text that it folds to, whether a line ends
there, and the place after it.  There is no text if the scalar ends. -/
def plainGap (c : Cursor) : Text × Bool × Cursor :=
  let (spaces, c) := c.span isSpace
  match c.rest with
  | [] => (spaces, false, c)
  | g :: r =>
    if isBreak g then
      if atMark r then ([], true, c.next)
      else
        let (n, t) := plainLines r
        (t.elim [] (folded (breakText g)), true, c.next.skip n)
    else (spaces, false, c)

/-- How many glyphs of a plain scalar follow up to a gap; `flow` says that it is inside brackets. -/
def plainWord (flow : Bool) : Text → Nat
  | [] => 0
  | g :: r =>
    if startsGap (g :: r) then 0
    else if g == .char ':' && (startsGap r || (flow && r.head?.any (Glyph.holds isFlowMark))) then 0
    else if flow && g.holds (fun c => c == '?' || isFlowMark c) then 0
    else 1 + plainWord flow r
where
  -- A bracket or a comma.
  isFlowMark (c : Char) : Bool := c == ',' || c == '[' || c == ']' || c == '\x7b' || c == '\x7d'

/-- The rest of a plain scalar, where a line that starts left of the column `indent` does not belong
to it: the text, whether its end lies on a new line, and the place after it. -/
def plainFrom (flow : Bool) (indent : Nat) : Nat → Cursor → Bool → Text → Text × Bool × Cursor
  | 0, c, newLine, _ => ([], newLine, c)
  | fuel + 1, c, newLine, gap =>
    let n := plainWord flow c.rest
    if n = 0 || c.sees '#' then ([], newLine, c)
    else
      let word := c.rest.take n
      let (gap', newLine, c) := plainGap (c.skip n)
      if gap'.isEmpty || c.sees '#' || (!flow && c.column < indent) then (gap ++ word, newLine, c)
      else
        let (t, newLine, c) := plainFrom flow indent fuel c newLine gap'
        (gap ++ word ++ t, newLine, c)

def plain (flow : Bool) (indent : Nat) (c : Cursor) : Text × Bool × Cursor :=
  plainFrom flow indent (c.rest.length + 1) c false []

/-! ### Quoted scalars -/

/-- How many glyphs of blank lines follow in a quoted scalar, and the text of their breaks; nothing
if they lead to the mark of a document.  `start` says that a line starts. -/
def quotedLines (start : Bool) : Text → Option (Nat × Text)
  | [] => some (0, [])
  | g :: r =>
    if start && atMark (g :: r) then none
    else if isSpaceOrTab g then (quotedLines false r).map fun (n, t) => (n + 1, t)
    else if isBreak g then (quotedLines true r).map fun (n, t) => (n + 1, breakText g ++ t)
    else some (0, [])

/-- What follows a backslash for a character by a letter. -/
def escapes : List (Char × Char) :=
  [('0', '\x00'), ('a', '\x07'), ('b', '\x08'), ('t', '\t'), ('\t', '\t'), ('n', '\n'),
   ('v', '\x0b'), ('f', '\x0c'), ('r', '\r'), ('e', '\x1b'), (' ', ' '), ('\"', '\"'),
   ('\\', '\\'), ('/', '/'), ('N', '\x85'), ('_', '\u00a0'), ('L', '\u2028'), ('P', '\u2029')]

/-- What follows a backslash for a character by its number, with how many digits. -/
def numericEscapes : List (Char × Nat) := [('x', 2), ('u', 4), ('U', 8)]

/-- The character with a number.  The numbers that stand for stray bytes give these. -/
def numbered (n : Nat) : Except Fault Glyph :=
  if h : n.isValidChar then .ok (.char ⟨n.toUInt32, by
    have hn : n < 4294967296 := by rcases h with h | h <;> omega
    simpa [UInt32.isValidChar, Nat.mod_eq_of_lt hn] using h⟩)
  else if 0xDC80 ≤ n && n ≤ 0xDCFF then .ok (.stray (UInt8.ofNat (n - 0xDC00)))
  else if n < 0x110000 then .error .malformed
  else .error .noCharacter

/-- What an escape stands for, and the place after it; `c` is the place after its backslash. -/
def escape (c : Cursor) : Except Fault (Text × Cursor) :=
  match c.rest with
  | [] => .error .malformed
  | g :: r =>
    if isBreak g then
      match quotedLines true r with
      | some (n, t) => .ok (t, c.next.skip n)
      | none => .error .malformed
    else
      match escapes.find? (Glyph.char ·.1 == g), numericEscapes.find? (Glyph.char ·.1 == g) with
      | some (_, x), _ => .ok ([.char x], c.next)
      | none, some (_, size) =>
        let digits := r.take size
        if digits.length = size && digits.all Glyph.isHexDigit then
          (numbered (Text.inBase 16 digits)).map fun x => ([x], c.skip (size + 1))
        else .error .malformed
      | none, none => .error .malformed

/-- A run of spaces, with line breaks or without, in a quoted scalar. -/
def quotedGap (c : Cursor) : Except Fault (Text × Cursor) :=
  let (spaces, c) := c.span isSpaceOrTab
  match c.rest with
  | [] => .error .malformed
  | g :: r =>
    if isBreak g then
      match quotedLines true r with
      | some (n, t) => .ok (folded (breakText g) t, c.next.skip n)
      | none => .error .malformed
    else .ok (spaces, c)

/-- The rest of a quoted scalar and the place after it; `double` says which marks it has. -/
def quotedFrom (double : Bool) : Nat → Cursor → Except Fault (Text × Cursor)
  | 0, _ => .error .malformed
  | fuel + 1, c =>
    let goOn (t : Text) (c : Cursor) : Except Fault (Text × Cursor) :=
      (quotedFrom double fuel c).map fun (u, c) => (t ++ u, c)
    match c.rest with
    | [] => .error .malformed
    | g :: r =>
      if startsGap (g :: r) then do
        let (t, c) ← quotedGap c
        goOn t c
      else if double then
        if g = .char '\"' then .ok ([], c.next)
        else if g = .char '\\' then do
          let (t, c) ← escape c.next
          goOn t c
        else goOn [g] c.next
      else if g = .char '\'' then
        if r.head? = some g then goOn [g] (c.skip 2) else .ok ([], c.next)
      else goOn [g] c.next

def quoted (double : Bool) (c : Cursor) : Except Fault (Text × Cursor) :=
  quotedFrom double c.rest.length c.next

/-! ### Block scalars -/

/-- What becomes of the line breaks at the end of a block. -/
inductive Chomping where
  | keep   -- all of them stay
  | clip   -- one stays
  | strip  -- none stays
deriving DecidableEq, Repr

/-- What the line that starts a block says of it. -/
structure BlockHeader where
  chomping : Chomping
  indentation : Option Nat  -- how many columns the block is indented, if it is said
deriving DecidableEq, Repr

namespace BlockHeader

/-- Reads the sign for chomping. -/
def chomping? (c : Cursor) : Option (Chomping × Cursor) :=
  if c.sees '+' then some (.keep, c.next)
  else if c.sees '-' then some (.strip, c.next)
  else none

/-- Reads the digit for the indentation, which must not be zero. -/
def indentation? (c : Cursor) : Except Fault (Option Nat × Cursor) :=
  match c.rest with
  | .char d :: _ =>
    if d = '0' then .error .malformed
    else if d.isDigit then .ok (some (d.toNat - '0'.toNat), c.next)
    else .ok (none, c)
  | _ => .ok (none, c)

/-- Reads a header up to the end of its line; the sign and the digit may stand in either order. -/
def read (c : Cursor) : Except Fault (BlockHeader × Cursor) := do
  let (header, c) ← (match chomping? c with
    | some (chomping, c) => do
      let (n, c) ← indentation? c
      return (⟨chomping, n⟩, c)
    | none => do
      let (n, c) ← indentation? c
      match n, chomping? c with
      | some _, some (chomping, c) => return (⟨chomping, n⟩, c)
      | _, _ => return (⟨.clip, n⟩, c) : Except Fault (BlockHeader × Cursor))
  if !endsWord c.rest then .error .malformed
  else
    match c.endOfLine? with
    | some c => .ok (header, c)
    | none => .error .malformed

end BlockHeader

/-- How many glyphs of blank lines follow in a block, and the text of their breaks; `room` is how
many more spaces of the line's indentation may follow. -/
def blockLines (indent : Nat) : Nat → Text → Nat × Text
  | _, [] => (0, [])
  | room, g :: r =>
    if isBreak g then
      let (n, t) := blockLines indent indent r
      (n + 1, breakText g ++ t)
    else if isSpace g && room > 0 then
      let (n, t) := blockLines indent (room - 1) r
      (n + 1, t)
    else (0, [])

/-- How many glyphs of blank lines lead into a block whose indentation is not said, the text of
their breaks, and the greatest column that their spaces reach. -/
def blockLead (column : Nat) : Text → Nat × Text × Nat
  | [] => (0, [], column)
  | g :: r =>
    if isBreak g then
      let (n, t, most) := blockLead 0 r
      (n + 1, breakText g ++ t, max column most)
    else if isSpace g then
      let (n, t, most) := blockLead (column + 1) r
      (n + 1, t, max column most)
    else (0, [], column)

/-- The lines of a block after blank lines with breaks `blank`: their text up to the last line, the
text of the last break, those of the blank lines after it, and the place after them. -/
def blockFrom (fold : Bool) (indent : Nat) : Nat → Cursor → Text → Text × Text × Text × Cursor
  | 0, c, blank => ([], [], blank, c)
  | fuel + 1, c, blank =>
    if c.column = indent && !c.rest.isEmpty then
      let indented := c.rest.head?.any isSpaceOrTab
      let (line, c) := c.span fun g => !isBreak g
      let (last, c) := c.takeBreak
      let (n, blank') := blockLines indent indent c.rest
      let c := c.skip n
      if c.column = indent && !c.rest.isEmpty then
        let glue : Text :=
          if fold && last = [.char '\n'] && !indented && !c.rest.head?.any isSpaceOrTab then
            if blank'.isEmpty then [.char ' '] else []
          else last
        let (t, last, after, c) := blockFrom fold indent fuel c blank'
        (blank ++ line ++ glue ++ t, last, after, c)
      else (blank ++ line, last, blank', c)
    else ([], [], blank, c)

/-- A block scalar in a block at the column `outer`, if there is one, and the place after it; `fold`
says that its lines fold. -/
def block (fold : Bool) (outer : Option Nat) (c : Cursor) : Except Fault (Text × Cursor) := do
  let (header, c) ← BlockHeader.read c.next
  let least := max 1 (outer.elim 0 (· + 1))
  let (indent, n, blank) := match header.indentation with
    | none =>
      let (n, blank, most) := blockLead c.column c.rest
      (max least most, n, blank)
    | some k =>
      let indent := least + k - 1
      let (n, blank) := blockLines indent (indent - c.column) c.rest
      (indent, n, blank)
  let (t, last, after, c) := blockFrom fold indent (c.rest.length + 1) (c.skip n) blank
  return (match header.chomping with
    | .strip => t
    | .clip => t ++ last
    | .keep => t ++ last ++ after, c)

end HtmlDeps.Yaml
