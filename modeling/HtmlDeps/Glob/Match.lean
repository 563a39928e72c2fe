import HtmlDeps.Glob.Brace
import HtmlDeps.Glob.Pattern

/-!
# Matching paths against glob patterns

Each element of a pattern leads from a place in the path to the places where it may end.  A path
matches if the elements, one after the other, lead from its start to a place after which there are
only slashes.

These are `glob_match`, `_clean` and `matches_all` (full specification, section Glob matching).  The library
that matches a path against a pattern is a parameter (`Matcher`), and `accepts` matches as that library does.
-/

namespace HtmlDeps.Glob

/-- A pattern that stands for too many. -/
structure TooMany where
deriving DecidableEq, Repr

def TooMany.message (_ : TooMany) : Text :=
  "Pattern limit exceeded the limit of " ++ Text.ofNat maxExpansions

/-- Whether the path ends here, a last line break not counting. -/
def atEnd (rest : Text) : Bool := rest.isEmpty || rest == [.char '\n']

/-- Whether a part that is `.` or `..` starts here. -/
def atDots (rest : Text) : Bool :=
  match rest with
  | .char '.' :: .char '.' :: r => atEnd r || r.head? == some (.char '/')
  | .char '.' :: r => atEnd r || r.head? == some (.char '/')
  | _ => false

def slash : Glyph := .char '/'

/-- How far `**` may go on from a place; `first` says that it is the start of the path. -/
def deepSpan (first : Bool) : Text → Nat
  | [] => 0
  | .char '/' :: .char '.' :: _ => 0
  | g :: r => if first && g == .char '.' then 0 else 1 + deepSpan false r

def upTo (n : Nat) : List Nat := List.range (n + 1)

namespace Element

/-- How many glyphs an element may take from the path's place `rest`; `first` says that it is the
start of the path. -/
def sizes (first : Bool) (rest : Text) : Element → List Nat
  | .glyph g => if rest.head? = some g then [1] else []
  | .slashes => (upTo (rest.takeWhile (· == slash)).length).drop 1
  | .beforeSlash => if rest.head? = some slash then [0] else []
  | .one leading => single leading fun _ => true
  | .oneOf leading set => single leading set.holds
  | .many leading =>
    let span := (rest.takeWhile (· != slash)).length
    if leading then
      if span = 0 || atDots rest then []
      else if rest.head? = some (.char '.') then [0]
      else upTo span
    else upTo span
  | .deep => upTo (deepSpan first rest)
  | .boundary =>
    let slashes := (upTo (rest.takeWhile (· == slash)).length).drop 1
    if first || atEnd rest then 0 :: slashes else slashes
where
  -- One glyph with property `p` that is no slash and, leading, no dot.
  single (leading : Bool) (p : Glyph → Bool) : List Nat :=
    match rest with
    | [] => []
    | g :: _ => if g == slash || (leading && g == .char '.') || !p g then [] else [1]

end Element

/-- The places after an element, given the places before it. -/
def advance (path : Text) (places : List Nat) (e : Element) : List Nat :=
  (places.flatMap fun n => (e.sizes (n == 0) (path.drop n)).map (n + ·)).eraseDups

/-- Whether a path matches a pattern without braces. -/
def matchesElements (path : Text) (pattern : Text) : Bool :=
  if pattern.isEmpty then path.isEmpty
  else
    ((Element.read pattern).foldl (advance path) [0]).any fun n =>
      (path.drop n).all (· == slash)

/-- What says whether a path matches a pattern.  The program leaves this to a library, so that what is selected
depends on it; `accepts` is such a matcher. -/
abbrev Matcher := Text → Text → Except TooMany Bool

def accepts (path pattern : Text) : Except TooMany Bool :=
  match Brace.expand? pattern with
  | none => .error ⟨⟩
  | some ps => .ok (ps.any (matchesElements path))

/-- The pattern without blanks around it and without one leading `./`. -/
def cleaned (pattern : Text) : Text :=
  let p := pattern.strip
  (Text.after? "./" p).getD p

/-- Whether a path matches a pattern once that is cleaned. -/
def fits (m : Matcher) (path pattern : Text) : Except TooMany Bool := m path (cleaned pattern)

/-- Whether a path is among those that a list of patterns selects.  A pattern after `!` takes paths
out again; the last pattern that matches decides. -/
def selectsFrom (m : Matcher) (path : Text) (selected : Bool) : List Text → Except TooMany Bool
  | [] => .ok selected
  | (.char '!' :: p) :: ps =>
    if selected then do
      let hit ← fits m path p
      selectsFrom m path (!hit) ps
    else selectsFrom m path false ps
  | p :: ps =>
    if selected then selectsFrom m path true ps
    else do
      let hit ← fits m path p
      selectsFrom m path hit ps

/-- Whether a path is selected by a list of patterns. -/
def selects (m : Matcher) (path : Text) (patterns : List Text) : Except TooMany Bool :=
  selectsFrom m path false patterns

end HtmlDeps.Glob
