import HtmlDeps.Text.Blank
import HtmlDeps.Url.Host

/-!
# The parts of a URL

`Url.parse` cuts a text into scheme, authority, path, query and fragment.  Controls and spaces in
front are dropped, tabs and line ends anywhere.  The authority is checked: its brackets must hold an
address, and no character in it may stand for one of `/?#@:` under compatibility normalization.
-/

namespace HtmlDeps

/-- The parts of a URL. -/
structure Url where
  scheme : Text
  authority : Text
  path : Text
  query : Text
  fragment : Text
deriving DecidableEq, Repr

namespace Url

/-- Why a text is not read as a URL. -/
inductive Fault where
  | host (f : Host.Fault)
  | disguisedDelimiter (authority : Text)  -- A character of the authority decomposes into a delimiter.
deriving DecidableEq, Repr

def Fault.message : Fault → Text
  | .host f => f.message
  | .disguisedDelimiter a =>
    "netloc '" ++ a ++ "' contains invalid characters under NFKC normalization"

/-- The characters beyond ASCII whose compatibility decomposition holds one of `/?#@:`. -/
def disguisedDelimiters : List Char :=
  ['⁇', '⁈', '⁉', '℀', '℁', '℅', '℆', '⩴', '\uFE13', '\uFE16', '\uFE55', '\uFE56', '\uFE5F',
   '\uFE6B', '\uFF03', '\uFF0F', '\uFF1A', '\uFF1F', '\uFF20']

/-- A glyph that a scheme may have after its first letter. -/
def isSchemeGlyph : Glyph → Bool
  | .char c => c.isAlphanum || c = '+' || c = '-' || c = '.'
  | .stray _ => false

/-- The scheme in front of a text, and what follows its colon. -/
def cutScheme? (t : Text) : Option (Text × Text) :=
  match Text.cutAt (· == .char ':') t with
  | (g :: s, _ :: rest) =>
    if g.isLetter && (g :: s).all isSchemeGlyph then some (g :: s, rest) else none
  | _ => none

/-- The text without what a URL ignores. -/
def cleaned (t : Text) : Text :=
  (t.dropWhile fun g => g.code ≤ 32).filter fun g =>
    g ≠ .char '\t' && g ≠ .char '\r' && g ≠ .char '\n'

/-- The authority after `//`, and what follows it. -/
def cutAuthority (t : Text) : Text × Text :=
  match t with
  | .char '/' :: .char '/' :: r =>
    Text.cutAt (fun g => g == .char '/' || g == .char '?' || g == .char '#') r
  | _ => ([], t)

/-- What is wrong with an authority, if anything, brackets first. -/
def authorityFault? (a : Text) : Option Fault :=
  match Host.fault? a with
  | some f => some (.host f)
  | none =>
    if a.any (Glyph.holds disguisedDelimiters.contains) then some (.disguisedDelimiter a) else none

def parse (t : Text) : Except Fault Url :=
  let t := cleaned t
  let (scheme, rest) := (cutScheme? t).getD ([], t)
  let (authority, rest) := cutAuthority rest
  match authorityFault? authority with
  | some f => .error f
  | none =>
    let (rest, fragment) := Text.cutAt (· == .char '#') rest
    let (path, query) := Text.cutAt (· == .char '?') rest
    .ok ⟨scheme.lower, authority, path, query.drop 1, fragment.drop 1⟩

/-- Whether a URL leads out of the project: it names a scheme, or starts with `//`. -/
def isExternal (t : Text) : Except Fault Bool :=
  if t.startsWith "//" then .ok true
  else (parse t).map fun u => !u.scheme.isEmpty

end Url
end HtmlDeps
