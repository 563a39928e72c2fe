import HtmlDeps.Document.Reference
import HtmlDeps.Markup.Scanner
import HtmlDeps.Url.Local

/-!
# What a document refers to

A survey goes through the tokens of a document and notes its references, in document order, and what
is wrong with them: links and scripts without a target, and a script that is never closed.

`link` elements count with `import` or `stylesheet` among the words of their `rel` attribute;
`script` elements count with a `src` attribute.

This is `ReferenceCollector` (full specification, section Document Parser).
-/

namespace HtmlDeps

/-- Why a document cannot be surveyed. -/
inductive DocumentFault where
  | markup (f : MarkupFault)
  | url (f : Url.Fault)
deriving DecidableEq, Repr

def DocumentFault.message : DocumentFault → Text
  | .markup f => f.message
  | .url f => f.message

/-- What is known of the document with URL `document` so far. -/
structure Survey where
  document : Text
  references : List Reference
  warnings : List Warning
  pathless : List Text       -- references that lead nowhere
  openScript : Option Place  -- where the script that is still open starts
deriving DecidableEq, Repr

namespace Survey

def start (document : Text) : Survey := ⟨document, [], [], [], none⟩

def place (s : Survey) (p : Position) : Place := ⟨s.document, p.line, p.column⟩

def warn (s : Survey) (severity : Severity) (code message : Text) (p : Place) : Survey :=
  { s with warnings := s.warnings ++ [⟨severity, code, message, p⟩] }

/-- Notes a reference, or warns that there is none. -/
def note (s : Survey) (p : Position) (href : Option Text) (kind : Kind) (code message : Text) :
    Except DocumentFault Survey :=
  let href := href.getD []
  if href.strip.isEmpty then .ok (s.warn .warning code message (s.place p))
  else
    match Url.resolve s.document href with
    | .error f => .error (.url f)
    | .ok none => .ok { s with pathless := s.pathless ++ [href] }
    | .ok (some url) =>
      .ok { s with references := s.references ++ [⟨url, kind, s.place p⟩] }

/-- Takes note of a start tag. -/
def opened (s : Survey) (p : Position) (tag : Tag) : Except DocumentFault Survey :=
  let value (name : Text) : Text := (Tag.get? tag.attributes name).getD []
  if tag.name = "link" then
    let rel := Text.words (value "rel").lower
    let href := Tag.get? tag.attributes "href"
    if rel.contains "import" then
      let kind := if (value "type").lower = "css" then .style else .document
      s.note p href kind "missing-href" "HTML import has no href"
    else if rel.contains "stylesheet" then
      s.note p href .style "missing-href" "Stylesheet link has no href"
    else .ok s
  else if tag.name = "script" then
    let s := { s with openScript := if tag.selfClosing then none else some (s.place p) }
    match Tag.get? tag.attributes "src" with
    | some src => s.note p (some src) .script "missing-src" "Script src is empty"
    | none => .ok s
  else .ok s

def step (s : Survey) (t : Located) : Except DocumentFault Survey :=
  match t.token.event with
  | .opened tag => s.opened t.position tag
  | .closed name => .ok (if name = "script" then { s with openScript := none } else s)
  | .content => .ok s

/-- Takes note of the end of the document. -/
def finish (s : Survey) : Survey :=
  match s.openScript with
  | some p =>
    { s.warn .error "unterminated-script" "<script> element is never closed" p with
      openScript := none }
  | none => s

/-- Goes through tokens as far as no fault stops it. -/
def run (s : Survey) : List Located → Survey × Option DocumentFault
  | [] => (s, none)
  | t :: ts =>
    match s.step t with
    | .ok s' => run s' ts
    | .error f => (s, some f)

/-- Surveys a document given in pieces: all that was noted, and the fault that ended it, if one
did. -/
def ofPieces (document : Text) (pieces : List Text) : Survey × Option DocumentFault :=
  let scan := (Scanner.start .resolved).feedAll pieces
  match (start document).run scan.tokens with
  | (s, some f) => (s, some f)
  | (s, none) =>
    match scan.outcome with
    | .error f => (s, some (.markup f))
    | .ok _ => (s.finish, none)

def of (document contents : Text) : Survey × Option DocumentFault :=
  ofPieces document [contents]

end Survey
end HtmlDeps
