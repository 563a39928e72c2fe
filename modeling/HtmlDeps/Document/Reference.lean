import HtmlDeps.Document.Warning

/-!
# References of documents

These are `ReferenceKind` and `Reference` (full specification, section Data model).
-/

namespace HtmlDeps

/-- What a document does with what it refers to. -/
inductive Kind where
  | document              -- it imports another document
  | script                -- it runs a script
  | style                 -- it applies a style sheet
  | other (label : Text)  -- something this library does not know, by its label
deriving DecidableEq, Repr

def Kind.label : Kind → Text
  | .document => "html-import"
  | .script => "html-script"
  | .style => "html-style"
  | .other l => l

def Kind.ofLabel (l : Text) : Kind :=
  if l = Kind.document.label then .document
  else if l = Kind.script.label then .script
  else if l = Kind.style.label then .style
  else .other l

/-- A URL that a document refers to. -/
structure Reference where
  url : Text
  kind : Kind
  place : Place
deriving DecidableEq, Repr

end HtmlDeps
