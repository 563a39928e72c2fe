import HtmlDeps.Log.Entry

/-!
# Warnings about documents

These are `Severity`, `SourceRange` and `AnalysisWarning` (full specification, section Data model).
-/

namespace HtmlDeps

/-- A place in a document. -/
structure Place where
  document : Text
  line : Nat
  column : Nat
deriving DecidableEq, Repr

/-- How serious a warning is. -/
inductive Severity where
  | info
  | warning
  | error
deriving DecidableEq, Repr

namespace Severity

/-- All severities, the mildest first. -/
def all : List Severity := [.info, .warning, .error]

def label : Severity → Text
  | .info => "info"
  | .warning => "warning"
  | .error => "error"

def ofLabel? (t : Text) : Option Severity := all.find? (·.label == t)

end Severity

/-- Something noticed while reading a document. -/
structure Warning where
  severity : Severity
  code : Text
  message : Text
  place : Place
deriving DecidableEq, Repr

def Warning.report (w : Warning) : Text :=
  "In " ++ w.place.document ++ ": [" ++ w.code ++ "] - " ++ w.message

namespace Warnings

/-- The warnings with another one, which counts once however often it comes. -/
def add (ws : List Warning) (w : Warning) : List Warning := if w ∈ ws then ws else ws ++ [w]

/-- The warnings with others, each counted once. -/
def addAll (ws more : List Warning) : List Warning := more.foldl add ws

def count (ws : List Warning) (s : Severity) : Nat := (ws.filter (·.severity = s)).length

/-- How a warning appears in the log. -/
def level : Severity → Log.Level
  | .info => .debug
  | .warning => .warning
  | .error => .error

def printed (ws : List Warning) : List Log.Entry :=
  ws.map fun w => ⟨level w.severity, w.report, []⟩

end Warnings
end HtmlDeps
